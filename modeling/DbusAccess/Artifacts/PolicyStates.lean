import DbusAccess.Spec.Parser

/-! The automaton of the policy grammar. Its states are named after the symbols
read since the start of the rules they are in, and the tables below are checked
against the item sets that the grammar gives. -/

namespace DbusAccess

open ShiftReduce

def Terminal.all : List Terminal := [
  .NUMBER, .ID, .WORD, .WILDCARD, .STRING, .USER, .GROUP, .ALLOW, .DENY, .ERROR, .semicolon,
  .star, .equal, .bang, .lparen, .rparen, .bar, .amp, .colon, .undef, .eoi]

def Nonterminal.all : List Nonterminal := [
  .accept, .policy, .version, .entries, .entry, .access, .user, .group, .expr, .term, .param]

theorem Terminal.mem_all (a : Terminal) : a ∈ Terminal.all := by
  cases a <;> decide

theorem Nonterminal.mem_all (X : Nonterminal) : X ∈ Nonterminal.all := by
  cases X <;> decide

inductive PolicyState where
  | start
  | policy
  | version
  | entries
  | number
  | entry
  | star
  | entryExpr
  | term
  | bang
  | lparen
  | user
  | group
  | id
  | versionSemi
  | entriesSemi
  | starEqual
  | exprEqual
  | exprBar
  | exprAmp
  | bangExpr
  | lparenExpr
  | userLparen
  | groupLparen
  | idLparen
  | versionEntries
  | entriesEntry
  | starAccess
  | allow
  | deny
  | exprAccess
  | exprBarExpr
  | exprAmpExpr
  | lparenExprRparen
  | userArg
  | userNumber
  | userWildcard
  | userWord
  | groupArg
  | groupNumber
  | groupWildcard
  | groupWord
  | idRparen
  | idParam
  | paramWord
  | paramString
  | paramWildcard
  | versionEntriesSemi
  | userRparen
  | userColon
  | groupRparen
  | idParamRparen
  | userGroupArg
  | userGroupRparen
  deriving DecidableEq

namespace PolicyState

def all : List PolicyState := [
  start, policy, version, entries, number, entry, star, entryExpr, term, bang, lparen, user,
  group, id, versionSemi, entriesSemi, starEqual, exprEqual, exprBar, exprAmp, bangExpr,
  lparenExpr, userLparen, groupLparen, idLparen, versionEntries, entriesEntry, starAccess,
  allow, deny, exprAccess, exprBarExpr, exprAmpExpr, lparenExprRparen, userArg, userNumber,
  userWildcard, userWord, groupArg, groupNumber, groupWildcard, groupWord, idRparen, idParam,
  paramWord, paramString, paramWildcard, versionEntriesSemi, userRparen, userColon, groupRparen,
  idParamRparen, userGroupArg, userGroupRparen]

theorem mem_all (s : PolicyState) : s ∈ all := by
  cases s <;> decide

/-- The rules a state is in the middle of, with the symbols read of each. -/
def kernel : PolicyState → List (Item GrammarRule)
  | start => [⟨.accept, 0⟩]
  | policy => [⟨.accept, 1⟩]
  | version => [⟨.policyVersion, 1⟩, ⟨.policyVersionEntries, 1⟩, ⟨.policyVersionEntriesEnd, 1⟩]
  | entries => [⟨.policyEntries, 1⟩, ⟨.policyEntriesEnd, 1⟩, ⟨.entriesMore, 1⟩]
  | number => [⟨.versionNumber, 1⟩]
  | entry => [⟨.entriesEntry, 1⟩]
  | star => [⟨.entryWildcard, 1⟩]
  | entryExpr => [⟨.entryAccess, 1⟩, ⟨.entryExpr, 1⟩, ⟨.exprOr, 1⟩, ⟨.exprAnd, 1⟩]
  | term => [⟨.exprTerm, 1⟩]
  | bang => [⟨.exprNot, 1⟩]
  | lparen => [⟨.exprParen, 1⟩]
  | user => [⟨.termUser, 1⟩, ⟨.termUserGroup, 1⟩]
  | group => [⟨.termGroup, 1⟩]
  | id => [⟨.termId, 1⟩, ⟨.termIdParam, 1⟩]
  | versionSemi => [⟨.policyVersionEntries, 2⟩, ⟨.policyVersionEntriesEnd, 2⟩]
  | entriesSemi => [⟨.policyEntriesEnd, 2⟩, ⟨.entriesMore, 2⟩]
  | starEqual => [⟨.entryWildcard, 2⟩]
  | exprEqual => [⟨.entryAccess, 2⟩]
  | exprBar => [⟨.exprOr, 2⟩]
  | exprAmp => [⟨.exprAnd, 2⟩]
  | bangExpr => [⟨.exprNot, 2⟩, ⟨.exprOr, 1⟩, ⟨.exprAnd, 1⟩]
  | lparenExpr => [⟨.exprParen, 2⟩, ⟨.exprOr, 1⟩, ⟨.exprAnd, 1⟩]
  | userLparen => [⟨.termUser, 2⟩, ⟨.termUserGroup, 2⟩]
  | groupLparen => [⟨.termGroup, 2⟩]
  | idLparen => [⟨.termId, 2⟩, ⟨.termIdParam, 2⟩]
  | versionEntries => [⟨.policyVersionEntries, 3⟩, ⟨.policyVersionEntriesEnd, 3⟩, ⟨.entriesMore, 1⟩]
  | entriesEntry => [⟨.entriesMore, 3⟩]
  | starAccess => [⟨.entryWildcard, 3⟩]
  | allow => [⟨.accessAllow, 1⟩]
  | deny => [⟨.accessDeny, 1⟩]
  | exprAccess => [⟨.entryAccess, 3⟩]
  | exprBarExpr => [⟨.exprOr, 3⟩, ⟨.exprOr, 1⟩, ⟨.exprAnd, 1⟩]
  | exprAmpExpr => [⟨.exprAnd, 3⟩, ⟨.exprOr, 1⟩, ⟨.exprAnd, 1⟩]
  | lparenExprRparen => [⟨.exprParen, 3⟩]
  | userArg => [⟨.termUser, 3⟩, ⟨.termUserGroup, 3⟩]
  | userNumber => [⟨.userNumber, 1⟩]
  | userWildcard => [⟨.userWildcard, 1⟩]
  | userWord => [⟨.userWord, 1⟩]
  | groupArg => [⟨.termGroup, 3⟩]
  | groupNumber => [⟨.groupNumber, 1⟩]
  | groupWildcard => [⟨.groupWildcard, 1⟩]
  | groupWord => [⟨.groupWord, 1⟩]
  | idRparen => [⟨.termId, 3⟩]
  | idParam => [⟨.termIdParam, 3⟩]
  | paramWord => [⟨.paramWord, 1⟩]
  | paramString => [⟨.paramString, 1⟩]
  | paramWildcard => [⟨.paramWildcard, 1⟩]
  | versionEntriesSemi => [⟨.policyVersionEntriesEnd, 4⟩, ⟨.entriesMore, 2⟩]
  | userRparen => [⟨.termUser, 4⟩]
  | userColon => [⟨.termUserGroup, 4⟩]
  | groupRparen => [⟨.termGroup, 4⟩]
  | idParamRparen => [⟨.termIdParam, 4⟩]
  | userGroupArg => [⟨.termUserGroup, 5⟩]
  | userGroupRparen => [⟨.termUserGroup, 6⟩]

def items (s : PolicyState) : List (Item GrammarRule) := closure policyGrammar s.kernel

/-- States in which an expression can start, with the state after it. -/
def afterExpr : PolicyState → Option PolicyState
  | start => some entryExpr
  | bang => some bangExpr
  | lparen => some lparenExpr
  | versionSemi => some entryExpr
  | entriesSemi => some entryExpr
  | exprBar => some exprBarExpr
  | exprAmp => some exprAmpExpr
  | versionEntriesSemi => some entryExpr
  | _ => none

/-- What every state in which an expression can start shifts, besides its own. -/
def exprStart : GrammarSymbol Terminal Nonterminal → Option PolicyState
  | .n .term => some term
  | .t .bang => some bang
  | .t .lparen => some lparen
  | .t .USER => some user
  | .t .GROUP => some group
  | .t .ID => some id
  | _ => none

/-- The transitions. -/
def next (s : PolicyState) (X : GrammarSymbol Terminal Nonterminal) : Option PolicyState :=
  match s, X with
  | start, .n .policy => some policy
  | start, .n .version => some version
  | start, .n .entries => some entries
  | start, .t .NUMBER => some number
  | start, .n .entry => some entry
  | start, .t .star => some star
  | version, .t .semicolon => some versionSemi
  | entries, .t .semicolon => some entriesSemi
  | star, .t .equal => some starEqual
  | entryExpr, .t .equal => some exprEqual
  | entryExpr, .t .bar => some exprBar
  | entryExpr, .t .amp => some exprAmp
  | user, .t .lparen => some userLparen
  | group, .t .lparen => some groupLparen
  | id, .t .lparen => some idLparen
  | versionSemi, .n .entries => some versionEntries
  | versionSemi, .n .entry => some entry
  | versionSemi, .t .star => some star
  | entriesSemi, .n .entry => some entriesEntry
  | entriesSemi, .t .star => some star
  | starEqual, .n .access => some starAccess
  | starEqual, .t .ALLOW => some allow
  | starEqual, .t .DENY => some deny
  | exprEqual, .n .access => some exprAccess
  | exprEqual, .t .ALLOW => some allow
  | exprEqual, .t .DENY => some deny
  | bangExpr, .t .bar => some exprBar
  | bangExpr, .t .amp => some exprAmp
  | lparenExpr, .t .rparen => some lparenExprRparen
  | lparenExpr, .t .bar => some exprBar
  | lparenExpr, .t .amp => some exprAmp
  | userLparen, .n .user => some userArg
  | userLparen, .t .NUMBER => some userNumber
  | userLparen, .t .WILDCARD => some userWildcard
  | userLparen, .t .WORD => some userWord
  | groupLparen, .n .group => some groupArg
  | groupLparen, .t .NUMBER => some groupNumber
  | groupLparen, .t .WILDCARD => some groupWildcard
  | groupLparen, .t .WORD => some groupWord
  | idLparen, .t .rparen => some idRparen
  | idLparen, .n .param => some idParam
  | idLparen, .t .WORD => some paramWord
  | idLparen, .t .STRING => some paramString
  | idLparen, .t .WILDCARD => some paramWildcard
  | versionEntries, .t .semicolon => some versionEntriesSemi
  | exprBarExpr, .t .bar => some exprBar
  | exprBarExpr, .t .amp => some exprAmp
  | exprAmpExpr, .t .bar => some exprBar
  | exprAmpExpr, .t .amp => some exprAmp
  | userArg, .t .rparen => some userRparen
  | userArg, .t .colon => some userColon
  | groupArg, .t .rparen => some groupRparen
  | idParam, .t .rparen => some idParamRparen
  | versionEntriesSemi, .n .entry => some entriesEntry
  | versionEntriesSemi, .t .star => some star
  | userColon, .n .group => some userGroupArg
  | userColon, .t .NUMBER => some groupNumber
  | userColon, .t .WILDCARD => some groupWildcard
  | userColon, .t .WORD => some groupWord
  | userGroupArg, .t .rparen => some userGroupRparen
  | s, .n .expr => s.afterExpr
  | s, X => if s.afterExpr.isSome then exprStart X else none

/-- The rule read to its end. -/
def rule : PolicyState → Option GrammarRule
  | version => some .policyVersion
  | entries => some .policyEntries
  | number => some .versionNumber
  | entry => some .entriesEntry
  | entryExpr => some .entryExpr
  | term => some .exprTerm
  | entriesSemi => some .policyEntriesEnd
  | bangExpr => some .exprNot
  | versionEntries => some .policyVersionEntries
  | entriesEntry => some .entriesMore
  | starAccess => some .entryWildcard
  | allow => some .accessAllow
  | deny => some .accessDeny
  | exprAccess => some .entryAccess
  | exprBarExpr => some .exprOr
  | exprAmpExpr => some .exprAnd
  | lparenExprRparen => some .exprParen
  | userNumber => some .userNumber
  | userWildcard => some .userWildcard
  | userWord => some .userWord
  | groupNumber => some .groupNumber
  | groupWildcard => some .groupWildcard
  | groupWord => some .groupWord
  | idRparen => some .termId
  | paramWord => some .paramWord
  | paramString => some .paramString
  | paramWildcard => some .paramWildcard
  | versionEntriesSemi => some .policyVersionEntriesEnd
  | userRparen => some .termUser
  | groupRparen => some .termGroup
  | idParamRparen => some .termIdParam
  | userGroupRparen => some .termUserGroup
  | _ => none

/-- The parser's choice: shift what can be shifted, else reduce. -/
def act (s : PolicyState) (a : Terminal) : Action GrammarRule :=
  if (s.next (.t a)).isSome ∨ s = policy ∧ a = .eoi then .shift
  else match s.rule with
    | some r => .reduce r
    | none => .error

theorem initial_eq : initial policyGrammar = start.items := rfl

private theorem goto_terminals : ∀ s ∈ all, ∀ a ∈ Terminal.all, ∀ s' ∈ s.next (.t a),
    goto policyGrammar s.items (.t a) = s'.items := by
  decide +kernel

private theorem goto_nonterminals : ∀ s ∈ all, ∀ X ∈ Nonterminal.all, ∀ s' ∈ s.next (.n X),
    goto policyGrammar s.items (.n X) = s'.items := by
  decide +kernel

private theorem action_checked : ∀ s ∈ all, ∀ a ∈ Terminal.all,
    action policyGrammar s.items a = s.act a := by
  decide +kernel

/-- The transition table is the automaton's. -/
theorem goto_items {s s' : PolicyState} {X : GrammarSymbol Terminal Nonterminal}
    (h : s.next X = some s') : goto policyGrammar s.items X = s'.items := by
  cases X with
  | t a => exact goto_terminals s s.mem_all a a.mem_all s' h
  | n X => exact goto_nonterminals s s.mem_all X X.mem_all s' h

/-- The parser shifts what it can and else reduces: precedence never decides. -/
theorem action_items (s : PolicyState) (a : Terminal) :
    action policyGrammar s.items a = s.act a :=
  action_checked s s.mem_all a a.mem_all

end PolicyState
end DbusAccess
