import DbusAccess.Lib.ShiftReduce
import DbusAccess.Spec.Scanner

/-! The grammar of `dbusaccess_policy1.y`, its actions, and the parser of
`dbusaccess_parser.c` around them. -/

namespace DbusAccess

open ShiftReduce

/-- `DAParserExpr *`: the expressions the parser builds, and `NULL`. -/
inductive DAParserExpr where
  | null
  | identity (uid gid : ℤ)
  | custom (action : UInt32) (param : Option CString)
  | not (operand : DAParserExpr)
  | and (left right : DAParserExpr)
  | or (left right : DAParserExpr)
  deriving DecidableEq

/-- `NULL` is the expression of a wildcard entry. -/
structure DAParserEntry where
  expr : DAParserExpr
  access : DAAccess
  deriving DecidableEq

/-- The action table, if there is one, and the resulting entries. -/
structure DAParser where
  actions : Option (List DAAction)
  entries : List DAParserEntry
  deriving DecidableEq

def daParserFindAction (parser : DAParser) (name : CString) : Option DAAction :=
  match parser.actions with
  | none => none
  | some actions => actions.find? (·.name = name)

def daParserNewExprCustom (parser : DAParser) (name : CString) (param : Option CString) :
    DAParserExpr :=
  match daParserFindAction parser name with
  | none => .null
  | some action =>
    if param.isSome ∧ action.args = 0 then .null
    else if param.isNone ∧ action.args ≠ 0 then .null
    else .custom action.id param

def daParserAddEntries (parser : DAParser) (entries : List DAParserEntry) : DAParser :=
  { parser with entries := parser.entries ++ entries }

/-- `union YYSTYPE`, with the member in use; `undefined` is the value of a symbol
that no action sets. -/
inductive YYSTYPE where
  | undefined
  | number (n : ℤ)
  | string (s : CString)
  | access (a : DAAccess)
  | entry (e : DAParserEntry)
  | expr (x : DAParserExpr)
  | list (l : List DAParserEntry)
  deriving DecidableEq

inductive Terminal where
  | NUMBER
  | ID
  | WORD
  | WILDCARD
  | STRING
  | USER
  | GROUP
  | ALLOW
  | DENY
  | ERROR
  | semicolon
  | star
  | equal
  | bang
  | lparen
  | rparen
  | bar
  | amp
  | colon
  /-- Any other character. -/
  | undef
  /-- `$end` -/
  | eoi
  deriving DecidableEq

inductive Nonterminal where
  /-- `$accept` -/
  | accept
  | policy
  | version
  | entries
  | entry
  | access
  | user
  | group
  | expr
  | term
  | param
  deriving DecidableEq

/-- The rules, named after their sides. -/
inductive GrammarRule where
  | accept
  | policyVersion
  | policyVersionEntries
  | policyVersionEntriesEnd
  | policyEntries
  | policyEntriesEnd
  | versionNumber
  | entriesEntry
  | entriesMore
  | entryWildcard
  | entryAccess
  | entryExpr
  | accessAllow
  | accessDeny
  | userNumber
  | userWildcard
  | userWord
  | groupNumber
  | groupWildcard
  | groupWord
  | exprTerm
  | exprNot
  | exprParen
  | exprOr
  | exprAnd
  | termUser
  | termUserGroup
  | termGroup
  | termId
  | termIdParam
  | paramWord
  | paramString
  | paramWildcard
  deriving DecidableEq

namespace GrammarRule

def all : List GrammarRule := [
  accept, policyVersion, policyVersionEntries, policyVersionEntriesEnd, policyEntries,
  policyEntriesEnd, versionNumber, entriesEntry, entriesMore, entryWildcard, entryAccess,
  entryExpr, accessAllow, accessDeny, userNumber, userWildcard, userWord, groupNumber,
  groupWildcard, groupWord, exprTerm, exprNot, exprParen, exprOr, exprAnd, termUser,
  termUserGroup, termGroup, termId, termIdParam, paramWord, paramString, paramWildcard]

def lhs : GrammarRule → Nonterminal
  | accept => .accept
  | policyVersion | policyVersionEntries | policyVersionEntriesEnd
  | policyEntries | policyEntriesEnd => .policy
  | versionNumber => .version
  | entriesEntry | entriesMore => .entries
  | entryWildcard | entryAccess | entryExpr => .entry
  | accessAllow | accessDeny => .access
  | userNumber | userWildcard | userWord => .user
  | groupNumber | groupWildcard | groupWord => .group
  | exprTerm | exprNot | exprParen | exprOr | exprAnd => .expr
  | termUser | termUserGroup | termGroup | termId | termIdParam => .term
  | paramWord | paramString | paramWildcard => .param

def rhs : GrammarRule → List (GrammarSymbol Terminal Nonterminal)
  | accept => [.n .policy, .t .eoi]
  | policyVersion => [.n .version]
  | policyVersionEntries => [.n .version, .t .semicolon, .n .entries]
  | policyVersionEntriesEnd => [.n .version, .t .semicolon, .n .entries, .t .semicolon]
  | policyEntries => [.n .entries]
  | policyEntriesEnd => [.n .entries, .t .semicolon]
  | versionNumber => [.t .NUMBER]
  | entriesEntry => [.n .entry]
  | entriesMore => [.n .entries, .t .semicolon, .n .entry]
  | entryWildcard => [.t .star, .t .equal, .n .access]
  | entryAccess => [.n .expr, .t .equal, .n .access]
  | entryExpr => [.n .expr]
  | accessAllow => [.t .ALLOW]
  | accessDeny => [.t .DENY]
  | userNumber => [.t .NUMBER]
  | userWildcard => [.t .WILDCARD]
  | userWord => [.t .WORD]
  | groupNumber => [.t .NUMBER]
  | groupWildcard => [.t .WILDCARD]
  | groupWord => [.t .WORD]
  | exprTerm => [.n .term]
  | exprNot => [.t .bang, .n .expr]
  | exprParen => [.t .lparen, .n .expr, .t .rparen]
  | exprOr => [.n .expr, .t .bar, .n .expr]
  | exprAnd => [.n .expr, .t .amp, .n .expr]
  | termUser => [.t .USER, .t .lparen, .n .user, .t .rparen]
  | termUserGroup => [.t .USER, .t .lparen, .n .user, .t .colon, .n .group, .t .rparen]
  | termGroup => [.t .GROUP, .t .lparen, .n .group, .t .rparen]
  | termId => [.t .ID, .t .lparen, .t .rparen]
  | termIdParam => [.t .ID, .t .lparen, .n .param, .t .rparen]
  | paramWord => [.t .WORD]
  | paramString => [.t .STRING]
  | paramWildcard => [.t .WILDCARD]

end GrammarRule

/-- `%left '!'` is the only declaration of precedence. -/
def policyGrammar : Grammar Terminal Nonterminal GrammarRule where
  rules := GrammarRule.all
  lhs := GrammarRule.lhs
  rhs := GrammarRule.rhs
  prec
    | .bang => some (1, .left)
    | _ => none
  accept := .accept
  eoi := .eoi

/-- `YYTRANSLATE` -/
def Token.terminal : Token → Terminal
  | .NUMBER _ => .NUMBER
  | .ID _ => .ID
  | .WORD _ => .WORD
  | .WILDCARD _ => .WILDCARD
  | .STRING _ => .STRING
  | .USER => .USER
  | .GROUP => .GROUP
  | .ALLOW => .ALLOW
  | .DENY => .DENY
  | .ERROR => .ERROR
  | .char c =>
    if c = ch ';' then .semicolon
    else if c = ch '*' then .star
    else if c = ch '=' then .equal
    else if c = ch '!' then .bang
    else if c = ch '(' then .lparen
    else if c = ch ')' then .rparen
    else if c = ch '|' then .bar
    else if c = ch '&' then .amp
    else if c = ch ':' then .colon
    else .undef

def Token.yylval : Token → YYSTYPE
  | .NUMBER n => .number n
  | .ID s | .WORD s | .WILDCARD s | .STRING s => .string s
  | _ => .undefined

def FORMAT_VERSION : ℤ := 1

/-- The id a `NUMBER` stands for. -/
def numberId (n : ℤ) : ℤ := if n < 0 then DA_WILDCARD else n

/-- The id a `WORD` stands for, from what the database lookup returned. -/
def wordId (id : ℤ) : ℤ := if id < 0 then DA_INVALID else id

/-- The actions of the rules on the values of their right sides; `none` is
`YYERROR`. The declared types exclude any other combination of members. -/
def yyaction (host : Host) (r : GrammarRule) (v : List YYSTYPE) (parser : DAParser) :
    Option (YYSTYPE × DAParser) :=
  match r, v with
  | .policyVersion, [v1] => some (v1, parser)
  | .policyVersionEntries, [v1, _, .list v3] => some (v1, daParserAddEntries parser v3)
  | .policyVersionEntriesEnd, [v1, _, .list v3, _] => some (v1, daParserAddEntries parser v3)
  | .policyEntries, [.list v1] => some (.list v1, daParserAddEntries parser v1)
  | .policyEntriesEnd, [.list v1, _] => some (.list v1, daParserAddEntries parser v1)
  | .versionNumber, [.number v1] =>
    if v1 ≠ FORMAT_VERSION then none else some (.number v1, parser)
  | .entriesEntry, [.entry v1] => some (.list [v1], parser)
  | .entriesMore, [.list v1, _, .entry v3] => some (.list (v1 ++ [v3]), parser)
  | .entryWildcard, [_, _, .access v3] => some (.entry ⟨.null, v3⟩, parser)
  | .entryAccess, [.expr v1, _, .access v3] => some (.entry ⟨v1, v3⟩, parser)
  | .entryExpr, [.expr v1] => some (.entry ⟨v1, .ALLOW⟩, parser)
  | .accessAllow, [_] => some (.access .ALLOW, parser)
  | .accessDeny, [_] => some (.access .DENY, parser)
  | .userNumber, [.number v1] => some (.number (numberId v1), parser)
  | .userWildcard, [_] => some (.number DA_WILDCARD, parser)
  | .userWord, [.string v1] => some (.number (wordId (daSystemUid host v1)), parser)
  | .groupNumber, [.number v1] => some (.number (numberId v1), parser)
  | .groupWildcard, [_] => some (.number DA_WILDCARD, parser)
  | .groupWord, [.string v1] => some (.number (wordId (daSystemGid host v1)), parser)
  | .exprTerm, [.expr v1] => some (.expr v1, parser)
  | .exprNot, [_, .expr v2] => some (.expr (.not v2), parser)
  | .exprParen, [_, .expr v2, _] => some (.expr v2, parser)
  | .exprOr, [.expr v1, _, .expr v3] => some (.expr (.or v1 v3), parser)
  | .exprAnd, [.expr v1, _, .expr v3] => some (.expr (.and v1 v3), parser)
  | .termUser, [_, _, .number v3, _] => some (.expr (.identity v3 DA_WILDCARD), parser)
  | .termUserGroup, [_, _, .number v3, _, .number v5, _] =>
    some (.expr (.identity v3 v5), parser)
  | .termGroup, [_, _, .number v3, _] => some (.expr (.identity DA_WILDCARD v3), parser)
  | .termId, [.string v1, _, _] =>
    let x := daParserNewExprCustom parser v1 none
    if x = .null then none else some (.expr x, parser)
  | .termIdParam, [.string v1, _, .string v3, _] =>
    let x := daParserNewExprCustom parser v1 (some v3)
    if x = .null then none else some (.expr x, parser)
  | .paramWord, [v1] => some (v1, parser)
  | .paramString, [v1] => some (v1, parser)
  | .paramWildcard, [v1] => some (v1, parser)
  | _, _ => none

def policySemantics (host : Host) :
    Semantics Terminal GrammarRule YYSTYPE Token DAParser where
  sym := Token.terminal
  val := Token.yylval
  act := yyaction host

/-- A bound on the steps of the parser, see `daParserParse_terminates`. -/
def parseFuel (input : List Token) : ℕ := 12 * input.length + 12

/-- `da_parser_parse`. The generated parser gives up when its stack gets too deep
(`YYMAXDEPTH`); that limit is taken as not reached. -/
def daParserParse (host : Host) (parser : DAParser) (input : List Token) : Result DAParser :=
  run policyGrammar (policySemantics host) (parseFuel input)
    ⟨[⟨initial policyGrammar, .undefined⟩], input, parser⟩

def daParserCompile (host : Host) (spec : Option CString) (actions : Option (List DAAction)) :
    Option DAParser :=
  match spec with
  | none => none
  | some spec =>
    match daParserParse host ⟨actions, []⟩ (tokens host spec) with
    | .accept parser => some parser
    | _ => none

def daParserGetResult (parser : DAParser) : List DAParserEntry := parser.entries

end DbusAccess
