import DbusAccess.Spec.Parser

/-! The grammar the policy language is meant to have, without conflicts: every
operator takes the longest expression to its right. Its derivations relate token
sequences to syntax, and syntax to the entries it stands for. -/

namespace DbusAccess

abbrev tSemicolon : Token := .char (ch ';')
abbrev tStar : Token := .char (ch '*')
abbrev tEqual : Token := .char (ch '=')
abbrev tBang : Token := .char (ch '!')
abbrev tLparen : Token := .char (ch '(')
abbrev tRparen : Token := .char (ch ')')
abbrev tBar : Token := .char (ch '|')
abbrev tAmp : Token := .char (ch '&')
abbrev tColon : Token := .char (ch ':')

/-- How a user or a group is written. -/
inductive IdSyntax where
  | number (n : ℤ)
  | wildcard
  | word (w : CString)
  deriving DecidableEq

inductive TermSyntax where
  | user (u : IdSyntax)
  | userGroup (u g : IdSyntax)
  | group (g : IdSyntax)
  | action (name : CString) (param : Option CString)
  deriving DecidableEq

inductive ExprSyntax where
  | term (t : TermSyntax)
  | not (x : ExprSyntax)
  | or (x y : ExprSyntax)
  | and (x y : ExprSyntax)
  deriving DecidableEq

inductive EntrySyntax where
  | wildcard (a : DAAccess)
  | expr (x : ExprSyntax) (a : Option DAAccess)
  deriving DecidableEq

structure PolicySyntax where
  version : Option ℤ
  entries : List EntrySyntax
  deriving DecidableEq

inductive DerivesId : List Token → IdSyntax → Prop
  | number (n : ℤ) : DerivesId [.NUMBER n] (.number n)
  | wildcard (s : CString) : DerivesId [.WILDCARD s] .wildcard
  | word (w : CString) : DerivesId [.WORD w] (.word w)

inductive DerivesParam : List Token → CString → Prop
  | word (s : CString) : DerivesParam [.WORD s] s
  | string (s : CString) : DerivesParam [.STRING s] s
  | wildcard (s : CString) : DerivesParam [.WILDCARD s] s

inductive DerivesAccess : List Token → DAAccess → Prop
  | allow : DerivesAccess [.ALLOW] .ALLOW
  | deny : DerivesAccess [.DENY] .DENY

inductive DerivesTerm : List Token → TermSyntax → Prop
  | user {ts u} (hu : DerivesId ts u) :
    DerivesTerm (.USER :: tLparen :: ts ++ [tRparen]) (.user u)
  | userGroup {ts u us g} (hu : DerivesId ts u) (hg : DerivesId us g) :
    DerivesTerm (.USER :: tLparen :: ts ++ tColon :: us ++ [tRparen]) (.userGroup u g)
  | group {ts g} (hg : DerivesId ts g) :
    DerivesTerm (.GROUP :: tLparen :: ts ++ [tRparen]) (.group g)
  | action (name : CString) : DerivesTerm [.ID name, tLparen, tRparen] (.action name none)
  | actionParam (name : CString) {ts s} (hs : DerivesParam ts s) :
    DerivesTerm (.ID name :: tLparen :: ts ++ [tRparen]) (.action name (some s))

/-- The two nonterminals `E` and `P` for expressions. -/
inductive Level where
  | E
  | P
  deriving DecidableEq

/-- `E := P | '!' E | P '|' E | P '&' E` and `P := term | '(' E ')'`. -/
inductive DerivesExpr : Level → List Token → ExprSyntax → Prop
  | term {ts t} (ht : DerivesTerm ts t) : DerivesExpr .P ts (.term t)
  | paren {ts x} (hx : DerivesExpr .E ts x) : DerivesExpr .P (tLparen :: ts ++ [tRparen]) x
  | prim {ts x} (hx : DerivesExpr .P ts x) : DerivesExpr .E ts x
  | not {ts x} (hx : DerivesExpr .E ts x) : DerivesExpr .E (tBang :: ts) (.not x)
  | or {ts x us y} (hx : DerivesExpr .P ts x) (hy : DerivesExpr .E us y) :
    DerivesExpr .E (ts ++ tBar :: us) (.or x y)
  | and {ts x us y} (hx : DerivesExpr .P ts x) (hy : DerivesExpr .E us y) :
    DerivesExpr .E (ts ++ tAmp :: us) (.and x y)

inductive DerivesEntry : List Token → EntrySyntax → Prop
  | wildcard {ts a} (ha : DerivesAccess ts a) :
    DerivesEntry (tStar :: tEqual :: ts) (.wildcard a)
  | expr {ts x} (hx : DerivesExpr .E ts x) : DerivesEntry ts (.expr x none)
  | access {ts x us a} (hx : DerivesExpr .E ts x) (ha : DerivesAccess us a) :
    DerivesEntry (ts ++ tEqual :: us) (.expr x (some a))

/-- `(';' entry)* [';']` -/
inductive DerivesMore : List Token → List EntrySyntax → Prop
  | none : DerivesMore [] []
  | final : DerivesMore [tSemicolon] []
  | entry {ts e us es} (he : DerivesEntry ts e) (hm : DerivesMore us es) :
    DerivesMore (tSemicolon :: ts ++ us) (e :: es)

inductive DerivesPolicy : List Token → PolicySyntax → Prop
  | version (n : ℤ) : DerivesPolicy [.NUMBER n] ⟨some n, []⟩
  | versionEntries (n : ℤ) {ts e us es} (he : DerivesEntry ts e) (hm : DerivesMore us es) :
    DerivesPolicy (.NUMBER n :: tSemicolon :: ts ++ us) ⟨some n, e :: es⟩
  | entries {ts e us es} (he : DerivesEntry ts e) (hm : DerivesMore us es) :
    DerivesPolicy (ts ++ us) ⟨none, e :: es⟩

/-- Neither nothing nor a version. -/
def isEntryPart : List Token → Bool
  | [] | .NUMBER _ :: _ => false
  | _ => true

/-- The tokens of the entries, from between the semicolons. -/
def entryParts (us : List Token) : List (List Token) :=
  (us.splitOn tSemicolon).filter isEntryPart

/-- The first entry of the table with a name. -/
def firstAction (actions : Option (List DAAction)) (name : CString) : Option DAAction :=
  (actions.getD []).find? (·.name = name)

/-- The name is in the table, and there is a parameter when its first entry takes
one. -/
def TermSyntax.Known (actions : Option (List DAAction)) : TermSyntax → Prop
  | .action name param =>
    ∃ a, firstAction actions name = some a ∧ (param.isSome ↔ a.args ≠ 0)
  | _ => True

def ExprSyntax.Known (actions : Option (List DAAction)) : ExprSyntax → Prop
  | .term t => t.Known actions
  | .not x => x.Known actions
  | .or x y => x.Known actions ∧ y.Known actions
  | .and x y => x.Known actions ∧ y.Known actions

def EntrySyntax.Known (actions : Option (List DAAction)) : EntrySyntax → Prop
  | .wildcard _ => True
  | .expr x _ => x.Known actions

/-- What is required of a policy beyond its syntax. -/
structure PolicySyntax.Valid (actions : Option (List DAAction)) (p : PolicySyntax) : Prop where
  version : ∀ n ∈ p.version, n = FORMAT_VERSION
  known : ∀ e ∈ p.entries, e.Known actions

def IdSyntax.uid (host : Host) : IdSyntax → ℤ
  | .number n => numberId n
  | .wildcard => DA_WILDCARD
  | .word w => wordId (daSystemUid host w)

def IdSyntax.gid (host : Host) : IdSyntax → ℤ
  | .number n => numberId n
  | .wildcard => DA_WILDCARD
  | .word w => wordId (daSystemGid host w)

/-- The tree of a term, for known actions. -/
def TermSyntax.tree (host : Host) (actions : Option (List DAAction)) : TermSyntax → DAParserExpr
  | .user u => .identity (u.uid host) DA_WILDCARD
  | .userGroup u g => .identity (u.uid host) (g.gid host)
  | .group g => .identity DA_WILDCARD (g.gid host)
  | .action name param =>
    match firstAction actions name with
    | some a => .custom a.id param
    | none => .null

def ExprSyntax.tree (host : Host) (actions : Option (List DAAction)) : ExprSyntax → DAParserExpr
  | .term t => t.tree host actions
  | .not x => .not (x.tree host actions)
  | .or x y => .or (x.tree host actions) (y.tree host actions)
  | .and x y => .and (x.tree host actions) (y.tree host actions)

/-- Access is allowed where none is written. -/
def EntrySyntax.entry (host : Host) (actions : Option (List DAAction)) :
    EntrySyntax → DAParserEntry
  | .wildcard a => ⟨.null, a⟩
  | .expr x a => ⟨x.tree host actions, a.getD .ALLOW⟩

/-- The entries a policy stands for, in order. -/
def PolicySyntax.result (host : Host) (actions : Option (List DAAction)) (p : PolicySyntax) :
    List DAParserEntry :=
  p.entries.map (EntrySyntax.entry host actions)

/-- A text is accepted exactly when all its tokens are one policy with the version and the
actions that are known, and what it is compiled to are the entries of this policy. -/
structure FollowsGrammar (host : Host) (actions : Option (List DAAction)) (spec : CString) :
    Prop where
  accepts : (daParserCompile host (some spec) actions).isSome ↔
    ∃ p, DerivesPolicy (scanAll spec) p ∧ p.Valid actions
  builds : ∀ parser p, daParserCompile host (some spec) actions = some parser →
    DerivesPolicy (scanAll spec) p → daParserGetResult parser = p.result host actions
  unambiguous : ∀ p q, DerivesPolicy (scanAll spec) p → DerivesPolicy (scanAll spec) q → p = q

end DbusAccess
