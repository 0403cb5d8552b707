import DbusAccess.Spec.Grammar

/-! How a list of entries is written as a policy text: the pieces of the text, each a
token, and the white space around them. -/

namespace DbusAccess

open Numerals

/-- A name that the scanner can read, and not one of its own words. -/
def ActionName (name : CString) : Prop :=
  (∃ c w, name = c :: w ∧ isAlpha c = true ∧ ∀ d ∈ w, isIdent d = true) ∧
    name ≠ str "user" ∧ name ≠ str "group" ∧ name ≠ str "allow" ∧ name ≠ str "deny"

/-- Strings that can stand between quotes. -/
def QuotableParam (param : CString) : Prop := 0 ∉ param ∧ param.getLast? ≠ some (ch '\\')

/-- Expressions over identities and the actions of the table. -/
inductive DAParserExpr.Writable (actions : Option (List DAAction)) : DAParserExpr → Prop
  | identity {uid gid} (hu : uid = DA_WILDCARD ∨ (0 ≤ uid ∧ uid < 2 ^ 31))
    (hg : gid = DA_WILDCARD ∨ (0 ≤ gid ∧ gid < 2 ^ 31)) : Writable actions (.identity uid gid)
  | custom {name a} (hn : ActionName name) (ha : firstAction actions name = some a)
    {param : Option CString} (hp : param.isSome ↔ a.args ≠ 0) (hq : ∀ p ∈ param, QuotableParam p) :
    Writable actions (.custom a.id param)
  | not {x} (hx : Writable actions x) : Writable actions (.not x)
  | and {x y} (hx : Writable actions x) (hy : Writable actions y) : Writable actions (.and x y)
  | or {x y} (hx : Writable actions x) (hy : Writable actions y) : Writable actions (.or x y)

/-- An expression, or `*` for everything. -/
def DAParserEntry.Writable (actions : Option (List DAAction)) (e : DAParserEntry) : Prop :=
  e.expr = .null ∨ e.expr.Writable actions

inductive WritesId : ℤ → CString → Prop
  | wildcard : WritesId DA_WILDCARD (str "*")
  | number {n : ℕ} (hn : n < 2 ^ 31) : WritesId n (decimal n)

/-- A backslash before each quote. -/
def escape (quote : UInt8) (param : CString) : CString :=
  param.flatMap fun c => if c = quote then [ch '\\', c] else [c]

inductive WritesParam : CString → CString → Prop
  | double {param} (h : QuotableParam param) :
    WritesParam param (ch '"' :: escape (ch '"') param ++ [ch '"'])
  | single {param} (h : QuotableParam param) :
    WritesParam param (ch '\'' :: escape (ch '\'') param ++ [ch '\''])

/-- Operands are in parentheses. -/
inductive WritesExpr (actions : Option (List DAAction)) : DAParserExpr → List CString → Prop
  | identity {uid gid u g} (hu : WritesId uid u) (hg : WritesId gid g) :
    WritesExpr actions (.identity uid gid) [str "user", str "(", u, str ":", g, str ")"]
  | action {name a} (hn : ActionName name) (ha : firstAction actions name = some a)
    (hargs : a.args = 0) :
    WritesExpr actions (.custom a.id none) [name, str "(", str ")"]
  | actionParam {name a} (hn : ActionName name) (ha : firstAction actions name = some a)
    (hargs : a.args ≠ 0) {param p} (hp : WritesParam param p) :
    WritesExpr actions (.custom a.id (some param)) [name, str "(", p, str ")"]
  | not {x us} (hx : WritesExpr actions x us) :
    WritesExpr actions (.not x) (str "!" :: str "(" :: us ++ [str ")"])
  | and {x us y vs} (hx : WritesExpr actions x us) (hy : WritesExpr actions y vs) :
    WritesExpr actions (.and x y)
      (str "(" :: us ++ str ")" :: str "&" :: str "(" :: vs ++ [str ")"])
  | or {x us y vs} (hx : WritesExpr actions x us) (hy : WritesExpr actions y vs) :
    WritesExpr actions (.or x y)
      (str "(" :: us ++ str ")" :: str "|" :: str "(" :: vs ++ [str ")"])

def accessText : DAAccess → CString
  | .ALLOW => str "allow"
  | .DENY => str "deny"

/-- The access can be left out where it is allow, except behind `*`. -/
inductive WritesEntry (actions : Option (List DAAction)) : DAParserEntry → List CString → Prop
  | wildcard (a : DAAccess) : WritesEntry actions ⟨.null, a⟩ [str "*", str "=", accessText a]
  | access {x us} (hx : WritesExpr actions x us) (a : DAAccess) :
    WritesEntry actions ⟨x, a⟩ (us ++ [str "=", accessText a])
  | allow {x us} (hx : WritesExpr actions x us) : WritesEntry actions ⟨x, .ALLOW⟩ us

inductive WritesEntries (actions : Option (List DAAction)) :
    List DAParserEntry → List CString → Prop
  | last {e us} (he : WritesEntry actions e us) : WritesEntries actions [e] us
  | more {e us es vs} (he : WritesEntry actions e us) (hes : WritesEntries actions es vs) :
    WritesEntries actions (e :: es) (us ++ str ";" :: vs)

/-- The pieces in a row, with any white space before, between and behind them. -/
inductive Spaced : List CString → CString → Prop
  | nil {bl} (hbl : bl.all isSpace = true) : Spaced [] bl
  | cons {bl w ws x} (hbl : bl.all isSpace = true) (h : Spaced ws x) :
    Spaced (w :: ws) (bl ++ w ++ x)

/-- A text that says these entries. -/
def Renders (actions : Option (List DAAction)) (entries : List DAParserEntry)
    (text : CString) : Prop :=
  ∃ ws, WritesEntries actions entries ws ∧ Spaced ws text

/-! Terms inside of texts. -/

/-- The text ends with the name of an action, where its argument is expected. -/
def NameEnds (pre name : CString) : Prop :=
  ∃ ts, MaximalMunch.scan scanRules .init (pre ++ name) = (ts ++ [.ID name], ⟨.BEFORE_ARGS, []⟩)

/-- An action and its argument, with any white space inside of the term. -/
inductive TermText (name arg : CString) : CString → Prop
  | mk {bl1 bl2 bl3} (h1 : bl1.all isSpace = true) (h2 : bl2.all isSpace = true)
    (h3 : bl3.all isSpace = true) :
    TermText name arg (name ++ bl1 ++ str "(" ++ bl2 ++ arg ++ bl3 ++ str ")")

/-- A user together with a group. -/
inductive PairText (u g : CString) : CString → Prop
  | mk {bl1 bl2 bl3 bl4 bl5} (h1 : bl1.all isSpace = true) (h2 : bl2.all isSpace = true)
    (h3 : bl3.all isSpace = true) (h4 : bl4.all isSpace = true) (h5 : bl5.all isSpace = true) :
    PairText u g (str "user" ++ bl1 ++ str "(" ++ bl2 ++ u ++ bl3 ++ str ":" ++ bl4 ++ g ++ bl5 ++
      str ")")

/-- The scanner comes to what is left of a text outside of arguments, with these tokens. -/
def ComesTo (pre rest : CString) (ts : List Token) : Prop :=
  MaximalMunch.Scans scanRules .init (pre ++ rest) ts .init rest

/-- The parser gets to see what is left of a text. -/
def SeenFrom (host : Host) (pre rest : CString) : Prop :=
  ∃ ts, ComesTo pre rest ts ∧ ∀ t ∈ ts, isEndOfInput host t = false

end DbusAccess
