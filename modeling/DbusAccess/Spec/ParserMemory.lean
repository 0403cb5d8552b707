import DbusAccess.Lib.EffectfulParser
import DbusAccess.Spec.Blocks

/-! `dbusaccess_parser.c` and the generated scanner and parser once more, with every
allocation: what the parser allocates it also enters into its lists. -/

namespace DbusAccess.InMemory

open MaximalMunch Separation ShiftReduce

variable {σ : Type}

def readParser (parser : Addr) : Prog (Block σ) DAParser := do
  match ← read parser with
  | .parser p => pure p
  | _ => failure

/-- `parser->alloc_list = g_slist_prepend(parser->alloc_list, p)`, for a new block. -/
def allocated (parser : Addr) (b : Block σ) : Prog (Block σ) Addr := do
  let new ← alloc b
  let p ← readParser parser
  let list ← gSListPrepend p.allocList (some new)
  write parser (.parser { p with allocList := list })
  pure new

def daParserNewLink (parser : Addr) (data : Option Addr) : Prog (Block σ) (Option Addr) := do
  let link ← gSListAppend none none
  let p ← readParser parser
  let list ← gSListPrepend p.linkList link
  write parser (.parser { p with linkList := list })
  match link with
  | some l =>
    match ← read l with
    | .gSList _ next => write l (.gSList data next)
    | _ => failure
  | none => failure
  pure link

def daParserNewString (parser : Addr) (str : CString) : Prog (Block σ) Addr :=
  allocated parser (.string str)

def daParserNewExprIdentity (parser : Addr) (uid gid : ℤ) : Prog (Block σ) Addr :=
  allocated parser (.parserExpr ⟨.IDENTITY, .identity uid gid⟩)

def readString (str : Addr) : Prog (Block σ) CString := do
  match ← read str with
  | .string s => pure s
  | _ => failure

def daParserFindAction (parser name : Addr) : Prog (Block σ) (Option DAAction) := do
  let p ← readParser parser
  match p.actions with
  | none => pure none
  | some actions => do
    let name ← readString name
    pure (actions.find? (·.name = name))

def daParserNewExprCustom (parser name : Addr) (param : Option Addr) :
    Prog (Block σ) (Option Addr) := do
  match ← daParserFindAction parser name with
  | none => pure none
  | some action =>
    if param.isSome ∧ action.args = 0 then pure none
    else if param.isNone ∧ action.args ≠ 0 then pure none
    else some <$> allocated parser (.parserExpr ⟨.CUSTOM, .custom action.id param⟩)

def daParserNewExpr (parser : Addr) (type : DA_PARSER_EXPR) (left right : Option Addr) :
    Prog (Block σ) Addr :=
  allocated parser (.parserExpr ⟨type, .expr left right⟩)

def daParserNewEntry (parser : Addr) (expr : Option Addr) (access : DAAccess) :
    Prog (Block σ) Addr :=
  allocated parser (.parserEntry ⟨expr, access⟩)

def daParserAddEntries (parser : Addr) (entries : Option Addr) : Prog (Block σ) Unit := do
  let p ← readParser parser
  let list ← gSListConcat p.entries entries
  write parser (.parser { p with entries := list })

/-- The string comes first, so that the structure is written once. -/
def daParserCreate (actions : Option (List DAAction)) : Prog (Block σ) Addr := do
  let buf ← alloc (.gString [])
  alloc (.parser ⟨actions, buf, none, none, none⟩)

def daParserDelete (parser : Addr) : Prog (Block σ) Unit := do
  let p ← readParser parser
  gSListFreeFull p.linkList gSListFree1
  gSListFreeFull p.allocList gFree
  release .gString p.buf
  release (.gSlice .DAParser) parser

/-! The scanner. -/

def daScannerCreate : Prog (Block σ) Addr := alloc (.scanner ⟨.INITIAL, none⟩)

def daScannerDelete (scanner : Addr) : Prog (Block σ) Unit := release .yyscan scanner

def daScannerBufferCreate (str : CString) (scanner : Addr) : Prog (Block σ) Addr := do
  let buffer ← alloc (.scannerBuffer str)
  match ← read scanner with
  | .scanner s => do
    write scanner (.scanner { s with buffer := some buffer })
    pure buffer
  | _ => failure

def daScannerBufferDelete (buffer scanner : Addr) : Prog (Block σ) Unit := do
  match ← read scanner with
  | .scanner s =>
    if s.buffer = some buffer then write scanner (.scanner { s with buffer := none })
    else pure ()
  | _ => failure
  release .yyBuffer buffer

/-- The token that the parser gets, with the address of its string. -/
inductive Token where
  | NUMBER (number : ℤ)
  | ID (string : Addr)
  | WORD (string : Addr)
  | WILDCARD (string : Addr)
  | STRING (string : Addr)
  | USER
  | GROUP
  | ALLOW
  | DENY
  | ERROR
  | char (c : UInt8)

/-- Strings are copied. -/
def newToken (parser : Addr) : DbusAccess.Token → Prog (Block σ) Token
  | .NUMBER n => pure (.NUMBER n)
  | .ID s => Token.ID <$> daParserNewString parser s
  | .WORD s => Token.WORD <$> daParserNewString parser s
  | .WILDCARD s => Token.WILDCARD <$> daParserNewString parser s
  | .STRING s => Token.STRING <$> daParserNewString parser s
  | .USER => pure .USER
  | .GROUP => pure .GROUP
  | .ALLOW => pure .ALLOW
  | .DENY => pure .DENY
  | .ERROR => pure .ERROR
  | .char c => pure (.char c)

/-- The loop of `da_parser_lex`, for at most so many matches. What the rules do to the
start condition and the string is done to the scanner and to `parser->buf`. -/
def lexLoop (parser scanner : Addr) : ℕ → Prog (Block σ) (Option Token)
  | 0 => failure
  | n + 1 => do
    match ← read scanner with
    | .scanner ⟨start, some buffer⟩ => do
      match ← read buffer with
      | .scannerBuffer [] => pure none
      | .scannerBuffer rest => do
        let p ← readParser parser
        match ← read p.buf with
        | .gString buf => do
          match select (scanRules ⟨start, buf⟩) rest with
          -- the generated scanner would end the process
          | none => failure
          | some (k, r) => do
            let out := r.act ⟨start, buf⟩ (rest.take k)
            write scanner (.scanner ⟨out.1.start, some buffer⟩)
            write buffer (.scannerBuffer (rest.drop k))
            write p.buf (.gString out.1.buf)
            match out.2 with
            | none => lexLoop parser scanner n
            | some t => some <$> newToken parser t
        | _ => failure
      | _ => failure
    | _ => failure

/-- What is left of the text. -/
def remaining (scanner : Addr) : Prog (Block σ) ℕ := do
  match ← read scanner with
  | .scanner ⟨_, some buffer⟩ => do
    match ← read buffer with
    | .scannerBuffer rest => pure rest.length
    | _ => failure
  | _ => failure

/-- A token number that is not positive is the end of the input. -/
def Token.isEndOfInput (host : Host) : Token → Bool
  | .char c => DbusAccess.isEndOfInput host (.char c)
  | _ => false

def daParserLex (host : Host) (parser scanner : Addr) : Prog (Block σ) (Option Token) := do
  let n ← remaining scanner
  match ← lexLoop parser scanner (n + 1) with
  | none => pure none
  | some t => if t.isEndOfInput host then pure none else pure (some t)

/-! The parser. -/

/-- `union YYSTYPE`. -/
inductive YYSTYPE where
  | undefined
  | number (n : ℤ)
  | string (s : Addr)
  | access (a : DAAccess)
  | entry (e : Addr)
  | expr (x : Option Addr)
  | list (l : Option Addr)

def Token.terminal : Token → Terminal
  | .NUMBER _ => .NUMBER
  | .ID _ => .ID
  | .WORD _ => .WORD
  | .WILDCARD _ => .WILDCARD
  | .STRING _ => .STRING
  | .USER => .USER
  | .GROUP => .GROUP
  | .ALLOW => .ALLOW
  | .DENY => .DENY
  | .ERROR => .ERROR
  | .char c => (DbusAccess.Token.char c).terminal

def Token.yylval : Token → YYSTYPE
  | .NUMBER n => .number n
  | .ID s | .WORD s | .WILDCARD s | .STRING s => .string s
  | _ => .undefined

/-- The actions of the rules; without result it is `YYERROR`. -/
def yyaction (host : Host) (parser : Addr) (r : GrammarRule) (v : List YYSTYPE) :
    Prog (Block σ) (Option YYSTYPE) :=
  match r, v with
  | .policyVersion, [v1] => pure (some v1)
  | .policyVersionEntries, [v1, _, .list v3] => do
    daParserAddEntries parser v3
    pure (some v1)
  | .policyVersionEntriesEnd, [v1, _, .list v3, _] => do
    daParserAddEntries parser v3
    pure (some v1)
  | .policyEntries, [.list v1] => do
    daParserAddEntries parser v1
    pure (some (.list v1))
  | .policyEntriesEnd, [.list v1, _] => do
    daParserAddEntries parser v1
    pure (some (.list v1))
  | .versionNumber, [.number v1] =>
    if v1 ≠ FORMAT_VERSION then pure none else pure (some (.number v1))
  | .entriesEntry, [.entry v1] => do
    let l ← daParserNewLink parser (some v1)
    pure (some (.list l))
  | .entriesMore, [.list v1, _, .entry v3] => do
    let l ← daParserNewLink parser (some v3)
    let l ← gSListConcat v1 l
    pure (some (.list l))
  | .entryWildcard, [_, _, .access v3] => do
    let e ← daParserNewEntry parser none v3
    pure (some (.entry e))
  | .entryAccess, [.expr v1, _, .access v3] => do
    let e ← daParserNewEntry parser v1 v3
    pure (some (.entry e))
  | .entryExpr, [.expr v1] => do
    let e ← daParserNewEntry parser v1 .ALLOW
    pure (some (.entry e))
  | .accessAllow, [_] => pure (some (.access .ALLOW))
  | .accessDeny, [_] => pure (some (.access .DENY))
  | .userNumber, [.number v1] => pure (some (.number (numberId v1)))
  | .userWildcard, [_] => pure (some (.number DA_WILDCARD))
  | .userWord, [.string v1] => do
    let s ← readString v1
    pure (some (.number (wordId (daSystemUid host s))))
  | .groupNumber, [.number v1] => pure (some (.number (numberId v1)))
  | .groupWildcard, [_] => pure (some (.number DA_WILDCARD))
  | .groupWord, [.string v1] => do
    let s ← readString v1
    pure (some (.number (wordId (daSystemGid host s))))
  | .exprTerm, [.expr v1] => pure (some (.expr v1))
  | .exprNot, [_, .expr v2] => do
    let x ← daParserNewExpr parser .NOT v2 none
    pure (some (.expr x))
  | .exprParen, [_, .expr v2, _] => pure (some (.expr v2))
  | .exprOr, [.expr v1, _, .expr v3] => do
    let x ← daParserNewExpr parser .OR v1 v3
    pure (some (.expr x))
  | .exprAnd, [.expr v1, _, .expr v3] => do
    let x ← daParserNewExpr parser .AND v1 v3
    pure (some (.expr x))
  | .termUser, [_, _, .number v3, _] => do
    let x ← daParserNewExprIdentity parser v3 DA_WILDCARD
    pure (some (.expr x))
  | .termUserGroup, [_, _, .number v3, _, .number v5, _] => do
    let x ← daParserNewExprIdentity parser v3 v5
    pure (some (.expr x))
  | .termGroup, [_, _, .number v3, _] => do
    let x ← daParserNewExprIdentity parser DA_WILDCARD v3
    pure (some (.expr x))
  | .termId, [.string v1, _, _] => do
    match ← daParserNewExprCustom parser v1 none with
    | none => pure none
    | some x => pure (some (.expr x))
  | .termIdParam, [.string v1, _, .string v3, _] => do
    match ← daParserNewExprCustom parser v1 (some v3) with
    | none => pure none
    | some x => pure (some (.expr x))
  | .paramWord, [v1] => pure (some v1)
  | .paramString, [v1] => pure (some v1)
  | .paramWildcard, [v1] => pure (some v1)
  | _, _ => pure none

def policyEffects (host : Host) (parser scanner : Addr) :
    Effects Terminal GrammarRule YYSTYPE Token (Heap (Block σ)) where
  sym := Token.terminal
  val := Token.yylval
  lex := daParserLex host parser scanner
  act := yyaction host parser

/-- The result is zero for a text that is accepted. A text has no more tokens than bytes,
so the bound is the one of `parseFuel`. -/
def daParserParse (host : Host) (parser scanner : Addr) : Prog (Block σ) ℤ := do
  let n ← remaining scanner
  match ← erun policyGrammar (policyEffects host parser scanner) (12 * n + 12)
      ⟨[⟨initial policyGrammar, .undefined⟩], none⟩ with
  | .accept => pure 0
  | .abort => pure 1
  | .outOfFuel => failure

def daParserCompile (host : Host) (spec : Option CString) (actions : Option (List DAAction)) :
    Prog (Block σ) (Option Addr) :=
  match spec with
  | none => pure none
  | some spec => do
    let parser ← daParserCreate actions
    let scanner ← daScannerCreate
    let buf ← daScannerBufferCreate spec scanner
    let result ← daParserParse host parser scanner
    daScannerBufferDelete buf scanner
    daScannerDelete scanner
    if result = 0 then pure (some parser)
    else do
      daParserDelete parser
      pure none

def daParserGetResult (parser : Addr) : Prog (Block σ) (Option Addr) := do
  let p ← readParser parser
  pure p.entries

/-! What a parser has in memory. -/

open Assertion

/-- Where an expression is among blocks, the newest first: after its operands. -/
inductive ExprIn : List (Addr × Block σ) → Option Addr → DbusAccess.DAParserExpr → Prop
  | null (cells : List (Addr × Block σ)) : ExprIn cells none .null
  | older {cells : List (Addr × Block σ)} {p x} (c : Addr × Block σ) : ExprIn cells p x →
      ExprIn (c :: cells) p x
  | identity {cells : List (Addr × Block σ)} (a : Addr) (uid gid : ℤ) :
      ExprIn ((a, .parserExpr ⟨.IDENTITY, .identity uid gid⟩) :: cells) (some a)
        (.identity uid gid)
  | custom {cells : List (Addr × Block σ)} (a : Addr) (action : UInt32) :
      ExprIn ((a, .parserExpr ⟨.CUSTOM, .custom action none⟩) :: cells) (some a)
        (.custom action none)
  | param {cells : List (Addr × Block σ)} {s : Addr} {param : CString} (a : Addr)
      (action : UInt32) : (s, .string param) ∈ cells →
      ExprIn ((a, .parserExpr ⟨.CUSTOM, .custom action (some s)⟩) :: cells) (some a)
        (.custom action (some param))
  | not {cells : List (Addr × Block σ)} {p x} (a : Addr) : ExprIn cells p x →
      ExprIn ((a, .parserExpr ⟨.NOT, .expr p none⟩) :: cells) (some a) (.not x)
  | and {cells : List (Addr × Block σ)} {l r left right} (a : Addr) : ExprIn cells l left →
      ExprIn cells r right →
      ExprIn ((a, .parserExpr ⟨.AND, .expr l r⟩) :: cells) (some a) (.and left right)
  | or {cells : List (Addr × Block σ)} {l r left right} (a : Addr) : ExprIn cells l left →
      ExprIn cells r right →
      ExprIn ((a, .parserExpr ⟨.OR, .expr l r⟩) :: cells) (some a) (.or left right)

/-- A link to an entry. -/
def EntryIn (cells : List (Addr × Block σ)) (link : Addr × Option Addr)
    (e : DbusAccess.DAParserEntry) : Prop :=
  ∃ a x, link.2 = some a ∧ (a, .parserEntry ⟨x, e.access⟩) ∈ cells ∧ ExprIn cells x e.expr

/-- The same value, with the links that it owns. -/
inductive Agree (cells : List (Addr × Block σ)) :
    DbusAccess.YYSTYPE × YYSTYPE → List (Addr × Option Addr) → Prop
  | undefined : Agree cells (.undefined, .undefined) []
  | number (n : ℤ) : Agree cells (.number n, .number n) []
  | string {s a} : (a, .string s) ∈ cells → Agree cells (.string s, .string a) []
  | access (a : DAAccess) : Agree cells (.access a, .access a) []
  | entry {e a x} : (a, .parserEntry ⟨x, e.access⟩) ∈ cells → ExprIn cells x e.expr →
      Agree cells (.entry e, .entry a) []
  | expr {x p} : ExprIn cells p x → Agree cells (.expr x, .expr p) []
  | list {l : List DbusAccess.DAParserEntry} {links} (p : Option Addr) :
      List.Forall₂ (EntryIn cells) links l → Agree cells (.list l, .list p) links

/-- The links of a value. -/
def YYSTYPE.chain (v : YYSTYPE) (links : List (Addr × Option Addr)) : Assertion (Block σ) :=
  match v with
  | .list p => Chain gSListLinked p links none
  | _ => 1

/-- Links, whatever there is in them. -/
def loose (links : List Addr) : Assertion (Block σ) :=
  (links.map fun a => ⨆ data, ⨆ next, single a (.gSList data next)).prod

/-- What the lists of a parser, and values outside of it, consist of. -/
structure Contents (σ : Type) where
  cells : List (Addr × Block σ)
  allocs : List (Addr × Option Addr)
  records : List (Addr × Option Addr)
  entries : List (Addr × Option Addr)
  values : List (List (Addr × Option Addr))
  dropped : List Addr

/-- Every block but the links is in `alloc_list`, and every link in `link_list`. -/
structure Consistent (c : Contents σ) (entries : List DbusAccess.DAParserEntry)
    (vs : List (DbusAccess.YYSTYPE × YYSTYPE)) : Prop where
  gMalloc : ∀ x ∈ c.cells, x.2.allocation = .gMalloc
  allocs : c.allocs.map Prod.snd = c.cells.map (some ·.1)
  records : (c.records.map Prod.snd).Perm
    ((c.entries.map Prod.fst ++ c.values.flatten.map Prod.fst ++ c.dropped).map some)
  entries : List.Forall₂ (EntryIn c.cells) c.entries entries
  values : List.Forall₂ (Agree c.cells) vs c.values

def Contents.At (c : Contents σ) (parser : Addr) (p : DAParser)
    (vs : List (DbusAccess.YYSTYPE × YYSTYPE)) : Assertion (Block σ) :=
  single parser (.parser p) * owned c.cells * Chain gSListLinked p.allocList c.allocs none *
    Chain gSListLinked p.linkList c.records none * Chain gSListLinked p.entries c.entries none *
    (List.zipWith (fun v links => v.2.chain links) vs c.values).prod * loose c.dropped

/-- A parser with these entries, all of its blocks but the string, and the values that
the generated parser has. -/
def ParserAt (parser : Addr) (buf : Addr) (u : DbusAccess.DAParser)
    (cells : List (Addr × Block σ)) (vs : List (DbusAccess.YYSTYPE × YYSTYPE)) :
    Assertion (Block σ) :=
  ⨆ c : Contents σ, ⨆ p : DAParser,
    fact (c.cells = cells ∧ p.actions = u.actions ∧ p.buf = buf ∧ Consistent c u.entries vs) *
      c.At parser p vs

/-- The scanner with the rest of its text, and the string of the parser. -/
def ScannerAt (scanner buffer buf : Addr) (s : ScanState) (rest : CString) :
    Assertion (Block σ) :=
  single scanner (.scanner ⟨s.start, some buffer⟩) * single buffer (.scannerBuffer rest) *
    single buf (.gString s.buf)

end DbusAccess.InMemory
