import DbusAccess.Lib.MaximalMunch
import DbusAccess.Lib.Numerals
import DbusAccess.Spec.Types

/-! The scanner of `dbusaccess_policy1.l`. -/

namespace DbusAccess

open MaximalMunch

/-- Character classes of the rules, in the C locale. -/
def isDigit (c : UInt8) : Bool := ch '0' ≤ c && c ≤ ch '9'

def isAlpha (c : UInt8) : Bool := ch 'A' ≤ c && c ≤ ch 'Z' || ch 'a' ≤ c && c ≤ ch 'z'

def isAlnum (c : UInt8) : Bool := isAlpha c || isDigit c

/-- Blank, `\t`, `\n`, `\v`, `\f` and `\r`. -/
def isSpace (c : UInt8) : Bool := c == ch ' ' || 9 ≤ c && c ≤ 13

/-- `[[:alnum:]_\-?*]` -/
def isWord (c : UInt8) : Bool :=
  isAlnum c || c == ch '_' || c == ch '-' || c == ch '?' || c == ch '*'

/-- `[[:alnum:]_\-]` -/
def isIdent (c : UInt8) : Bool := isAlnum c || c == ch '_' || c == ch '-'

/-- `.` -/
def notNewline (c : UInt8) : Bool := c != ch '\n'

/-- A token with its semantic value; `char` is a token that stands for itself. -/
inductive Token where
  | NUMBER (number : ℤ)
  | ID (string : CString)
  | WORD (string : CString)
  | WILDCARD (string : CString)
  | STRING (string : CString)
  | USER
  | GROUP
  | ALLOW
  | DENY
  | ERROR
  | char (c : UInt8)
  deriving DecidableEq

inductive StartCondition where
  | INITIAL
  | BEFORE_ARGS
  | ARGS
  | SQUOTE
  | QUOTE
  deriving DecidableEq

/-- Start condition and the parser's string buffer. -/
structure ScanState where
  start : StartCondition
  buf : CString
  deriving DecidableEq

/-- `strtoul` saturates at the largest `unsigned long`, of 64 bits; the value is
then assigned to an `int`. -/
def number (yytext : CString) : Token :=
  let n := Numerals.strtoull 0 yytext
  if n.rest = [] then .NUMBER (toInt n.value) else .ERROR

def BEGIN (start : StartCondition) (s : ScanState) : ScanState := { s with start := start }

def daParserStartString (s : ScanState) : ScanState := { s with buf := [] }

def daParserAppendChar (c : UInt8) (s : ScanState) : ScanState := { s with buf := s.buf ++ [c] }

def daParserFinishString (s : ScanState) : CString × ScanState := (s.buf, { s with buf := [] })

abbrev ScanRule := Rule UInt8 ScanState Token

/-- `BEGIN(ARGS)` and the string collected so far, at a closing quote. -/
def finishString (s : ScanState) (_ : CString) : ScanState × Option Token :=
  let fin := daParserFinishString (BEGIN .ARGS s)
  (fin.2, some (.STRING fin.1))

/-- `return yytext[0]`, after a change of start condition. -/
def returnChar (start : ScanState → ScanState) (s : ScanState) (yytext : CString) :
    ScanState × Option Token :=
  (start s, yytext.head?.map .char)

def appendText (s : ScanState) (yytext : CString) : ScanState × Option Token :=
  ((yytext.head?.map fun c => daParserAppendChar c s).getD s, none)

def wordToken (yytext : CString) : Token :=
  if yytext = str "*" then .WILDCARD yytext else .WORD yytext

/-- The rules in the order of the file, each under its start conditions. -/
def allRules : List (List StartCondition × ScanRule) := [
  ([.QUOTE], ⟨.lit (str "\""), finishString⟩),
  ([.SQUOTE], ⟨.lit (str "'"), finishString⟩),
  ([.QUOTE], ⟨.lit (str "\\\""), fun s _ => (daParserAppendChar (ch '"') s, none)⟩),
  ([.SQUOTE], ⟨.lit (str "\\'"), fun s _ => (daParserAppendChar (ch '\'') s, none)⟩),
  ([.QUOTE, .SQUOTE], ⟨.lit (str "\n"), appendText⟩),
  ([.QUOTE, .SQUOTE], ⟨.one notNewline, appendText⟩),
  ([.BEFORE_ARGS], ⟨.lit (str "("), returnChar (BEGIN .ARGS)⟩),
  ([.ARGS], ⟨.lit (str "'"), fun s _ => (daParserStartString (BEGIN .SQUOTE s), none)⟩),
  ([.ARGS], ⟨.lit (str "\""), fun s _ => (daParserStartString (BEGIN .QUOTE s), none)⟩),
  ([.ARGS], ⟨.lit (str ")"), returnChar (BEGIN .INITIAL)⟩),
  ([.INITIAL], ⟨.lit (str "user"), fun s _ => (BEGIN .BEFORE_ARGS s, some .USER)⟩),
  ([.INITIAL], ⟨.lit (str "group"), fun s _ => (BEGIN .BEFORE_ARGS s, some .GROUP)⟩),
  ([.INITIAL], ⟨.lit (str "allow"), fun s _ => (s, some .ALLOW)⟩),
  ([.INITIAL], ⟨.lit (str "deny"), fun s _ => (s, some .DENY)⟩),
  ([.INITIAL, .ARGS], ⟨.many isDigit, fun s yytext => (s, some (number yytext))⟩),
  ([.ARGS], ⟨.many isWord, fun s yytext => (s, some (wordToken yytext))⟩),
  ([.INITIAL], ⟨.word isAlpha isIdent,
    fun s yytext => (BEGIN .BEFORE_ARGS s, some (.ID yytext))⟩),
  ([.INITIAL, .BEFORE_ARGS, .ARGS], ⟨.many isSpace, fun s _ => (s, none)⟩),
  ([.INITIAL, .BEFORE_ARGS, .ARGS], ⟨.one notNewline, returnChar id⟩)]

def scanRules (s : ScanState) : List ScanRule :=
  (allRules.filter fun r => s.start ∈ r.1).map (·.2)

/-- State of a new scanner and parser. -/
def ScanState.init : ScanState := ⟨.INITIAL, []⟩

/-- All the tokens of a text. -/
def scanAll (spec : CString) : List Token := (scan scanRules .init spec).1

/-- The parser takes a token number that is not positive for the end of input: a
`char` from 128 on is negative where the type is signed. -/
def isEndOfInput (host : Host) : Token → Bool
  | .char c => host.charSigned && 128 ≤ c
  | _ => false

/-- There is a byte that the parser takes for the end of input. -/
def EndsEarly (host : Host) (spec : CString) : Prop :=
  ∃ t ∈ scanAll spec, isEndOfInput host t = true

/-- The tokens the parser gets to see. -/
def tokens (host : Host) (spec : CString) : List Token :=
  (scanAll spec).takeWhile (!isEndOfInput host ·)

end DbusAccess
