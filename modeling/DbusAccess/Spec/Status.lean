import DbusAccess.Spec.Cred

/-! What a status file says, line by line, and the texts the kernel writes. -/

namespace DbusAccess

open Numerals

/-- The text behind the colon of a line with this key. Letter case does not count,
nor does white space in front. -/
def keyValue (key : CString) (line : List UInt8) : Option (List UInt8) :=
  let line := line.dropWhile gAsciiIsspace
  let k := line.takeWhile (· ≠ ch ':')
  match line.drop k.length with
  | [] => none
  | _ :: value =>
    if !k.any gAsciiIsspace && k.map toLower == key.map toLower then some value else none

/-- The value of the first line with this key. -/
def firstValue (key : CString) (data : List UInt8) : Option (List UInt8) :=
  (data.splitOn (ch '\n')).findSome? (keyValue key)

def words (value : List UInt8) : List (List UInt8) :=
  (value.splitOnP gAsciiIsspace).filter (· ≠ [])

/-- The second of four words. -/
def effectiveId (value : List UInt8) : Option UInt32 :=
  match words value with
  | [_, w, _, _] => daCredParseUint32 w
  | _ => none

def groupIds (value : List UInt8) : List UInt32 := (words value).filterMap daCredParseUint32

def capabilities (value : List UInt8) : Option UInt64 :=
  match words value with
  | [w] => daCredParseUint64 w
  | _ => none

/-- The values of the four lines that count. -/
structure Status where
  uid : Option (List UInt8)
  gid : Option (List UInt8)
  groups : Option (List UInt8)
  capEff : Option (List UInt8)
  deriving DecidableEq

def Status.ofText (data : List UInt8) : Status where
  uid := firstValue (str "Uid") data
  gid := firstValue (str "Gid") data
  groups := firstValue (str "Groups") data
  capEff := firstValue (str "CapEff") data

def Status.complete (s : Status) : Bool :=
  (s.uid.bind effectiveId).isSome && (s.gid.bind effectiveId).isSome

def Status.cred (s : Status) : DACred where
  euid := (s.uid.bind effectiveId).getD 0
  egid := (s.gid.bind effectiveId).getD 0
  groups := (s.groups.map groupIds).getD []
  caps := (s.capEff.bind capabilities).getD 0
  flags := (if s.groups.isSome then DBUSACCESS_CRED_GROUPS else 0) |||
    (if (s.capEff.bind capabilities).isSome then DBUSACCESS_CRED_CAPS else 0)

/-! Words as the parser has them. A buffer may hold zeros, and a word is copied up to
the first one. -/

def cutWords (value : List UInt8) : List CString := (words value).map cStr

/-- The second of four words. -/
def idAmong : List CString → Option UInt32
  | [_, w, _, _] => daCredParseUint32 w
  | _ => none

def capsAmong : List CString → Option UInt64
  | [w] => daCredParseUint64 w
  | _ => none

/-- The reading of the four values when `ws` gives the words of each. -/
def Status.completeWith (ws : List UInt8 → List CString) (s : Status) : Bool :=
  (s.uid.bind fun v => idAmong (ws v)).isSome && (s.gid.bind fun v => idAmong (ws v)).isSome

def Status.credWith (ws : List UInt8 → List CString) (s : Status) : DACred where
  euid := (s.uid.bind fun v => idAmong (ws v)).getD 0
  egid := (s.gid.bind fun v => idAmong (ws v)).getD 0
  groups := (s.groups.map fun v => (ws v).filterMap daCredParseUint32).getD []
  caps := (s.capEff.bind fun v => capsAmong (ws v)).getD 0
  flags := (if s.groups.isSome then DBUSACCESS_CRED_GROUPS else 0) |||
    (if (s.capEff.bind fun v => capsAmong (ws v)).isSome then DBUSACCESS_CRED_CAPS else 0)

/-- The array of groups, allocated for a line with words. -/
def Status.groupsWith (ws : List UInt8 → List CString) (s : Status) : Option (List UInt32) :=
  s.groups.bind fun v => if ws v = [] then none else some ((ws v).filterMap daCredParseUint32)

/-! The integers that words are written for. -/

/-- A sign, if any, and a C integer constant. -/
def denotedId (word : CString) : Option UInt32 :=
  (signed constant word).bind fun z =>
    if 0 ≤ z ∧ z < 2 ^ 32 then some (UInt32.ofNat z.toNat) else none

/-- A sign, if any, and hexadecimal digits. -/
def denotedCaps (word : CString) : Option UInt64 :=
  (signed (numeral 16) word).bind fun z =>
    if 0 ≤ z ∧ z < 2 ^ 64 then some (UInt64.ofNat z.toNat) else none

def secondOfFour : List CString → Option CString
  | [_, w, _, _] => some w
  | _ => none

def onlyWord : List CString → Option CString
  | [w] => some w
  | _ => none

/-- The words that stand for numbers. -/
def Status.uidWord (s : Status) : Option CString := s.uid.bind fun v => secondOfFour (words v)
def Status.gidWord (s : Status) : Option CString := s.gid.bind fun v => secondOfFour (words v)
def Status.groupWords (s : Status) : List CString := (s.groups.map words).getD []
def Status.capsWord (s : Status) : Option CString := s.capEff.bind fun v => onlyWord (words v)

/-- What is stored when `id` and `caps` say which number a word is, if it is any. -/
def Status.read (id : CString → Option UInt32) (caps : CString → Option UInt64) (s : Status) :
    ParseState where
  flags := {
    UID := s.uid.isSome
    GID := s.gid.isSome
    GROUPS := s.groups.isSome
    CAP_EFF := s.capEff.isSome
    UID_OK := (s.uidWord.bind id).isSome
    GID_OK := (s.gidWord.bind id).isSome }
  cred := {
    euid := (s.uidWord.bind id).getD 0
    egid := (s.gidWord.bind id).getD 0
    groups := s.groupWords.filterMap id
    caps := (s.capsWord.bind caps).getD 0
    flags := (if s.groups.isSome then DBUSACCESS_CRED_GROUPS else 0) |||
      (if (s.capsWord.bind caps).isSome then DBUSACCESS_CRED_CAPS else 0) }
  priv := ⟨if s.groupWords = [] then none else some (s.groupWords.filterMap id)⟩

/-- The integer of the word passes the check on 32 bits only after it has wrapped around,
or it has white space in front that does not separate words. -/
def IdMisread (word : CString) : Prop :=
  ∃ z ∈ signed constant (word.dropWhile isBlank),
    |z| < 2 ^ 64 ∧ z % 2 ^ 64 < 2 ^ 32 ∧ (z < 0 ∨ word.dropWhile isBlank ≠ word)

/-- The integer of the word does not fit, or it has such white space or `0x` in front. -/
def CapsMisread (word : CString) : Prop :=
  ∃ z ∈ signed hexadecimal (word.dropWhile isBlank),
    z < 0 ∨ 2 ^ 64 ≤ z ∨ signed (numeral 16) word = none

structure Status.WellRead (s : Status) : Prop where
  uid : ∀ w ∈ s.uidWord, ¬ IdMisread w
  gid : ∀ w ∈ s.gidWord, ¬ IdMisread w
  groups : ∀ w ∈ s.groupWords, ¬ IdMisread w
  caps : ∀ w ∈ s.capsWord, ¬ CapsMisread w

/-! Zeros in the buffer. -/

/-- The text in front of the colon of a line, and that behind it. -/
def splitKey (line : List UInt8) : Option (List UInt8 × List UInt8) :=
  let line := line.dropWhile gAsciiIsspace
  let k := line.takeWhile (· ≠ ch ':')
  match line.drop k.length with
  | [] => none
  | _ :: value => if k.any gAsciiIsspace then none else some (k, value)

/-- In front of the colon there is this key, in any letter case, and more behind a zero. -/
def KeyCut (key : CString) (line : List UInt8) : Prop :=
  ∃ k value, splitKey line = some (k, value) ∧ 0 ∈ k ∧ (cStr k).map toLower = key.map toLower

def Status.numberWords (s : Status) : List CString :=
  s.uidWord.toList ++ s.gidWord.toList ++ s.groupWords ++ s.capsWord.toList

structure NoCuts (data : List UInt8) : Prop where
  /-- No key is cut before there has been a line with it. -/
  keys : ∀ key ∈ [str "Uid", str "Gid", str "Groups", str "CapEff"],
    ∀ line ∈ (data.splitOn (ch '\n')).takeWhile fun line => (keyValue key line).isNone,
      ¬ KeyCut key line
  /-- No word that stands for a number starts with a zero. -/
  words : ∀ w ∈ (Status.ofText data).numberWords, w.head? ≠ some 0

/-! The texts the kernel writes. -/

/-- Ids of a process, real, effective, saved and for file access. -/
structure ProcIds where
  real : UInt32
  effective : UInt32
  saved : UInt32
  fs : UInt32
  deriving DecidableEq

/-- What the four lines are about. -/
structure ProcStatus where
  uids : ProcIds
  gids : ProcIds
  groups : List UInt32
  caps : UInt64
  deriving DecidableEq

def decimalId (id : UInt32) : List UInt8 := decimal id.toNat

def ProcIds.text (ids : ProcIds) : List UInt8 :=
  decimalId ids.real ++ 9 :: (decimalId ids.effective ++ 9 ::
    (decimalId ids.saved ++ 9 :: decimalId ids.fs))

/-- Every id has a space behind it. -/
def groupsText (groups : List UInt32) : List UInt8 :=
  groups.flatMap fun id => decimalId id ++ [ch ' ']

structure CapsText (caps : UInt64) (digits : List UInt8) : Prop where
  length : digits.length = 16
  isDigit : ∀ c ∈ digits, isDigitIn 16 c = true
  value : value 16 digits = caps.toNat

/-- A line with this key, with white space behind the colon. -/
def KeyLine (key value line : List UInt8) : Prop :=
  ∃ blanks : List UInt8, (∀ c ∈ blanks, gAsciiIsspace c = true ∧ c ≠ ch '\n') ∧
    line = key ++ ch ':' :: (blanks ++ value)

/-- A line that does not start with the key and a colon, in any letter case. -/
def NoKey (key line : List UInt8) : Prop :=
  ∀ k v, line.dropWhile gAsciiIsspace = k ++ ch ':' :: v → k.map toLower ≠ key.map toLower

/-- A line that is free to say anything else. -/
structure OtherLine (line : List UInt8) : Prop where
  newline : ch '\n' ∉ line
  zero : 0 ∉ line
  uid : NoKey (str "Uid") line
  gid : NoKey (str "Gid") line
  groups : NoKey (str "Groups") line
  capEff : NoKey (str "CapEff") line

/-- The four lines and any others, in any order. -/
def StatusText (s : ProcStatus) (text : List UInt8) : Prop :=
  ∃ uid gid groups capEff digits lines others,
    KeyLine (str "Uid") s.uids.text uid ∧ KeyLine (str "Gid") s.gids.text gid ∧
    KeyLine (str "Groups") (groupsText s.groups) groups ∧
    KeyLine (str "CapEff") digits capEff ∧ CapsText s.caps digits ∧
    (∀ line ∈ others, OtherLine line) ∧
    List.Perm lines (uid :: gid :: groups :: capEff :: others) ∧
    text = lines.flatMap (· ++ [ch '\n'])

def ProcStatus.cred (s : ProcStatus) : DACred where
  euid := s.uids.effective
  egid := s.gids.effective
  groups := s.groups
  caps := s.caps
  flags := DBUSACCESS_CRED_GROUPS ||| DBUSACCESS_CRED_CAPS

end DbusAccess
