import DbusAccess.Lib.Numerals
import DbusAccess.Spec.Types

/-! Reading credentials from the text of a status file, `dbusaccess_cred.c`.
A pointer into the buffer is what is left of the buffer from there on. Accesses
that can leave their object fail with a `MemFault`. -/

namespace DbusAccess

open Numerals

inductive MemFault where
  /-- A read behind the terminating zero of a key. -/
  | keyRead
  /-- A store behind the end of the group array. -/
  | groupWrite
  deriving DecidableEq, Repr

/-- `gid_t *groups`: the ids stored in the allocated array so far. -/
structure DACredPriv where
  groups : Option (List UInt32)
  deriving DecidableEq, Repr

/-- The bits of `flags`, the `PROC_PARSE_` constants. -/
structure ProcParse where
  UID : Bool
  GID : Bool
  GROUPS : Bool
  CAP_EFF : Bool
  UID_OK : Bool
  GID_OK : Bool
  deriving DecidableEq, Repr

def ProcParse.ALL (flags : ProcParse) : Bool :=
  flags.UID && flags.GID && flags.GROUPS && flags.CAP_EFF

/-- No `\v` among them. -/
def gAsciiIsspace (c : UInt8) : Bool := c == ch ' ' || c == 9 || c == 10 || c == 12 || c == 13

def toLower (c : UInt8) : UInt8 := if ch 'A' ≤ c ∧ c ≤ ch 'Z' then c + 32 else c

/-- Zero ends either string before `n` bytes are compared. -/
def gAsciiStrncasecmp : List UInt8 → List UInt8 → ℕ → ℤ
  | _, _, 0 => 0
  | [], s2, _ + 1 => 0 - ((s2.head?.getD 0).toNat : ℤ)
  | c1 :: _, [], _ + 1 => c1.toNat
  | c1 :: s1, c2 :: s2, n + 1 =>
    if c1 = 0 ∨ c2 = 0 then (c1.toNat : ℤ) - c2.toNat
    else if toLower c1 ≠ toLower c2 then ((toLower c1).toNat : ℤ) - (toLower c2).toNat
    else gAsciiStrncasecmp s1 s2 n

def daCredParseUint32 (str : CString) : Option UInt32 :=
  let n := strtoull 0 str
  if n.rest = [] then
    let val32 := UInt32.ofNat n.value
    if val32.toNat = n.value then some val32 else none
  else none

def daCredParseUint64 (str : CString) : Option UInt64 :=
  let n := strtoull 16 str
  if n.rest = [] then some (UInt64.ofNat n.value) else none

/-- The words of a line that starts with one; `g_strndup` copies up to a zero. -/
def parseWords : ℕ → List UInt8 → List CString
  | 0, _ => []
  | _ + 1, [] => []
  | n + 1, c :: ptr =>
    cStr ((c :: ptr).takeWhile (!gAsciiIsspace ·)) ::
      parseWords n (((c :: ptr).dropWhile (!gAsciiIsspace ·)).dropWhile gAsciiIsspace)

/-- The words up to the end of the line, and the end of the line. -/
def daCredParseValues (data : List UInt8) : List CString × List UInt8 :=
  let line := data.takeWhile (· ≠ ch '\n')
  (parseWords line.length (line.dropWhile gAsciiIsspace), data.dropWhile (· ≠ ch '\n'))

def daCredMatch (key : CString) (str : List UInt8) (len : ℕ) : Except MemFault Bool :=
  if gAsciiStrncasecmp key str len = 0 then
    match (key ++ [0])[len]? with
    | some c => .ok (c == 0)
    | none => .error .keyRead
  else .ok false

/-- `priv->groups[cred->ngroups++]` for every valid word, in an array of `size`. -/
def storeGroups (size : ℕ) : List CString → List UInt32 → Except MemFault (List UInt32)
  | [], groups => .ok groups
  | word :: words, groups =>
    match daCredParseUint32 word with
    | some g => if groups.length < size then storeGroups size words (groups ++ [g])
        else .error .groupWrite
    | none => storeGroups size words groups

/-- The variables of the loop. -/
structure ParseState where
  flags : ProcParse
  cred : DACred
  priv : DACredPriv
  deriving DecidableEq, Repr

/-- The values of a line with one of the keys, from behind its `:`. -/
def parseUid (s : ParseState) (val : List CString) : ParseState :=
  let s := { s with flags.UID := true }
  match val with
  | [_, w, _, _] =>
    match daCredParseUint32 w with
    | some uid => { s with flags.UID_OK := true, cred.euid := uid }
    | none => s
  | _ => s

def parseGid (s : ParseState) (val : List CString) : ParseState :=
  let s := { s with flags.GID := true }
  match val with
  | [_, w, _, _] =>
    match daCredParseUint32 w with
    | some gid => { s with flags.GID_OK := true, cred.egid := gid }
    | none => s
  | _ => s

def parseGroups (s : ParseState) (val : List CString) : Except MemFault ParseState :=
  let s := { s with flags.GROUPS := true, cred.flags := s.cred.flags ||| DBUSACCESS_CRED_GROUPS }
  if val.length > 0 then do
    let groups ← storeGroups val.length val s.cred.groups
    .ok { s with cred.groups := groups, priv.groups := some groups }
  else .ok s

def parseCapEff (s : ParseState) (val : List CString) : ParseState :=
  let s := { s with flags.CAP_EFF := true }
  match val with
  | [w] =>
    match daCredParseUint64 w with
    | some caps =>
      { s with cred.caps := caps, cred.flags := s.cred.flags ||| DBUSACCESS_CRED_CAPS }
    | none => s
  | _ => s

/-- The keys in the order they are tried, behind a key of length `keylen` at `start`. -/
def parseKey (s : ParseState) (start : List UInt8) (keylen : ℕ) (ptr : List UInt8) :
    Except MemFault (ParseState × List UInt8) := do
  if ← (if s.flags.UID then .ok false else daCredMatch (str "Uid") start keylen) then
    let (val, ptr) := daCredParseValues ptr
    return (parseUid s val, ptr)
  else if ← (if s.flags.GID then .ok false else daCredMatch (str "Gid") start keylen) then
    let (val, ptr) := daCredParseValues ptr
    return (parseGid s val, ptr)
  else if ← (if s.flags.GROUPS then .ok false else daCredMatch (str "Groups") start keylen) then
    let (val, ptr) := daCredParseValues ptr
    return (← parseGroups s val, ptr)
  else if ← (if s.flags.CAP_EFF then .ok false else daCredMatch (str "CapEff") start keylen) then
    let (val, ptr) := daCredParseValues ptr
    return (parseCapEff s val, ptr)
  else
    return (s, ptr)

/-- One line, from its first byte that is not a space. -/
def parseLine (s : ParseState) (start : List UInt8) :
    Except MemFault (ParseState × List UInt8) := do
  let key := start.takeWhile fun c => !gAsciiIsspace c && c != ch ':'
  let (s, ptr) ← match start.drop key.length with
    | [] => Except.ok (s, [])
    | c :: ptr => if c = ch ':' then parseKey s start key.length ptr else .ok (s, c :: ptr)
  -- to the end of the line, and behind it
  .ok (s, (ptr.dropWhile (· ≠ ch '\n')).tail)

/-- The loop over the lines, at most `n` of them. -/
def parseLoop : ℕ → ParseState → List UInt8 → Except MemFault ParseState
  | 0, s, _ => .ok s
  | _ + 1, s, [] => .ok s
  | n + 1, s, c :: ptr =>
    if s.flags.ALL then .ok s
    else match (c :: ptr).dropWhile gAsciiIsspace with
      | [] => .ok s
      | start => do
        let (s, ptr) ← parseLine s start
        parseLoop n s ptr

/-- Every line takes a byte at least. -/
def daCredParse (cred : DACred) (priv : DACredPriv) (data : List UInt8) :
    Except MemFault (Bool × DACred × DACredPriv) := do
  let s ← parseLoop data.length ⟨⟨false, false, false, false, false, false⟩, cred, priv⟩ data
  .ok (s.flags.UID_OK && s.flags.GID_OK, s.cred, s.priv)

end DbusAccess
