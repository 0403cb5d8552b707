import DbusAccess.Lib.Trace
import DbusAccess.Spec.Status

/-! `dbusaccess_cred.c` once more, with every access to memory. Pointers are positions in
the buffer, and the loops are cut off after so many rounds. -/

namespace DbusAccess

open Trace

inductive Access where
  /-- A read of `data[i]`. -/
  | data (i : ℕ)
  /-- A read of `k[i]`. -/
  | key (k : CString) (i : ℕ)
  /-- A string that is to be read as a number. -/
  | number (str : CString)
  /-- A store to `groups[i]`, in an array of `size`. -/
  | store (i size : ℕ)
  /-- A loop that would go on. -/
  | cutOff
  deriving DecidableEq, Repr

/-- What has to be so for a buffer of `len` bytes. -/
def Access.Ok (len : ℕ) : Access → Prop
  | data i => i < len
  | key k i => i ≤ k.length
  | number str => str ≠ []
  | store i size => i < size
  | cutOff => False

/-- The same without what depends on zeros in the buffer. -/
def Access.Safe (len : ℕ) : Access → Prop
  | data i => i < len
  | key _ _ => True
  | number _ => True
  | store i size => i < size
  | cutOff => False

instance (len : ℕ) : DecidablePred (Access.Ok len)
  | .data i => inferInstanceAs (Decidable (i < len))
  | .key k i => inferInstanceAs (Decidable (i ≤ k.length))
  | .number str => inferInstanceAs (Decidable (str ≠ []))
  | .store i size => inferInstanceAs (Decidable (i < size))
  | .cutOff => inferInstanceAs (Decidable False)

/-- The buffer, and the bytes behind the terminating zeros of the keys. -/
structure Memory where
  data : List UInt8
  behind : CString → ℕ → UInt8

namespace Memory

variable (m : Memory)

def readData (i : ℕ) : Trace Access UInt8 := do
  emit (.data i)
  pure (m.data[i]?.getD 0)

def readKey (key : CString) (i : ℕ) : Trace Access UInt8 := do
  emit (.key key i)
  pure ((key ++ [0])[i]?.getD (m.behind key i))

/-- `while (ptr < end && p(*ptr)) ptr++`, where `end` is `n` bytes away. -/
def skip (p : UInt8 → Bool) : ℕ → ℕ → Trace Access ℕ
  | 0, ptr => pure ptr
  | n + 1, ptr => do
    if p (← m.readData ptr) then skip p n (ptr + 1) else pure ptr

/-- From position `i` of the key on. -/
def gAsciiStrncasecmp (key : CString) (i str : ℕ) : ℕ → Trace Access ℤ
  | 0 => pure 0
  | n + 1 => do
    let c1 ← m.readKey key i
    let c2 ← m.readData str
    if c1 = 0 ∨ c2 = 0 then pure ((c1.toNat : ℤ) - c2.toNat)
    else if toLower c1 ≠ toLower c2 then pure (((toLower c1).toNat : ℤ) - (toLower c2).toNat)
    else gAsciiStrncasecmp key (i + 1) (str + 1) n

def gStrndup (str : ℕ) : ℕ → Trace Access CString
  | 0 => pure []
  | n + 1 => do
    let c ← m.readData str
    if c = 0 then pure []
    else do
      let s ← gStrndup (str + 1) n
      pure (c :: s)

def daCredParseUint32 (str : CString) : Trace Access (Option UInt32) := do
  emit (.number str)
  pure (DbusAccess.daCredParseUint32 str)

def daCredParseUint64 (str : CString) : Trace Access (Option UInt64) := do
  emit (.number str)
  pure (DbusAccess.daCredParseUint64 str)

/-- The words before `eol`. -/
def parseWords (eol : ℕ) : ℕ → ℕ → Trace Access (List CString × ℕ)
  | 0, ptr =>
    if ptr < eol then do
      emit .cutOff
      pure ([], ptr)
    else pure ([], ptr)
  | n + 1, ptr =>
    if ptr < eol then do
      let stop ← m.skip (!gAsciiIsspace ·) (eol - ptr) ptr
      let word ← m.gStrndup ptr (stop - ptr)
      let next ← m.skip gAsciiIsspace (eol - stop) stop
      let (vals, ptr) ← parseWords eol n next
      pure (word :: vals, ptr)
    else pure ([], ptr)

def daCredParseValues (data : ℕ) : Trace Access (List CString × ℕ) := do
  let eol ← m.skip (· ≠ ch '\n') (m.data.length - data) data
  let ptr ← m.skip gAsciiIsspace (eol - data) data
  m.parseWords eol (eol - ptr) ptr

def daCredMatch (key : CString) (str len : ℕ) : Trace Access Bool := do
  if (← m.gAsciiStrncasecmp key 0 str len) = 0 then do
    let c ← m.readKey key len
    pure (c == 0)
  else pure false

def parseUid (s : ParseState) (val : List CString) : Trace Access ParseState :=
  let s := { s with flags.UID := true }
  match val with
  | [_, w, _, _] => do
    match ← daCredParseUint32 w with
    | some uid => pure { s with flags.UID_OK := true, cred.euid := uid }
    | none => pure s
  | _ => pure s

def parseGid (s : ParseState) (val : List CString) : Trace Access ParseState :=
  let s := { s with flags.GID := true }
  match val with
  | [_, w, _, _] => do
    match ← daCredParseUint32 w with
    | some gid => pure { s with flags.GID_OK := true, cred.egid := gid }
    | none => pure s
  | _ => pure s

def storeGroups (size : ℕ) : List CString → List UInt32 → Trace Access (List UInt32)
  | [], groups => pure groups
  | word :: words, groups => do
    match ← daCredParseUint32 word with
    | some g => do
      emit (.store groups.length size)
      storeGroups size words (groups ++ [g])
    | none => storeGroups size words groups

def parseGroups (s : ParseState) (val : List CString) : Trace Access ParseState :=
  let s := { s with flags.GROUPS := true, cred.flags := s.cred.flags ||| DBUSACCESS_CRED_GROUPS }
  if val.length > 0 then do
    let groups ← storeGroups val.length val s.cred.groups
    pure { s with cred.groups := groups, priv.groups := some groups }
  else pure s

def parseCapEff (s : ParseState) (val : List CString) : Trace Access ParseState :=
  let s := { s with flags.CAP_EFF := true }
  match val with
  | [w] => do
    match ← daCredParseUint64 w with
    | some caps => pure { s with
        cred.caps := caps
        cred.flags := s.cred.flags ||| DBUSACCESS_CRED_CAPS }
    | none => pure s
  | _ => pure s

/-- A key is tried until there has been a line with it. -/
def tryKey (seen : Bool) (key : CString) (start keylen : ℕ) : Trace Access Bool :=
  if seen then pure false else m.daCredMatch key start keylen

def parseKey (s : ParseState) (start keylen ptr : ℕ) : Trace Access (ParseState × ℕ) := do
  if ← m.tryKey s.flags.UID (str "Uid") start keylen then do
    let (val, ptr) ← m.daCredParseValues ptr
    let s ← parseUid s val
    pure (s, ptr)
  else if ← m.tryKey s.flags.GID (str "Gid") start keylen then do
    let (val, ptr) ← m.daCredParseValues ptr
    let s ← parseGid s val
    pure (s, ptr)
  else if ← m.tryKey s.flags.GROUPS (str "Groups") start keylen then do
    let (val, ptr) ← m.daCredParseValues ptr
    let s ← parseGroups s val
    pure (s, ptr)
  else if ← m.tryKey s.flags.CAP_EFF (str "CapEff") start keylen then do
    let (val, ptr) ← m.daCredParseValues ptr
    let s ← parseCapEff s val
    pure (s, ptr)
  else pure (s, ptr)

/-- One line, from its first byte that is not a space. -/
def parseLine (s : ParseState) (start : ℕ) : Trace Access (ParseState × ℕ) := do
  let eof := m.data.length
  let ptr ← m.skip (fun c => !gAsciiIsspace c && c != ch ':') (eof - start) start
  if ptr < eof then do
    let (s, ptr) ← if (← m.readData ptr) = ch ':'
      then m.parseKey s start (ptr - start) (ptr + 1)
      else pure (s, ptr)
    let ptr ← m.skip (· ≠ ch '\n') (eof - ptr) ptr
    pure (s, if ptr < eof then ptr + 1 else ptr)
  else pure (s, ptr)

def parseLoop : ℕ → ParseState → ℕ → Trace Access ParseState
  | 0, s, ptr =>
    if ptr < m.data.length ∧ s.flags.ALL = false then do
      emit .cutOff
      pure s
    else pure s
  | n + 1, s, ptr =>
    if ptr < m.data.length ∧ s.flags.ALL = false then do
      let ptr ← m.skip gAsciiIsspace (m.data.length - ptr) ptr
      let (s, ptr) ← if ptr < m.data.length then m.parseLine s ptr else pure (s, ptr)
      parseLoop n s ptr
    else pure s

def daCredParse (cred : DACred) (priv : DACredPriv) :
    Trace Access (Bool × DACred × DACredPriv) := do
  let s ← m.parseLoop m.data.length
    ⟨⟨false, false, false, false, false, false⟩, cred, priv⟩ 0
  pure (s.flags.UID_OK && s.flags.GID_OK, s.cred, s.priv)

end Memory

end DbusAccess
