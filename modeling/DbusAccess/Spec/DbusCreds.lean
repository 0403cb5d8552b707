import DbusAccess.Spec.Peer

/-! The tool `dbus-creds`: what it prints about the peer with a name, and the calls of the
library that it makes. Messages of the log are left out. -/

namespace DbusAccess

open Numerals

/-- `%d` of an `int`. -/
def percentD (z : ℤ) : CString := if z < 0 then ch '-' :: decimal z.natAbs else decimal z.natAbs

/-- `%d` of an unsigned id of 32 bits. -/
def percentDId (id : UInt32) : CString := percentD (toInt id.toNat)

def RET_OK : ℕ := 0
def RET_NOTFOUND : ℕ := 1

structure App where
  bus : DABus
  name : CString

/-- `buf` after the loop over the groups. -/
def groupsBuf (groups : List UInt32) : CString :=
  groups.foldl
    (fun buf id => (if 0 < buf.length then buf ++ [ch ' '] else buf) ++ percentDId id) []

def printIds (peer : DAPeer) : CString :=
  str "Pid: " ++ percentD peer.pid ++ str "\n" ++
  (str "Uid: " ++ percentDId peer.cred.euid ++ str "\n") ++
  (str "Gid: " ++ percentDId peer.cred.egid ++ str "\n")

def printGroups (cred : DACred) : CString :=
  if cred.flags &&& DBUSACCESS_CRED_GROUPS ≠ 0 then
    str "Groups: " ++ groupsBuf cred.groups ++ str "\n"
  else []

/-- `0x%016llx`. -/
def printCaps (cred : DACred) : CString :=
  if cred.flags &&& DBUSACCESS_CRED_CAPS ≠ 0 then
    str "Caps: 0x" ++ fixedWidth 16 16 cred.caps.toNat ++ str "\n"
  else []

def report (peer : DAPeer) : CString := printIds peer ++ printGroups peer.cred ++ printCaps peer.cred

structure AppResult where
  stdout : CString
  exit : ℕ
  asserts : Bool
  deriving DecidableEq

/-- `GASSERT` of a second request, which only a debug build makes. -/
def gAssertSame (debug : Bool) (w : World) (app : App) (p : PeerId) (out : Outside) :
    Option (World × Bool) :=
  if debug then (daPeerGet w app.bus (some app.name) out).map fun r => (r.1, r.2 == some p)
  else some (w, true)

/-- `out` answers the first request and `out'` the second. Ids that belong to no allocated
array cannot be read. -/
def appRun (debug : Bool) (w : World) (app : App) (out out' : Outside) :
    Option (World × AppResult) := do
  let (w, peer) ← daPeerGet w app.bus (some app.name) out
  match peer with
  | some p => do
    let priv ← w.heap p
    let ids := printIds priv.pub
    let (w, asserts) ← gAssertSame debug w app p out'
    let priv ← w.heap p
    if priv.pub.cred.groups ≠ [] ∧ w.groups p = false then none
    else do
      let text := ids ++ printGroups priv.pub.cred ++ printCaps priv.pub.cred
      let w ← daPeerFlush w app.bus (some app.name)
      some (w, ⟨text, RET_OK, asserts⟩)
  | none => some (w, ⟨[], RET_NOTFOUND, true⟩)

/-- What a report is about. -/
structure Reported where
  pid : ℤ
  euid : UInt32
  egid : UInt32
  groups : Option (List UInt32)
  caps : Option UInt64
  deriving DecidableEq

def DAPeer.reported (peer : DAPeer) : Reported where
  pid := peer.pid
  euid := peer.cred.euid
  egid := peer.cred.egid
  groups := if peer.cred.flags &&& DBUSACCESS_CRED_GROUPS ≠ 0 then some peer.cred.groups else none
  caps := if peer.cred.flags &&& DBUSACCESS_CRED_CAPS ≠ 0 then some peer.cred.caps else none

end DbusAccess
