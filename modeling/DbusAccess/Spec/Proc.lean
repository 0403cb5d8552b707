import DbusAccess.Spec.Peer
import DbusAccess.Spec.Status

/-! Credentials of a process, `dbusaccess_proc.c`. Memory is explicit: a pointer to an
object, or to an array of groups, is the number of its allocation, which is never used
again. Access to freed memory fails. -/

namespace DbusAccess

open Numerals

abbrev ProcId := ℕ
abbrev ArrayId := ℕ

/-- `struct da_proc`. -/
structure DAProc where
  pid : Int32
  cred : DACred
  deriving DecidableEq

/-- `groups` is what its `DACredPriv` points at. -/
structure DAProcPriv where
  pub : DAProc
  groups : Option ArrayId
  refCount : Int32
  deriving DecidableEq

/-- The blocks that are allocated. `refs` counts the references that clients hold, and
`finalized` the calls of `da_proc_finalize`. -/
structure ProcMemory where
  heap : ProcId → Option DAProcPriv
  arrays : ArrayId → Option (List UInt32)
  nextProc : ℕ
  nextArray : ℕ
  refs : ProcId → ℕ
  finalized : ProcId → ℕ

def ProcMemory.init : ProcMemory where
  heap _ := none
  arrays _ := none
  nextProc := 0
  nextArray := 0
  refs _ := 0
  finalized _ := 0

def ProcMemory.setProc (m : ProcMemory) (p : ProcId) (priv : DAProcPriv) : ProcMemory :=
  { m with heap := Function.update m.heap p (some priv) }

/-! Allocation. -/

def gSliceNew0 (m : ProcMemory) : ProcMemory × ProcId :=
  ({ m with
      heap := Function.update m.heap m.nextProc (some ⟨⟨0, .zero⟩, none, 0⟩)
      nextProc := m.nextProc + 1 }, m.nextProc)

def gSliceFree (m : ProcMemory) (p : ProcId) : Option ProcMemory := do
  let _ ← m.heap p
  some { m with heap := Function.update m.heap p none }

/-- `g_new` for the groups of a line with words. -/
def gNew (m : ProcMemory) : Option (List UInt32) → ProcMemory × Option ArrayId
  | some ids =>
    ({ m with
        arrays := Function.update m.arrays m.nextArray (some ids)
        nextArray := m.nextArray + 1 }, some m.nextArray)
  | none => (m, none)

def gFree (m : ProcMemory) (a : ArrayId) : Option ProcMemory := do
  let _ ← m.arrays a
  some { m with arrays := Function.update m.arrays a none }

/-! Objects. -/

/-- `da_cred_parse` into a cleared object. -/
def daProcParse (m : ProcMemory) (p : ProcId) (data : List UInt8) :
    Option (ProcMemory × Bool) := do
  let priv ← m.heap p
  match daCredParse priv.pub.cred ⟨none⟩ data with
  | .ok (ok, cred, credPriv) =>
    let (m, groups) := gNew m credPriv.groups
    some (m.setProc p { priv with pub.cred := cred, groups := groups }, ok)
  | .error _ => none

def daProcNew (m : ProcMemory) (pid : Int32)
    (gFileGetContents : CString → Option (List UInt8)) : Option (ProcMemory × Option ProcId) :=
  if pid ≠ 0 then
    match gFileGetContents (statusFile pid.toUInt32) with
    | some data => do
      let (m, p) := gSliceNew0 m
      let priv ← m.heap p
      let (m, ok) ← daProcParse (m.setProc p { priv with refCount := 1 }) p data
      if ok then do
        let priv ← m.heap p
        some (m.setProc p { priv with pub.pid := pid }, some p)
      else do
        let m ← gSliceFree m p
        some (m, none)
    | none => some (m, none)
  else some (m, none)

/-- `da_cred_priv_cleanup`. -/
def daProcCleanup (m : ProcMemory) (p : ProcId) : Option ProcMemory := do
  let priv ← m.heap p
  match priv.groups with
  | some a => do
    let m ← gFree m a
    some (m.setProc p { priv with groups := none })
  | none => some m

def daProcFinalize (m : ProcMemory) (p : ProcId) : Option ProcMemory :=
  daProcCleanup { m with finalized := Function.update m.finalized p (m.finalized p + 1) } p

def daProcRef (m : ProcMemory) (proc : Option ProcId) : Option ProcMemory :=
  match proc with
  | some p => do
    let priv ← m.heap p
    some (m.setProc p { priv with refCount := priv.refCount + 1 })
  | none => some m

def daProcUnref (m : ProcMemory) (proc : Option ProcId) : Option ProcMemory :=
  match proc with
  | some p => do
    let priv ← m.heap p
    let m := m.setProc p { priv with refCount := priv.refCount - 1 }
    if priv.refCount - 1 = 0 then do
      let m ← daProcFinalize m p
      gSliceFree m p
    else some m
  | none => some m

/-! Runs. -/

/-- A client has one reference more, or one less. -/
def ProcMemory.take (m : ProcMemory) : Option ProcId → ProcMemory
  | some p => { m with refs := Function.update m.refs p (m.refs p + 1) }
  | none => m

def ProcMemory.give (m : ProcMemory) : Option ProcId → ProcMemory
  | some p => { m with refs := Function.update m.refs p (m.refs p - 1) }
  | none => m

/-- A valid pointer, and one whose reference a client can give up. -/
def ProcMemory.valid (m : ProcMemory) : Option ProcId → Bool
  | some p => (m.heap p).isSome
  | none => true

def ProcMemory.owned (m : ProcMemory) : Option ProcId → Bool
  | some p => 0 < m.refs p
  | none => true

inductive ProcEvent where
  | new (pid : Int32) (gFileGetContents : CString → Option (List UInt8))
  | ref (proc : Option ProcId)
  | unref (proc : Option ProcId)

def ProcEvent.enabled (m : ProcMemory) : ProcEvent → Prop
  | .new _ _ => True
  | .ref proc => m.valid proc = true
  | .unref proc => m.owned proc = true

instance (m : ProcMemory) (e : ProcEvent) : Decidable (e.enabled m) :=
  match e with
  | .new _ _ => .isTrue trivial
  | .ref proc => inferInstanceAs (Decidable (m.valid proc = true))
  | .unref proc => inferInstanceAs (Decidable (m.owned proc = true))

def ProcEvent.exec (m : ProcMemory) : ProcEvent → Option ProcMemory
  | .new pid file => do
    let (m, proc) ← daProcNew m pid file
    some (m.take proc)
  | .ref proc => daProcRef (m.take proc) proc
  | .unref proc => daProcUnref (m.give proc) proc

/-- The count of an object is an `int`. It has room for `2 ^ 32` references. -/
def ProcEvent.fits (m : ProcMemory) : ProcEvent → Prop
  | .ref (some p) => m.refs p < 2 ^ 32
  | _ => True

def procSystem : Transition.System ProcMemory ProcEvent :=
  ⟨.init, ProcEvent.enabled, ProcEvent.exec⟩

/-- Counts do not come round. -/
def countedProcs : Transition.System ProcMemory ProcEvent := procSystem.restrict ProcEvent.fits

instance (m : ProcMemory) (e : ProcEvent) : Decidable (procSystem.enabled m e) :=
  inferInstanceAs (Decidable (e.enabled m))

instance ProcEvent.decidableFits (m : ProcMemory) (e : ProcEvent) : Decidable (e.fits m) :=
  match e with
  | .ref (some p) => inferInstanceAs (Decidable (m.refs p < 2 ^ 32))
  | .ref none | .new _ _ | .unref _ => .isTrue trivial

instance (m : ProcMemory) (e : ProcEvent) : Decidable (countedProcs.enabled m e) :=
  inferInstanceAs (Decidable (e.enabled m ∧ e.fits m))

/-! What `da_proc_new` finds. -/

/-- The status file that is read. -/
def procFile (pid : Int32) (gFileGetContents : CString → Option (List UInt8)) :
    Option (List UInt8) :=
  if pid ≠ 0 then gFileGetContents (statusFile pid.toUInt32) else none

/-- Reading leaves the bounds of an object. -/
def ProcEvent.faults : ProcEvent → Prop
  | .new pid file =>
    ∃ data fault, procFile pid file = some data ∧ daCredParse .zero ⟨none⟩ data = .error fault
  | _ => False

/-- The text has both ids, or no line of groups with words. -/
def tidyText (data : List UInt8) : Bool :=
  (Status.ofText data).completeWith cutWords ||
    ((Status.ofText data).groupsWith cutWords).isNone

def ProcEvent.tidy : ProcEvent → Prop
  | .new pid file => ∀ data, procFile pid file = some data → tidyText data = true
  | _ => True

/-- The arrays that are allocated are those of objects that clients hold. -/
def ArraysHeld (m : ProcMemory) : Prop :=
  ∀ a, (m.arrays a).isSome = true ↔
    ∃ p priv, 0 < m.refs p ∧ m.heap p = some priv ∧ priv.groups = some a

end DbusAccess
