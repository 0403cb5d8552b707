import DbusAccess.Spec.Proc

/-! The credentials of the process itself and the shared instance with its timer,
`dbusaccess_self.c`. A failed assertion is recorded, and the function goes on. -/

namespace DbusAccess

open Numerals

/-- A pending timer, with the data of its callback and of its destroy function. -/
structure SelfTimer where
  id : ℕ
  interval : ℕ
  data : Option ProcId
  deriving DecidableEq

/-- The two variables of the module, and its timers in the main loop. An id of zero is
no timer. `asserts` says that no assertion has failed. -/
structure SelfWorld where
  procs : ProcMemory
  selfShared : Option ProcId
  selfSharedTimeoutId : ℕ
  timers : List SelfTimer
  nextTimer : ℕ
  asserts : Bool

def SelfWorld.init : SelfWorld where
  procs := .init
  selfShared := none
  selfSharedTimeoutId := 0
  timers := []
  nextTimer := 1
  asserts := true

def SelfWorld.gAssert (w : SelfWorld) (b : Bool) : SelfWorld :=
  { w with asserts := w.asserts && b }

/-- What the surroundings answer. -/
structure SelfOutside where
  getpid : Int32
  getenv : CString → Option CString
  gFileGetContents : CString → Option (List UInt8)

def DBUSACCESS_SELF_TIMEOUT_SEC : ℕ := 30
def DBUSACCESS_SELF_TIMEOUT_SEC_ENV : CString := str "DBUSACCESS_SELF_TIMEOUT_SEC"

/-- `strtol` with base 10, narrowed to an `int`. -/
def atoi (s : CString) : ℤ :=
  let sign := readSign (s.dropWhile isBlank)
  let n : ℤ := value 10 (sign.2.takeWhile (isDigitIn 10))
  (if sign.1 then max (-n) (-2 ^ 63) else min n (2 ^ 63 - 1)).bmod (2 ^ 32)

def daSelfNew (w : SelfWorld) (out : SelfOutside) : Option (SelfWorld × Option ProcId) := do
  let (procs, self) ← daProcNew w.procs out.getpid out.gFileGetContents
  some ({ w with procs := procs }, self)

def daSelfRef (w : SelfWorld) (self : Option ProcId) : Option SelfWorld := do
  let procs ← daProcRef w.procs self
  some { w with procs := procs }

def daSelfUnref (w : SelfWorld) (self : Option ProcId) : Option SelfWorld := do
  let procs ← daProcUnref w.procs self
  some { w with procs := procs }

def daSelfSharedTimeout (w : SelfWorld) (data : Option ProcId) : SelfWorld :=
  let w := w.gAssert (w.selfSharedTimeoutId != 0)
  let w := w.gAssert (w.selfShared == data)
  { w with selfSharedTimeoutId := 0, selfShared := none }

def daSelfSharedUnref (w : SelfWorld) (data : Option ProcId) : Option SelfWorld :=
  daSelfUnref w data

/-! The main loop. -/

def SelfWorld.timer (w : SelfWorld) (id : ℕ) : Option SelfTimer := w.timers.find? (·.id == id)

def SelfWorld.gTimeoutAddSecondsFull (w : SelfWorld) (sec : ℕ) (data : Option ProcId) :
    SelfWorld × ℕ :=
  ({ w with timers := ⟨w.nextTimer, sec, data⟩ :: w.timers, nextTimer := w.nextTimer + 1 },
    w.nextTimer)

/-- A timer that is destroyed has its data destroyed. -/
def SelfWorld.gSourceDestroy (w : SelfWorld) (t : SelfTimer) : Option SelfWorld :=
  daSelfSharedUnref { w with timers := w.timers.erase t } t.data

/-- Fails for an id that is not in use. -/
def SelfWorld.gSourceRemove (w : SelfWorld) (id : ℕ) : Option SelfWorld := do
  let t ← w.timer id
  w.gSourceDestroy t

/-! The shared instance. -/

/-- How long it stays, unless the environment says otherwise. -/
def SelfOutside.sec (out : SelfOutside) : ℕ :=
  match out.getenv DBUSACCESS_SELF_TIMEOUT_SEC_ENV with
  | some env =>
    let interval := atoi env
    if 0 ≤ interval then interval.toNat else DBUSACCESS_SELF_TIMEOUT_SEC
  | none => DBUSACCESS_SELF_TIMEOUT_SEC

def daSelfNewShared (w : SelfWorld) (out : SelfOutside) :
    Option (SelfWorld × Option ProcId) := do
  let w ← match w.selfShared with
    | some _ => some w
    | none => do
      let w := w.gAssert (w.selfSharedTimeoutId == 0)
      let (w, self) ← daSelfNew w out
      let (w, id) := { w with selfShared := self }.gTimeoutAddSecondsFull out.sec self
      some { w with selfSharedTimeoutId := id }
  let self := w.selfShared
  let w ← daSelfRef w self
  some (w, self)

def daSelfFlush (w : SelfWorld) : Option SelfWorld := do
  let w := { w with selfShared := none }
  if w.selfSharedTimeoutId ≠ 0 then do
    let w ← w.gSourceRemove w.selfSharedTimeoutId
    some { w with selfSharedTimeoutId := 0 }
  else some w

/-! Runs. -/

inductive SelfEvent where
  | new (out : SelfOutside)
  | newShared (out : SelfOutside)
  | ref (self : Option ProcId)
  | unref (self : Option ProcId)
  | flush
  | expire (id : ℕ)

def SelfEvent.enabled (w : SelfWorld) : SelfEvent → Prop
  | .new _ | .newShared _ | .flush => True
  | .ref self => w.procs.valid self = true
  | .unref self => w.procs.owned self = true
  | .expire id => (w.timer id).isSome = true

instance (w : SelfWorld) (e : SelfEvent) : Decidable (e.enabled w) :=
  match e with
  | .new _ | .newShared _ | .flush => .isTrue trivial
  | .ref self => inferInstanceAs (Decidable (w.procs.valid self = true))
  | .unref self => inferInstanceAs (Decidable (w.procs.owned self = true))
  | .expire id => inferInstanceAs (Decidable ((w.timer id).isSome = true))

/-- Clients take what they are given. -/
def SelfWorld.take (w : SelfWorld) (self : Option ProcId) : SelfWorld :=
  { w with procs := w.procs.take self }

def SelfEvent.exec (w : SelfWorld) : SelfEvent → Option SelfWorld
  | .new out => do
    let (w, self) ← daSelfNew w out
    some (w.take self)
  | .newShared out => do
    let (w, self) ← daSelfNewShared w out
    some (w.take self)
  | .ref self => daSelfRef (w.take self) self
  | .unref self => daSelfUnref { w with procs := w.procs.give self } self
  | .flush => daSelfFlush w
  | .expire id => do
    let t ← w.timer id
    -- `G_SOURCE_REMOVE`
    (daSelfSharedTimeout w t.data).gSourceDestroy t

/-- The pending timers that carry an object. -/
def SelfWorld.carriers (w : SelfWorld) (p : ProcId) : ℕ := w.timers.countP (·.data == some p)

/-- The count of an object is an `int`. It has room for `2 ^ 32` references of clients and
timers. -/
def SelfWorld.room (w : SelfWorld) : Option ProcId → Prop
  | some p => w.procs.refs p + w.carriers p < 2 ^ 32
  | none => True

instance (w : SelfWorld) (self : Option ProcId) : Decidable (w.room self) :=
  match self with
  | some p => inferInstanceAs (Decidable (w.procs.refs p + w.carriers p < 2 ^ 32))
  | none => .isTrue trivial

def SelfEvent.fits (w : SelfWorld) : SelfEvent → Prop
  | .newShared _ => w.room w.selfShared
  | .ref self => w.room self
  | _ => True

def selfSystem : Transition.System SelfWorld SelfEvent :=
  ⟨.init, SelfEvent.enabled, SelfEvent.exec⟩

/-- Counts do not come round. -/
def countedSelf : Transition.System SelfWorld SelfEvent := selfSystem.restrict SelfEvent.fits

instance (w : SelfWorld) (e : SelfEvent) : Decidable (selfSystem.enabled w e) :=
  inferInstanceAs (Decidable (e.enabled w))

instance SelfEvent.decidableFits (w : SelfWorld) (e : SelfEvent) : Decidable (e.fits w) :=
  match e with
  | .newShared _ => inferInstanceAs (Decidable (w.room w.selfShared))
  | .ref self => inferInstanceAs (Decidable (w.room self))
  | .new _ | .unref _ | .flush | .expire _ => .isTrue trivial

instance (w : SelfWorld) (e : SelfEvent) : Decidable (countedSelf.enabled w e) :=
  inferInstanceAs (Decidable (e.enabled w ∧ e.fits w))

/-- Reading the status file leaves the bounds of an object. -/
def SelfEvent.faults : SelfEvent → Prop
  | .new out | .newShared out => (ProcEvent.new out.getpid out.gFileGetContents).faults
  | _ => False

/-! What holds of the module between its events. -/

/-- The two variables and the timers belong together. -/
structure InStep (w : SelfWorld) : Prop where
  shared : w.selfShared.isSome = true ↔ w.selfSharedTimeoutId ≠ 0
  one : w.timers.length ≤ 1
  carries : ∀ t ∈ w.timers, t.id = w.selfSharedTimeoutId ∧ w.selfShared.isSome = true ∧
    t.data = w.selfShared
  asserts : w.asserts = true
  flush : ∀ w', daSelfFlush w = some w' → w'.timers = [] ∧ w'.selfShared = none ∧
    ∀ p priv, w'.procs.heap p = some priv → priv.refCount = Int32.ofNat (w'.procs.refs p)

/-- The status file of the process is read, and has both ids. -/
def SelfOutside.finds (out : SelfOutside) : Prop :=
  ∃ data, procFile out.getpid out.gFileGetContents = some data ∧
    (Status.ofText data).completeWith cutWords = true

/-- A new shared instance is made where it can be. -/
def SelfEvent.succeeds (w : SelfWorld) : SelfEvent → Prop
  | .newShared out => w.selfShared = none → out.finds
  | _ => True

end DbusAccess
