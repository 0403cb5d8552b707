import DbusAccess.Spec.PolicyMemory

/-! Threads that share policies. The counts are changed by `g_atomic_int_inc` and
`g_atomic_int_dec_and_test`; checks and finalizations read and free entry by entry, and
other threads may run between any two entries. Compilations are serialised: `getpwnam` and
`getgrnam`, which names go through, answer in a buffer that all threads share. -/

namespace DbusAccess.InMemory

open Separation

variable {σ : Type} (g : GPattern σ)

/-! `dbusaccess_policy.c` in steps. -/

/-- `g_atomic_int_dec_and_test` of the count. -/
def gAtomicIntDecAndTest (policy : Addr) : Prog (Block σ) Bool := do
  let p ← readPolicy policy
  write policy (.policy { p with refCount := p.refCount - 1 })
  pure (decide (p.refCount - 1 = 0))

/-- The arguments of `da_policy_check` behind the policy. -/
structure CheckCall where
  cred : Option DACred
  action : UInt32
  arg : Option CString
  default : DAAccess

def CheckCall.root (call : CheckCall) : Bool := call.cred.any (·.euid == 0)

/-- Where a thread is in `da_policy_check` or, behind the count, in `da_policy_unref`. -/
inductive Phase where
  | idle
  /-- In front of `while (entry)`. -/
  | checking (policy : Addr) (call : CheckCall) (entry : Option Addr) (result : DAAccess)
  | unreferenced (policy : Addr)
  /-- In front of `while (entry)`. -/
  | finalizing (policy : Addr) (entry : Option Addr)

def checkStart (policy : Addr) (call : CheckCall) : Prog (Block σ) Phase :=
  if call.root then pure (.checking policy call none .ALLOW)
  else do
    let p ← readPolicy policy
    pure (.checking policy call p.entries call.default)

/-- One round of the loop of `da_policy_check`. -/
def checkEntry (call : CheckCall) (entry : Addr) (result : DAAccess) :
    Prog (Block σ) (Option Addr × DAAccess) := do
  match entryLinked.view (← read entry) with
  | some (e, next) => do
    let result ← do
      if ← daPolicyExprMatch g ⟨call.cred, call.action, call.arg⟩ e.expr then pure e.access
      else pure result
    pure (next, result)
  | none => failure

/-- One round of the loop of `da_policy_finalize`. -/
def finalizeEntry (entry : Addr) : Prog (Block σ) (Option Addr) := do
  match entryLinked.view (← read entry) with
  | some (e, next) => do
    daPolicyExprFree e.expr
    pure next
  | none => failure

/-- What is left when the expressions are freed. -/
def freePolicy (policy : Addr) : Prog (Block σ) Unit := do
  let p ← readPolicy policy
  let n ← bound
  freeLinks entryLinked (fun b => b.allocation = .gSlice .DAPolicyEntry) n p.entries
  release (.gSlice .DAPolicy) policy

def Phase.step : Phase → Prog (Block σ) Phase
  | .idle => failure
  | .checking policy call (some entry) result => do
    let (entry, result) ← checkEntry g call entry result
    pure (.checking policy call entry result)
  | .checking _ _ none _ => pure .idle
  | .unreferenced policy => do
    let p ← readPolicy policy
    pure (.finalizing policy p.entries)
  | .finalizing policy (some entry) => do
    let entry ← finalizeEntry entry
    pure (.finalizing policy entry)
  | .finalizing policy none => do
    freePolicy policy
    pure .idle

def Phase.steps : ℕ → Phase → Prog (Block σ) Phase
  | 0, ph => pure ph
  | n + 1, ph => do
    let ph ← ph.step g
    ph.steps n

/-! Threads. -/

abbrev ThreadId := ℕ

/-- A reference, and the text that its policy goes back to. -/
structure Reference where
  thread : ThreadId
  policy : Addr
  text : PolicyText

structure Threads (σ : Type) where
  heap : Heap (Block σ)
  refs : List Reference
  phase : ThreadId → Phase

def Threads.init : Threads σ := ⟨.empty, [], fun _ => .idle⟩

def Reference.is (t : ThreadId) (policy : Addr) (r : Reference) : Bool :=
  r.thread == t && r.policy == policy

def Threads.Holds (s : Threads σ) (t : ThreadId) (policy : Addr) : Prop :=
  s.refs.any (Reference.is t policy) = true

inductive ThreadEvent where
  | new (t : ThreadId) (text : PolicyText)
  | ref (t : ThreadId) (policy : Addr)
  | unref (t : ThreadId) (policy : Addr)
  | check (t : ThreadId) (policy : Addr) (call : CheckCall)
  /-- A reference is handed to another thread. -/
  | pass (t t' : ThreadId) (policy : Addr)
  | step (t : ThreadId)

def Phase.isIdle : Phase → Bool
  | .idle => true
  | _ => false

/-- A thread uses what it holds, one call at a time. -/
def ThreadEvent.enabled (s : Threads σ) : ThreadEvent → Prop
  | .new t _ => (s.phase t).isIdle = true
  | .ref t policy | .unref t policy | .check t policy _ | .pass t _ policy =>
    (s.phase t).isIdle = true ∧ s.Holds t policy
  | .step t => (s.phase t).isIdle = false

instance (s : Threads σ) (e : ThreadEvent) : Decidable (e.enabled s) := by
  cases e <;> unfold ThreadEvent.enabled <;> unfold Threads.Holds <;> infer_instance

def Threads.setPhase (s : Threads σ) (t : ThreadId) (ph : Phase) : Threads σ :=
  { s with phase := Function.update s.phase t ph }

/-- A policy is compiled in one step: nobody else knows its blocks, and nobody else compiles
meanwhile, so that the names are looked up as by a thread alone. -/
def ThreadEvent.exec (host : Host) (s : Threads σ) : ThreadEvent → Option (Threads σ)
  | .new t text => do
    let (policy, heap) ← daPolicyNewFull g host text.spec text.actions s.heap
    match policy with
    | some a => some { s with heap := heap, refs := ⟨t, a, text⟩ :: s.refs }
    | none => some { s with heap := heap }
  | .ref t policy => do
    let (_, heap) ← daPolicyRef (some policy) s.heap
    let r ← s.refs.find? (Reference.is t policy)
    some { s with heap := heap, refs := r :: s.refs }
  | .unref t policy => do
    let (zero, heap) ← gAtomicIntDecAndTest policy s.heap
    let s := { s with heap := heap, refs := s.refs.eraseP (Reference.is t policy) }
    some (if zero then s.setPhase t (.unreferenced policy) else s)
  | .check t policy call => do
    let (ph, heap) ← checkStart policy call s.heap
    some ({ s with heap := heap }.setPhase t ph)
  | .pass t t' policy => do
    let r ← s.refs.find? (Reference.is t policy)
    some { s with refs := { r with thread := t' } :: s.refs.eraseP (Reference.is t policy) }
  | .step t => do
    let (ph, heap) ← (s.phase t).step g s.heap
    some ({ s with heap := heap }.setPhase t ph)

/-- The count of a policy is an `int`. It has room for `2 ^ 32` references. -/
def ThreadEvent.fits (s : Threads σ) : ThreadEvent → Prop
  | .ref _ policy => (s.refs.map Reference.policy).count policy < 2 ^ 32
  | _ => True

instance ThreadEvent.decidableFits (s : Threads σ) (e : ThreadEvent) : Decidable (e.fits s) := by
  cases e <;> unfold ThreadEvent.fits <;> infer_instance

def threadSystem (host : Host) : Transition.System (Threads σ) ThreadEvent :=
  ⟨.init, ThreadEvent.enabled, ThreadEvent.exec g host⟩

/-- Counts do not come round. -/
def countedThreads (host : Host) : Transition.System (Threads σ) ThreadEvent :=
  (threadSystem g host).restrict ThreadEvent.fits

instance (host : Host) (s : Threads σ) (e : ThreadEvent) :
    Decidable ((threadSystem g host).enabled s e) :=
  inferInstanceAs (Decidable (e.enabled s))

instance (host : Host) (s : Threads σ) (e : ThreadEvent) :
    Decidable ((countedThreads g host).enabled s e) :=
  inferInstanceAs (Decidable (e.enabled s ∧ e.fits s))

def Phase.policy : Phase → Option Addr
  | .idle => none
  | .checking a _ _ _ | .unreferenced a | .finalizing a _ => some a

def Phase.destroys (policy : Addr) : Phase → Bool
  | .unreferenced a | .finalizing a _ => a == policy
  | .idle | .checking _ _ _ _ => false

def ThreadEvent.isStep (t : ThreadId) : ThreadEvent → Bool
  | .step t' => t' == t
  | _ => false

/-- After the run, and as long as these actions go on, the thread is in one call. -/
def InCall (host : Host) (t : ThreadId) (acts acts' : List ThreadEvent) : Prop :=
  ∀ before e after s, acts' = before ++ e :: after →
    Transition.Run (countedThreads g host) (acts ++ before) s → (s.phase t).isIdle = false

/-- When the others do nothing, the steps of a call change the memory as the function does,
and come to its result. -/
structure Alone (host : Host) (s : Threads σ) (t : ThreadId) (policy : Addr) : Prop where
  check : ∀ call result heap,
    daPolicyCheck g (some policy) call.cred call.action call.arg call.default s.heap =
      some (result, heap) →
    ∃ n s', (threadSystem g host).replay s (.check t policy call :: .replicate n (.step t)) =
      some s' ∧ s'.heap = heap ∧ s'.phase t = .checking policy call none result
  unref : ∀ heap, daPolicyUnref (some policy) s.heap = some ((), heap) →
    ∃ n s', (threadSystem g host).replay s (.unref t policy :: .replicate n (.step t)) =
      some s' ∧ s'.heap = heap ∧ s'.phase t = .idle

/-- Nothing that a thread may do fails, whatever the others are doing. Policies are counted,
destroyed by one thread when nobody has a reference, checked as their texts say, and nothing
stays behind. A call ends after a number of its own steps that does not depend on what the
others do. -/
structure ThreadsSafe (host : Host) (acts : List ThreadEvent) (s : Threads σ) : Prop where
  runs : ∀ e : ThreadEvent, e.enabled s → ∃ s', e.exec g host s = some s'
  counted : ∀ r ∈ s.refs, ∃ p, s.heap.blocks.lookup r.policy =
    some (.policy ⟨.ofNat ((s.refs.map Reference.policy).count r.policy), p⟩)
  alone : ∀ t t' policy, (s.phase t).destroys policy = true →
    (s.phase t').destroys policy = true → t = t' ∧ ∀ r ∈ s.refs, r.policy ≠ policy
  returns : ∀ t a call result, s.phase t = .checking a call none result → ∃ r ∈ s.refs,
    r.thread = t ∧ r.policy = a ∧ ∃ policy,
      DbusAccess.daPolicyNewFull g host r.text.spec r.text.actions = some policy ∧
      result = DbusAccess.daPolicyCheck g (some policy) call.cred call.action call.arg call.default
  finishes : ∀ t, ∃ n, ∀ acts' s', Transition.Run (countedThreads g host) (acts ++ acts') s' →
    InCall g host t acts acts' → acts'.countP (ThreadEvent.isStep t) ≤ n ∧
      (s'.phase t = .idle ↔ acts'.countP (ThreadEvent.isStep t) = n)
  sequential : ∀ t policy, (s.phase t).isIdle = true → s.Holds t policy → Alone g host s t policy
  released : s.refs = [] → (∀ t, s.phase t = .idle) → s.heap.blocks = ∅

end DbusAccess.InMemory
