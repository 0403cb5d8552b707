import DbusAccess.Proofs.SelfShape

/-! The shared instance in every run: who holds it, and when its variables and its timer
are in step. -/

namespace DbusAccess

open Counters Transition

variable {m m' : ProcMemory} {w w' : SelfWorld} {p : ProcId} {priv : DAProcPriv}
  {t : SelfTimer} {count : ProcId → ℕ} {out : SelfOutside} {e : SelfEvent}
  {acts : List SelfEvent} {next : ℕ}

/-- What holds between operations where no count comes round. -/
structure SelfInv (w : SelfWorld) : Prop where
  shape : SelfShape w
  ordered : ProcOrdered w.procs (holders w.procs w.timers)

theorem SelfInv.exec (h : SelfInv w) (hen : countedSelf.enabled w e) (hex : e.exec w = some w') :
    SelfInv w' ∧ SelfStep w e w' := by
  obtain ⟨hshape, hstep⟩ := h.shape.exec hen.1 hex
  exact ⟨⟨hshape, h.ordered.moved hstep.procs hen.2⟩, hstep⟩

theorem selfInv_init : SelfInv .init := by
  refine ⟨selfShape_init, selfShape_init.tallied, ?_, ?_, ?_, ?_, ?_, ?_⟩ <;>
    simp [SelfWorld.init, ProcMemory.init, holders]

theorem self_run_inv (h : Run countedSelf acts w) : SelfInv w :=
  h.invariant selfInv_init fun _ _ _ hinv hen hex => (hinv.exec hen hex).1

/-! What fails. -/

theorem SelfInv.carried (h : SelfInv w) (hp : w.selfShared = some p) :
    ∃ priv, w.procs.heap p = some priv := by
  obtain ⟨t, ht, -, hdata⟩ := h.shape.current (h.shape.shared (by rw [hp]; rfl))
  exact h.ordered.exists_of_pos (holders_pos _ ht (hdata.trans hp))

theorem ProcOrdered.unref_isSome (h : ProcOrdered m count) (hpos : 0 < count p) :
    (daProcUnref m (some p)).isSome = true := by
  obtain ⟨priv, hp⟩ := h.exists_of_pos hpos
  rw [daProcUnref_eq hp fun a => h.array p priv a hp]
  rfl

theorem ProcOrdered.destroy_isSome (h : ProcOrdered w.procs (holders w.procs w.timers))
    (ht : t ∈ w.timers) : (w.gSourceDestroy t).isSome = true := by
  unfold SelfWorld.gSourceDestroy daSelfSharedUnref daSelfUnref
  cases hdata : t.data with
  | none => rfl
  | some p =>
    obtain ⟨procs, hprocs⟩ := Option.isSome_iff_exists.1 (h.unref_isSome (holders_pos _ ht hdata))
    simp [hprocs]

theorem SelfInv.newShared_isSome (h : SelfInv w) (hno : ¬ (SelfEvent.newShared out).faults) :
    ((SelfEvent.newShared out).exec w).isSome = true := by
  cases hp : w.selfShared with
  | none =>
    rw [SelfEvent.exec, daSelfNewShared_eq hp]
    rcases daSelfNew_cases h.shape.tallied.unused out with ⟨-, hfaults⟩ | ⟨-, procs, hnew, -⟩ |
      ⟨-, cred, groups, hnew⟩
    · exact absurd hfaults hno
    · rw [hnew]
      rfl
    · have hpriv : (w.procs.create out.getpid cred groups).heap w.procs.nextProc = _ :=
        Function.update_self ..
      simp [hnew, daProcRef_eq hpriv]
  | some p =>
    obtain ⟨priv, hpriv⟩ := h.carried hp
    rw [daSelfNewShared_again hp hpriv]
    rfl

theorem SelfInv.flush_isSome (h : SelfInv w) : (SelfEvent.flush.exec w).isSome = true := by
  rw [SelfEvent.exec, daSelfFlush]
  split_ifs with hid
  · obtain ⟨t, ht, -⟩ := h.shape.timer_pending hid
    have hdestroy : (SelfWorld.gSourceDestroy { w with selfShared := none } t).isSome = true :=
      ProcOrdered.destroy_isSome h.ordered (timer_mem ht).1
    obtain ⟨w', hw'⟩ := Option.isSome_iff_exists.1 hdestroy
    have ht' : SelfWorld.timer { w with selfShared := none } w.selfSharedTimeoutId = some t := ht
    simp [SelfWorld.gSourceRemove, ht', hw']
  · rfl

theorem SelfInv.exec_isSome (h : SelfInv w) (he : e.enabled w) (hno : ¬ e.faults) :
    (e.exec w).isSome = true := by
  cases e with
  | new out =>
    rw [SelfEvent.exec]
    rcases daSelfNew_cases h.shape.tallied.unused out with ⟨-, hfaults⟩ | ⟨-, procs, hnew, -⟩ |
      ⟨-, cred, groups, hnew⟩
    · exact absurd hfaults hno
    · rw [hnew]
      rfl
    · rw [hnew]
      rfl
  | newShared out => exact h.newShared_isSome hno
  | ref self =>
    cases self with
    | none => rfl
    | some p =>
      obtain ⟨priv, hp⟩ := Option.isSome_iff_exists.1 he
      have hp' : (w.procs.take (some p)).heap p = some priv := hp
      rw [SelfEvent.exec, daSelfRef, SelfWorld.take, daProcRef_eq hp']
      rfl
  | unref self =>
    cases self with
    | none => rfl
    | some p =>
      have hpos : 0 < w.procs.refs p := of_decide_eq_true he
      have hunref := (h.ordered.give (some p)).unref_isSome (hpos.trans_le (Nat.le_add_right ..))
      obtain ⟨procs, hprocs⟩ := Option.isSome_iff_exists.1 hunref
      rw [SelfEvent.exec, daSelfUnref, hprocs]
      rfl
  | flush => exact h.flush_isSome
  | expire id =>
    obtain ⟨t, ht⟩ := Option.isSome_iff_exists.1 he
    have hdestroy : ((daSelfSharedTimeout w t.data).gSourceDestroy t).isSome = true :=
      ProcOrdered.destroy_isSome h.ordered (timer_mem ht).1
    rw [SelfEvent.exec, ht]
    exact hdestroy

/-- An event fails only where the parser leaves its bounds. -/
theorem SelfInv.failure (h : SelfInv w) (he : e.enabled w) (hnone : e.exec w = none) :
    e.faults := by
  by_contra hno
  have hsome := h.exec_isSome he hno
  rw [hnone] at hsome
  cases hsome

/-! The life of an object. -/

/-- An object is there and not finalized, or was finalized once. -/
def ProcMemory.Living (m : ProcMemory) (p : ProcId) : Prop :=
  p < m.nextProc ∧ ((m.heap p).isSome = true ∧ m.finalized p = 0 ∨
    (m.heap p).isSome = false ∧ m.finalized p = 1)

theorem ProcFrame.living (h : ProcFrame m m') (hp : m.Living p) : m'.Living p := by
  obtain ⟨hlt, hlive⟩ := hp
  refine ⟨hlt.trans_le h.nextProc, ?_⟩
  have hobject := h.object p hlt
  grind

theorem ProcOrdered.living (h : ProcOrdered m count) (hp : m.heap p = some priv) :
    m.Living p := by
  have hsome : (m.heap p).isSome = true := by rw [hp]; rfl
  refine ⟨?_, Or.inl ⟨hsome, h.unfinished p (Or.inl hsome)⟩⟩
  by_contra hle
  rw [(h.fresh p (Nat.le_of_not_lt hle)).1] at hp
  cases hp

/-- What a run and its beginnings say of the shared instance and of each object. -/
structure SharedLife (S : System SelfWorld SelfEvent) (acts : List SelfEvent) (w : SelfWorld) :
    Prop where
  shared : ∀ p, w.selfShared = some p → ∃ priv, w.procs.heap p = some priv
  counted : ∀ p priv, w.procs.heap p = some priv →
    priv.refCount = Int32.ofNat (w.procs.refs p + w.carriers p)
  finalized : ∀ before after t p priv, acts = before ++ after → Run S before t →
    t.procs.heap p = some priv →
      w.procs.finalized p = if w.procs.refs p + w.carriers p = 0 then 1 else 0
  removed : w.selfSharedTimeoutId ≠ 0 → (w.timer w.selfSharedTimeoutId).isSome = true

/-- In every run in which no count comes round the shared instance is there, objects are
counted and finalized once, and an event fails only where the parser leaves its bounds. -/
theorem shared_life (acts : List SelfEvent) (w : SelfWorld) (h : Run countedSelf acts w) :
    SharedLife countedSelf acts w ∧ ∀ e : SelfEvent, e.enabled w → e.exec w = none → e.faults := by
  have hinv := self_run_inv h
  refine ⟨⟨fun p hp => hinv.carried hp, fun p priv hp => ?_, ?_, fun hid => ?_⟩,
    fun e => hinv.failure⟩
  · exact hinv.ordered.shown p priv hp
  · rintro before after t p priv rfl ht hp
    have hstart := (self_run_inv ht).ordered.living hp
    obtain ⟨-, hlive⟩ := ht.kept (P := fun w => w.procs.Living p) hstart
      (fun _ _ _ _ hrun hen hex => ((self_run_inv hrun).exec hen hex).2.procs.frame.living) h
    change w.procs.finalized p = if holders w.procs w.timers p = 0 then 1 else 0
    rcases hlive with ⟨hsome, hfin⟩ | ⟨hnone, hfin⟩
    · obtain ⟨priv', hp'⟩ := Option.isSome_iff_exists.1 hsome
      rw [hfin, if_neg (hinv.ordered.live p priv' hp').1.ne']
    · rw [hfin, if_pos (hinv.ordered.freed p (by simpa using hnone))]
  · obtain ⟨t, ht, -⟩ := hinv.shape.timer_pending hid
    rw [ht]
    rfl

/-- A process with status, and one without. -/
def exampleSelf : SelfOutside where
  getpid := 77
  getenv _ := none
  gFileGetContents := exampleFile

def exampleNoSelf : SelfOutside where
  getpid := 77
  getenv _ := none
  gFileGetContents _ := none

/-- The timer of a creation that failed expires while a newer instance is shared. -/
def exampleOrphan : List SelfEvent :=
  [.newShared exampleNoSelf, .newShared exampleSelf, .expire 1, .newShared exampleSelf,
    .unref (some 0), .expire 2]

theorem shared_life_orphan : ∃ w, Run countedSelf exampleOrphan w ∧
    SharedLife countedSelf exampleOrphan w ∧
      ∀ e : SelfEvent, e.enabled w → e.exec w = none → e.faults := by
  obtain ⟨w, hw⟩ := Option.isSome_iff_exists.1 (show
    (countedSelf.replay .init exampleOrphan).isSome = true by decide +kernel)
  have hrun := Run.nil.replay hw
  exact ⟨w, hrun, shared_life _ w hrun⟩

/-- Clients have taken `n` references more. -/
def SelfWorld.granted (w : SelfWorld) (p : ProcId) (priv : DAProcPriv) (n : ℕ) : SelfWorld :=
  { w with
    procs := ProcMemory.setProc
      { w.procs with refs := Function.update w.procs.refs p (w.procs.refs p + n) } p
      { priv with refCount := priv.refCount + Int32.ofNat n } }

theorem SelfWorld.granted_zero (hp : w.procs.heap p = some priv) : w.granted p priv 0 = w := by
  have hcount : priv.refCount + Int32.ofNat 0 = priv.refCount := Int32.add_zero _
  have hself : Function.update w.procs.heap p (some priv) = w.procs.heap := by
    rw [← hp, Function.update_eq_self]
  rw [SelfWorld.granted, hcount, Nat.add_zero, ProcMemory.setProc, hself, Function.update_eq_self]

theorem run_granted (h : Run selfSystem acts w) (hp : w.procs.heap p = some priv) (n : ℕ) :
    Run selfSystem (acts ++ List.replicate n (.ref (some p))) (w.granted p priv n) := by
  refine Run.iterate (w.granted p priv) ((SelfWorld.granted_zero hp).symm ▸ h) n fun k _ => ?_
  have hinc : priv.refCount + Int32.ofNat k + 1 = priv.refCount + Int32.ofNat (k + 1) := by
    rw [Int32.add_assoc, ofNat_inc]
  refine ⟨Option.isSome_iff_exists.2 ⟨_, Function.update_self ..⟩, ?_⟩
  change daSelfRef _ _ = _
  rw [daSelfRef, SelfWorld.take, daProcRef_eq (Function.update_self ..)]
  simp [SelfWorld.granted, ProcMemory.setProc, ProcMemory.take, hinc, Nat.add_assoc]

/-- After `2 ^ 32` references the count shows what it showed before, and giving up two frees
the instance, which stays the shared one. -/
theorem shared_life_fails : ¬ ∀ acts w, Run selfSystem acts w → SharedLife selfSystem acts w := by
  intro hall
  have hex : ((selfSystem.replay .init [.newShared exampleSelf]).bind fun w =>
      (w.procs.heap 0).bind fun priv =>
        (selfSystem.replay (w.granted 0 priv (2 ^ 32)) [.unref (some 0), .unref (some 0)]).map
          fun w' => ((w'.procs.heap 0).isSome, w'.selfShared)) = some (false, some 0) := by
    decide +kernel
  obtain ⟨w, hw, hex⟩ := Option.bind_eq_some_iff.1 hex
  obtain ⟨priv, hp, hex⟩ := Option.bind_eq_some_iff.1 hex
  obtain ⟨w', hw', hex⟩ := Option.map_eq_some_iff.1 hex
  obtain ⟨hheap, hshared⟩ := Prod.mk.inj hex
  have hrun := (run_granted (Run.nil.replay hw) hp (2 ^ 32)).replay hw'
  obtain ⟨priv', hpriv'⟩ := (hall _ w' hrun).shared 0 hshared
  rw [hpriv'] at hheap
  cases hheap

/-! Being in step. -/

/-- What the variables and timers have to do with each other. -/
structure Aligned (w : SelfWorld) : Prop where
  shared : w.selfShared.isSome = true ↔ w.selfSharedTimeoutId ≠ 0
  one : w.timers.length ≤ 1
  carries : ∀ t ∈ w.timers, t.id = w.selfSharedTimeoutId ∧ w.selfShared.isSome = true ∧
    t.data = w.selfShared
  asserts : w.asserts = true

theorem Aligned.timers_nil (h : Aligned w) (hp : w.selfShared = none) : w.timers = [] := by
  rw [List.eq_nil_iff_forall_not_mem]
  intro t ht
  have hsome := (h.carries t ht).2.1
  rw [hp] at hsome
  cases hsome

theorem Aligned.erase_nil (h : Aligned w) (ht : t ∈ w.timers) : w.timers.erase t = [] := by
  rw [← List.length_eq_zero_iff, List.length_erase_of_mem ht]
  have := h.one
  omega

/-- Nothing shared, and no timer. -/
theorem aligned_nil {procs : ProcMemory} : Aligned ⟨procs, none, 0, [], next, true⟩ := by
  constructor <;> simp

theorem Aligned.moved (h : Aligned w) (hshape : SelfShape w) (hs : e.succeeds w)
    (hm : SelfMoved w e w') : Aligned w' := by
  cases hm with
  | client _ procs => exact ⟨h.shared, h.one, h.carries, h.asserts⟩
  | made out procs sec self hp hfinds =>
    have hsome : self.isSome = true := hfinds.2 (hs hp)
    have hid : w.selfSharedTimeoutId = 0 := by
      by_contra hne
      have := h.shared.2 hne
      rw [hp] at this
      cases this
    rw [h.timers_nil hp, h.asserts, hid]
    refine ⟨iff_of_true hsome hshape.positive.ne', le_rfl, ?_, rfl⟩
    intro t ht
    rw [List.mem_singleton.1 ht]
    exact ⟨rfl, hsome, rfl⟩
  | idle hid =>
    have hp : w.selfShared = none := by
      rw [← Option.not_isSome_iff_eq_none, h.shared]
      exact not_not.2 hid
    rw [h.timers_nil hp, h.asserts, hid]
    exact aligned_nil
  | flushed procs t ht hid =>
    rw [h.erase_nil ht, h.asserts]
    exact aligned_nil
  | expired procs t ht =>
    obtain ⟨hid, -, hdata⟩ := h.carries t ht
    have hne : w.selfSharedTimeoutId ≠ 0 := hid ▸ (hshape.ids t ht).1.ne'
    have hasserts :
        (w.asserts && (w.selfSharedTimeoutId != 0) && w.selfShared == t.data) = true := by
      simp [h.asserts, hne, hdata]
    rw [h.erase_nil ht, hasserts]
    exact aligned_nil

/-- Flushing ends the only timer, and with it the only reference of the module. -/
theorem Aligned.inStep (h : Aligned w) (hshape : SelfShape w) : InStep w := by
  refine ⟨h.shared, h.one, h.carries, h.asserts, fun w' hflush => ?_⟩
  obtain ⟨hshape', -, hmoved⟩ := hshape.exec (e := .flush) trivial hflush
  have hp := (flush_step hflush).2
  have halign := h.moved hshape (e := .flush) trivial hmoved
  refine ⟨halign.timers_nil hp, hp, fun p priv hpriv => ?_⟩
  rw [hshape'.tallied.shown p priv hpriv, halign.timers_nil hp]
  rfl

/-- Every step of a run that makes a shared instance finds what it needs. -/
def AllSucceed (acts : List SelfEvent) : Prop :=
  ∀ before e after t, acts = before ++ e :: after → Run selfSystem before t → e.succeeds t

theorem run_aligned (h : Run selfSystem acts w) (hall : AllSucceed acts) : Aligned w := by
  refine h.induct_history (I := fun acts w => AllSucceed acts → Aligned w) (fun _ => aligned_nil)
    ?_ hall
  intro acts w e w' hrun ih hen hex hall
  have hshape := self_run_shape hrun
  have hprev : AllSucceed acts := by
    intro before e' after t hsplit ht
    exact hall before e' (after ++ [e]) t (by rw [hsplit]; simp) ht
  exact (ih hprev).moved hshape (hall acts e [] w rfl hrun) (hshape.exec hen hex).2.moved

/-- A creation that fails leaves the id of a timer without an instance. -/
theorem succeeds_of_inStep (hm : SelfMoved w e w') (hshape : SelfShape w) (h : InStep w') :
    e.succeeds w := by
  cases hm with
  | client _ procs hs => exact hs
  | made out procs sec self hp hfinds =>
    intro _
    exact hfinds.1 (h.shared.2 hshape.positive.ne')
  | idle | flushed | expired => trivial

/-- In every run, all states are in step exactly when every shared instance that is made
is made from a readable file with both ids. -/
theorem inStep_iff_succeeds (acts : List SelfEvent) (w : SelfWorld)
    (h : Run selfSystem acts w) :
    (∀ before after t, acts = before ++ after → Run selfSystem before t → InStep t) ↔
      ∀ before e after t, acts = before ++ e :: after → Run selfSystem before t →
        e.succeeds t := by
  apply Iff.intro
  · intro hall before e after t hsplit ht
    subst hsplit
    rw [← List.singleton_append, ← List.append_assoc] at h
    obtain ⟨t', hrun'⟩ := h.left
    obtain ⟨t2, ht2, hen, hex⟩ := hrun'.snoc_inv
    obtain rfl := ht2.functional ht
    have hshape := self_run_shape ht2
    exact succeeds_of_inStep (hshape.exec hen hex).2.moved hshape (hall _ after t' (by simp) hrun')
  · intro hall before after t hsplit ht
    refine (run_aligned ht ?_).inStep (self_run_shape ht)
    intro before' e after' t' hsplit' ht'
    exact hall before' e (after' ++ after) t' (by rw [hsplit, hsplit']; simp) ht'

theorem inStep_iff_succeeds_orphan : ∃ w, Run selfSystem exampleOrphan w ∧
    ((∀ before after t, exampleOrphan = before ++ after → Run selfSystem before t → InStep t) ↔
      ∀ before e after t, exampleOrphan = before ++ e :: after → Run selfSystem before t →
        e.succeeds t) := by
  obtain ⟨w, hw⟩ := Option.isSome_iff_exists.1 (show
    (selfSystem.replay .init exampleOrphan).isSome = true by decide +kernel)
  have hrun := Run.nil.replay hw
  exact ⟨w, hrun, inStep_iff_succeeds _ w hrun⟩

/-- An assertion fails in the second call after a creation that failed. -/
theorem inStep_fails : ¬ ∀ acts w, Run selfSystem acts w → InStep w := by
  intro hall
  have hex : (selfSystem.replay .init [.newShared exampleNoSelf, .newShared exampleSelf]).map
      SelfWorld.asserts = some false := by
    decide +kernel
  obtain ⟨w, hw, hasserts⟩ := Option.map_eq_some_iff.1 hex
  have hstep := hall _ w (Run.nil.replay hw)
  rw [hstep.asserts] at hasserts
  cases hasserts

end DbusAccess
