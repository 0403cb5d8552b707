import DbusAccess.Proofs.ProcMemory
import DbusAccess.Spec.SelfShared

/-! The shared instance in every state that runs reach, also after a count has come round:
what an event does to the objects, the variables and the timers. -/

namespace DbusAccess

open Transition

variable {m m' m'' : ProcMemory} {w w' : SelfWorld} {p : ProcId} {priv : DAProcPriv}
  {t : SelfTimer} {timers : List SelfTimer} {count count' : ProcId → ℕ} {out : SelfOutside}
  {e : SelfEvent} {acts : List SelfEvent} {fits : Prop} {self : Option ProcId}

/-! What happens to objects that exist already. -/

/-- Each stays as it is, or is finalized while it is there. -/
structure ProcFrame (m m' : ProcMemory) : Prop where
  nextProc : m.nextProc ≤ m'.nextProc
  object : ∀ p < m.nextProc,
    (m'.heap p).isSome = (m.heap p).isSome ∧ m'.finalized p = m.finalized p ∨
    (m.heap p).isSome = true ∧ (m'.heap p).isSome = false ∧ m'.finalized p = m.finalized p + 1

theorem ProcFrame.refl (m : ProcMemory) : ProcFrame m m := ⟨le_rfl, fun _ _ => Or.inl ⟨rfl, rfl⟩⟩

theorem ProcFrame.trans (h : ProcFrame m m') (h' : ProcFrame m' m'') : ProcFrame m m'' := by
  refine ⟨h.nextProc.trans h'.nextProc, fun p hp => ?_⟩
  have h1 := h.object p hp
  have h2 := h'.object p (hp.trans_le h.nextProc)
  grind

theorem procFrame_ref (hp : m.heap p = some priv) (n : Int32) :
    ProcFrame m (m.setProc p { priv with refCount := n }) := by
  refine ⟨le_rfl, fun q _ => Or.inl ⟨?_, rfl⟩⟩
  simp only [ProcMemory.setProc, Function.update_apply]
  split_ifs with hq
  · rw [hq, hp]
    rfl
  · rfl

theorem procFrame_release (hp : m.heap p = some priv) : ProcFrame m (m.release p priv) := by
  unfold ProcMemory.release
  split_ifs with hr
  · refine ⟨le_rfl, fun q _ => ?_⟩
    simp only [ProcMemory.free, Function.update_apply]
    grind
  · exact procFrame_ref hp _

theorem procFrame_create (m : ProcMemory) (pid : Int32) (cred : DACred)
    (groups : Option (List UInt32)) : ProcFrame m (m.create pid cred groups) := by
  refine ⟨Nat.le_succ _, fun q hq => Or.inl ⟨?_, ?_⟩⟩
  · exact congrArg Option.isSome (Function.update_of_ne hq.ne ..)
  · cases groups <;> rfl

theorem procFrame_abandon (m : ProcMemory) (groups : Option (List UInt32)) :
    ProcFrame m (m.abandon groups) := by
  refine ⟨Nat.le_succ _, fun q _ => Or.inl ?_⟩
  cases groups <;> exact ⟨rfl, rfl⟩

/-! Holders. -/

/-- The references to each object: those of clients, and those of timers. -/
def holders (m : ProcMemory) (timers : List SelfTimer) (p : ProcId) : ℕ :=
  m.refs p + timers.countP (·.data == some p)

theorem holders_take (m : ProcMemory) (timers : List SelfTimer) (p : ProcId) :
    holders (m.take (some p)) timers =
      Function.update (holders m timers) p (holders m timers p + 1) := by
  funext q
  simp only [holders, ProcMemory.take_refs, Function.update_apply]
  split_ifs with hq
  · rw [hq]
    omega
  · rfl

theorem holders_give (m : ProcMemory) (timers : List SelfTimer) (hp : 0 < m.refs p) :
    holders (m.give (some p)) timers =
      Function.update (holders m timers) p (holders m timers p - 1) := by
  funext q
  simp only [holders, ProcMemory.give_refs, Function.update_apply]
  split_ifs with hq
  · rw [hq]
    omega
  · rfl

theorem holders_cons (m : ProcMemory) (timers : List SelfTimer) (ht : t.data = some p) :
    holders m (t :: timers) = Function.update (holders m timers) p (holders m timers p + 1) := by
  funext q
  simp only [holders, List.countP_cons, ht, Function.update_apply]
  by_cases hq : q = p
  · simp only [hq, beq_self_eq_true, if_true]
    omega
  · simp [hq, Ne.symm hq]

theorem holders_cons_none (m : ProcMemory) (timers : List SelfTimer) (ht : t.data = none) :
    holders m (t :: timers) = holders m timers := by
  funext q
  simp [holders, ht]

theorem holders_erase (m : ProcMemory) (hmem : t ∈ timers) (ht : t.data = some p) :
    holders m (timers.erase t) =
      Function.update (holders m timers) p (holders m timers p - 1) := by
  have hpos : 0 < timers.countP (·.data == some p) :=
    List.countP_pos_iff.2 ⟨t, hmem, by simp [ht]⟩
  funext q
  simp only [holders, List.countP_erase, hmem, ht, true_and, Function.update_apply]
  by_cases hq : q = p
  · simp only [hq, beq_self_eq_true, if_true]
    omega
  · simp [hq, Ne.symm hq]

theorem holders_erase_none (m : ProcMemory) (ht : t.data = none) :
    holders m (timers.erase t) = holders m timers := by
  funext q
  simp [holders, List.countP_erase, ht]

theorem holders_pos (m : ProcMemory) (ht : t ∈ timers) (hdata : t.data = some p) :
    0 < holders m timers p := by
  have hpos : 0 < timers.countP (·.data == some p) :=
    List.countP_pos_iff.2 ⟨t, ht, by simp [hdata]⟩
  exact hpos.trans_le (Nat.le_add_left ..)

theorem holders_refs (h : m'.refs = m.refs) : holders m' timers = holders m timers := by
  funext q
  simp only [holders, h]

/-! Objects and who holds them. -/

/-- What an event does to the objects, with the references before and after. Where the
event `fits`, the counters have room for them. -/
inductive ProcMoved (fits : Prop) :
    ProcMemory → (ProcId → ℕ) → ProcMemory → (ProcId → ℕ) → Prop
  | refs (m : ProcMemory) (count refs : ProcId → ℕ) :
      ProcMoved fits m count { m with refs := refs } count
  | ref {m : ProcMemory} {count : ProcId → ℕ} {p : ProcId} {priv : DAProcPriv} :
      m.heap p = some priv → (fits → count p < 2 ^ 32) → ProcMoved fits m count
        (m.setProc p { priv with refCount := priv.refCount + 1 })
        (Function.update count p (count p + 1))
  | release {m : ProcMemory} {count : ProcId → ℕ} {p : ProcId} {priv : DAProcPriv} :
      m.heap p = some priv → 0 < count p → ProcMoved fits m count (m.release p priv)
        (Function.update count p (count p - 1))
  | create (m : ProcMemory) (count : ProcId → ℕ) (pid : Int32) (cred : DACred)
      (groups : Option (List UInt32)) : ProcMoved fits m count (m.create pid cred groups)
        (Function.update count m.nextProc 1)
  | abandon (m : ProcMemory) (count : ProcId → ℕ) (groups : Option (List UInt32)) :
      ProcMoved fits m count (m.abandon groups) count
  | trans {m m' m'' : ProcMemory} {count count' count'' : ProcId → ℕ} :
      ProcMoved fits m count m' count' → ProcMoved fits m' count' m'' count'' →
      ProcMoved fits m count m'' count''

theorem ProcMoved.refl : ProcMoved fits m count m count := .refs m count m.refs

theorem ProcMoved.frame (h : ProcMoved fits m count m' count') : ProcFrame m m' := by
  induction h with
  | refs m count refs => exact ⟨le_rfl, fun _ _ => Or.inl ⟨rfl, rfl⟩⟩
  | ref hp => exact procFrame_ref hp _
  | release hp => exact procFrame_release hp
  | create => exact procFrame_create ..
  | abandon => exact procFrame_abandon ..
  | trans _ _ ih ih' => exact ih.trans ih'

theorem Tallied.moved (h : Tallied m count) (hm : ProcMoved fits m count m' count') :
    Tallied m' count' := by
  induction hm with
  | refs m count refs => exact ⟨h.shown, h.fresh⟩
  | ref hp => exact h.ref hp
  | release hp hpos => exact h.release hp hpos
  | create => exact h.create ..
  | abandon => exact h.abandon ..
  | trans _ _ ih ih' => exact ih' (ih h)

theorem ProcOrdered.moved (h : ProcOrdered m count) (hm : ProcMoved fits m count m' count')
    (hf : fits) : ProcOrdered m' count' := by
  induction hm with
  | refs m count refs =>
    exact ⟨⟨h.shown, h.fresh⟩, h.live, h.freed, h.array, h.own, h.nextArray, h.unfinished⟩
  | ref hp hroom => exact h.ref hp (hroom hf)
  | release hp => exact h.release hp
  | create => exact h.create ..
  | abandon => exact h.abandon ..
  | trans _ _ ih ih' => exact ih' (ih h)

/-! Events. -/

/-- An object is made, or not. -/
theorem daSelfNew_cases (h : w.procs.heap w.procs.nextProc = none) (out : SelfOutside) :
    (daSelfNew w out = none ∧ (SelfEvent.new out).faults) ∨
      (¬ out.finds ∧ ∃ procs, daSelfNew w out = some ({ w with procs := procs }, none) ∧
        procs.refs = w.procs.refs ∧ ∀ fits count, ProcMoved fits w.procs count procs count) ∨
      (out.finds ∧ ∃ cred groups, daSelfNew w out =
        some ({ w with procs := w.procs.create out.getpid cred groups }, some w.procs.nextProc)) := by
  unfold daSelfNew SelfOutside.finds
  rcases daProcNew_cases h out.getpid out.gFileGetContents with ⟨hnone, hfaults⟩ |
    ⟨hex, hdata⟩ | ⟨data, hdata, ⟨hc, hex⟩ | ⟨hc, hex⟩⟩
  · exact Or.inl ⟨by rw [hnone]; rfl, hfaults⟩
  · refine Or.inr (Or.inl ⟨?_, w.procs, by rw [hex]; rfl, rfl, fun _ _ => .refl⟩)
    simp [hdata]
  · exact Or.inr (Or.inr ⟨⟨data, hdata, hc⟩, _, _, by rw [hex]; rfl⟩)
  · refine Or.inr (Or.inl ⟨?_, _, by rw [hex]; rfl, ProcMemory.abandon_refs ..,
      fun _ _ => .abandon ..⟩)
    simp [hdata, hc]

/-- What an event does to the variables and the timers. -/
inductive SelfMoved (w : SelfWorld) : SelfEvent → SelfWorld → Prop
  | client (e : SelfEvent) (procs : ProcMemory) : e.succeeds w →
      SelfMoved w e { w with procs := procs }
  | made (out : SelfOutside) (procs : ProcMemory) (sec : ℕ) (self : Option ProcId) :
      w.selfShared = none → (self.isSome = true ↔ out.finds) → SelfMoved w (.newShared out)
        { procs := procs, selfShared := self, selfSharedTimeoutId := w.nextTimer
          timers := ⟨w.nextTimer, sec, self⟩ :: w.timers, nextTimer := w.nextTimer + 1
          asserts := w.asserts && w.selfSharedTimeoutId == 0 }
  | idle : w.selfSharedTimeoutId = 0 → SelfMoved w .flush { w with selfShared := none }
  | flushed (procs : ProcMemory) (t : SelfTimer) : t ∈ w.timers → t.id = w.selfSharedTimeoutId →
      SelfMoved w .flush { w with
        procs := procs, selfShared := none, selfSharedTimeoutId := 0
        timers := w.timers.erase t }
  | expired (procs : ProcMemory) (t : SelfTimer) : t ∈ w.timers →
      SelfMoved w (.expire t.id) { w with
        procs := procs, selfShared := none, selfSharedTimeoutId := 0
        timers := w.timers.erase t
        asserts := w.asserts && (w.selfSharedTimeoutId != 0) && w.selfShared == t.data }

/-- An event by what it does. -/
structure SelfStep (w : SelfWorld) (e : SelfEvent) (w' : SelfWorld) : Prop where
  procs : ProcMoved (e.fits w) w.procs (holders w.procs w.timers)
    w'.procs (holders w'.procs w'.timers)
  moved : SelfMoved w e w'

theorem daSelfNewShared_eq (hp : w.selfShared = none) :
    daSelfNewShared w out = (daSelfNew w out).bind fun (w1, self) =>
      (daProcRef w1.procs self).bind fun procs =>
        some (⟨procs, self, w.nextTimer, ⟨w.nextTimer, out.sec, self⟩ :: w.timers, w.nextTimer + 1,
          w.asserts && w.selfSharedTimeoutId == 0⟩, self) := by
  simp [daSelfNewShared, hp, daSelfNew, daSelfRef, SelfWorld.gAssert,
    SelfWorld.gTimeoutAddSecondsFull, Option.bind_assoc]

theorem Tallied.new (h : Tallied w.procs (holders w.procs w.timers))
    (hex : (SelfEvent.new out).exec w = some w') : SelfStep w (.new out) w' := by
  obtain ⟨⟨w1, self⟩, hself, hex⟩ := Option.bind_eq_some_iff.1 hex
  obtain rfl := Option.some.inj hex
  rcases daSelfNew_cases h.unused out with ⟨hnone, -⟩ | ⟨-, procs, hnew, hrefs, hmoved⟩ |
    ⟨-, cred, groups, hnew⟩
  · rw [hself] at hnone
    cases hnone
  · obtain ⟨rfl, rfl⟩ := Prod.mk.inj (Option.some.inj (hnew.symm.trans hself))
    refine ⟨?_, .client _ procs trivial⟩
    change ProcMoved _ _ _ procs (holders procs w.timers)
    rw [holders_refs hrefs]
    exact hmoved _ _
  · obtain ⟨rfl, rfl⟩ := Prod.mk.inj (Option.some.inj (hnew.symm.trans hself))
    refine ⟨?_, .client _ _ trivial⟩
    change ProcMoved _ _ _ ((w.procs.create out.getpid cred groups).take (some w.procs.nextProc))
      (holders ((w.procs.create out.getpid cred groups).take (some w.procs.nextProc)) w.timers)
    rw [holders_take, holders_refs (ProcMemory.create_refs ..), (h.fresh _ le_rfl).2]
    exact .trans (.create ..) (.refs ..)

/-- A shared instance is made, or only its timer. -/
theorem Tallied.made (h : Tallied w.procs (holders w.procs w.timers)) (hp : w.selfShared = none)
    (hex : (SelfEvent.newShared out).exec w = some w') : SelfStep w (.newShared out) w' := by
  rw [SelfEvent.exec, daSelfNewShared_eq hp] at hex
  rcases daSelfNew_cases h.unused out with ⟨hnone, -⟩ | ⟨hno, procs, hnew, hrefs, hmoved⟩ |
    ⟨hfinds, cred, groups, hnew⟩
  · rw [hnone] at hex
    cases hex
  · rw [hnew] at hex
    obtain rfl := Option.some.inj hex
    refine ⟨?_, .made out procs out.sec none hp (iff_of_false Bool.noConfusion hno)⟩
    change ProcMoved _ _ _ procs (holders procs (⟨w.nextTimer, out.sec, none⟩ :: w.timers))
    rw [holders_cons_none _ _ rfl, holders_refs hrefs]
    exact hmoved _ _
  · have hpriv : (w.procs.create out.getpid cred groups).heap w.procs.nextProc = _ :=
      Function.update_self ..
    simp only [hnew, Option.bind_eq_bind, Option.bind_some, daProcRef_eq hpriv] at hex
    obtain rfl := Option.some.inj hex
    refine ⟨?_, .made out _ out.sec (some w.procs.nextProc) hp (iff_of_true rfl hfinds)⟩
    have hcount : holders (w.procs.create out.getpid cred groups)
        (⟨w.nextTimer, out.sec, some w.procs.nextProc⟩ :: w.timers) =
          Function.update (holders w.procs w.timers) w.procs.nextProc 1 := by
      rw [holders_cons _ _ rfl, holders_refs (ProcMemory.create_refs ..), (h.fresh _ le_rfl).2]
    change ProcMoved _ _ _ (ProcMemory.take _ (some w.procs.nextProc))
      (holders (ProcMemory.take _ (some w.procs.nextProc)) (_ :: w.timers))
    rw [holders_take, holders_refs (ProcMemory.setProc_refs ..), hcount]
    refine .trans (.create ..) (.trans (.ref hpriv fun _ => ?_) (.refs ..))
    rw [Function.update_self]
    decide

theorem ProcMoved.taken (hp : m.heap p = some priv) (hroom : fits → holders m timers p < 2 ^ 32) :
    ProcMoved fits m (holders m timers)
      ((m.take (some p)).setProc p { priv with refCount := priv.refCount + 1 })
      (holders ((m.take (some p)).setProc p { priv with refCount := priv.refCount + 1 })
        timers) := by
  rw [holders_refs (ProcMemory.setProc_refs ..), holders_take]
  have hp' : (m.take (some p)).heap p = some priv := hp
  exact .trans (.refs ..) (.ref hp' hroom)

theorem daSelfNewShared_again (hp : w.selfShared = some p) (hpriv : w.procs.heap p = some priv)
    (out : SelfOutside) : (SelfEvent.newShared out).exec w = some { w with
      procs := (w.procs.take (some p)).setProc p { priv with refCount := priv.refCount + 1 } } := by
  simp only [SelfEvent.exec, daSelfNewShared, hp, daSelfRef, daProcRef_eq hpriv,
    Option.bind_eq_bind, Option.bind_some]
  rfl

/-- The shared instance, and another reference to it. -/
theorem again_step (hp : w.selfShared = some p)
    (hex : (SelfEvent.newShared out).exec w = some w') : SelfStep w (.newShared out) w' := by
  cases hpriv : w.procs.heap p with
  | none => simp [SelfEvent.exec, daSelfNewShared, hp, daSelfRef, daProcRef, hpriv] at hex
  | some priv =>
    rw [daSelfNewShared_again hp hpriv] at hex
    obtain rfl := Option.some.inj hex
    refine ⟨.taken hpriv fun hf => (hp ▸ hf : w.room (some p)), .client _ _ fun hnone => ?_⟩
    rw [hp] at hnone
    cases hnone

theorem ref_step (hex : (SelfEvent.ref self).exec w = some w') :
    SelfStep w (.ref self) w' := by
  cases self with
  | none =>
    obtain rfl := Option.some.inj hex
    exact ⟨.refl, .client _ w.procs trivial⟩
  | some p =>
    obtain ⟨procs, hprocs, hex⟩ := Option.bind_eq_some_iff.1 hex
    obtain ⟨priv, hpriv, hprocs⟩ := Option.bind_eq_some_iff.1 hprocs
    obtain rfl := Option.some.inj hprocs
    obtain rfl := Option.some.inj hex
    exact ⟨.taken hpriv id, .client _ _ trivial⟩

theorem unref_step (he : (SelfEvent.unref self).enabled w)
    (hex : (SelfEvent.unref self).exec w = some w') : SelfStep w (.unref self) w' := by
  cases self with
  | none =>
    obtain rfl := Option.some.inj hex
    exact ⟨.refl, .client _ w.procs trivial⟩
  | some p =>
    have hpos : 0 < w.procs.refs p := of_decide_eq_true he
    obtain ⟨procs, hprocs, hex⟩ := Option.bind_eq_some_iff.1 hex
    obtain ⟨priv, hpriv, rfl⟩ := daProcUnref_inv hprocs
    obtain rfl := Option.some.inj hex
    refine ⟨?_, .client _ _ trivial⟩
    change ProcMoved _ _ _ _ (holders ((w.procs.give (some p)).release p priv) w.timers)
    rw [holders_refs (ProcMemory.release_refs ..), holders_give _ _ hpos]
    exact .trans (.refs ..) (.release hpriv (hpos.trans_le (Nat.le_add_right ..)))

/-- A timer that is destroyed gives up what it carries. -/
theorem gSourceDestroy_step (fits : Prop) (ht : t ∈ w.timers) (hex : w.gSourceDestroy t = some w') :
    ∃ procs, w' = { w with timers := w.timers.erase t, procs := procs } ∧
      ProcMoved fits w.procs (holders w.procs w.timers) procs
        (holders procs (w.timers.erase t)) := by
  cases hdata : t.data with
  | none =>
    rw [SelfWorld.gSourceDestroy, hdata] at hex
    obtain rfl := Option.some.inj hex
    refine ⟨w.procs, rfl, ?_⟩
    rw [holders_erase_none _ hdata]
    exact .refl
  | some p =>
    rw [SelfWorld.gSourceDestroy, hdata] at hex
    obtain ⟨procs, hprocs, hex⟩ := Option.bind_eq_some_iff.1 hex
    obtain ⟨priv, hpriv, rfl⟩ := daProcUnref_inv hprocs
    obtain rfl := Option.some.inj hex
    refine ⟨_, rfl, ?_⟩
    rw [holders_refs (ProcMemory.release_refs ..), holders_erase _ ht hdata]
    exact .release hpriv (holders_pos _ ht hdata)

theorem timer_mem {id : ℕ} (h : w.timer id = some t) : t ∈ w.timers ∧ t.id = id :=
  ⟨List.mem_of_find?_eq_some h, by simpa using List.find?_some h⟩

theorem flush_step (hex : SelfEvent.flush.exec w = some w') :
    SelfStep w .flush w' ∧ w'.selfShared = none := by
  rw [SelfEvent.exec, daSelfFlush] at hex
  by_cases hid : w.selfSharedTimeoutId = 0
  · rw [if_neg (not_not.2 hid)] at hex
    obtain rfl := Option.some.inj hex
    exact ⟨⟨.refl, .idle hid⟩, rfl⟩
  · rw [if_pos hid] at hex
    obtain ⟨w1, hw1, hex⟩ := Option.bind_eq_some_iff.1 hex
    obtain ⟨t, ht, hw1⟩ := Option.bind_eq_some_iff.1 hw1
    obtain ⟨hmem, htid⟩ := timer_mem ht
    obtain ⟨procs, rfl, hmoved⟩ := gSourceDestroy_step (SelfEvent.flush.fits w) hmem hw1
    obtain rfl := Option.some.inj hex
    exact ⟨⟨hmoved, .flushed procs t hmem htid⟩, rfl⟩

theorem expire_step {id : ℕ} (hex : (SelfEvent.expire id).exec w = some w') :
    SelfStep w (.expire id) w' := by
  obtain ⟨t, ht, hdestroy⟩ := Option.bind_eq_some_iff.1 hex
  obtain ⟨hmem, rfl⟩ := timer_mem ht
  obtain ⟨procs, rfl, hmoved⟩ := gSourceDestroy_step ((SelfEvent.expire t.id).fits w)
    (w := daSelfSharedTimeout w t.data) hmem hdestroy
  exact ⟨hmoved, .expired procs t hmem⟩

/-- What an event does, where it returns. -/
theorem Tallied.step (h : Tallied w.procs (holders w.procs w.timers)) (he : e.enabled w)
    (hex : e.exec w = some w') : SelfStep w e w' := by
  cases e with
  | new out => exact h.new hex
  | newShared out =>
    cases hp : w.selfShared with
    | none => exact h.made hp hex
    | some p => exact again_step hp hex
  | ref self => exact ref_step hex
  | unref self => exact unref_step he hex
  | flush => exact (flush_step hex).1
  | expire id => exact expire_step hex

/-! States. -/

/-- What holds between operations, whatever the counts show: an id that is kept is that of a
pending timer, which carries the shared instance. -/
structure SelfShape (w : SelfWorld) : Prop where
  tallied : Tallied w.procs (holders w.procs w.timers)
  nodup : (w.timers.map SelfTimer.id).Nodup
  ids : ∀ t ∈ w.timers, 0 < t.id ∧ t.id < w.nextTimer
  positive : 0 < w.nextTimer
  current : w.selfSharedTimeoutId ≠ 0 →
    ∃ t ∈ w.timers, t.id = w.selfSharedTimeoutId ∧ t.data = w.selfShared
  shared : w.selfShared.isSome = true → w.selfSharedTimeoutId ≠ 0

theorem SelfShape.timer_eq (h : SelfShape w) (ht : t ∈ w.timers) : w.timer t.id = some t := by
  have hsome : (w.timer t.id).isSome = true :=
    List.find?_isSome.2 ⟨t, ht, beq_self_eq_true _⟩
  obtain ⟨u, hu⟩ := Option.isSome_iff_exists.1 hsome
  obtain ⟨hmem, hid⟩ := timer_mem hu
  rw [hu, List.inj_on_of_nodup_map h.nodup hmem ht hid]

/-- The timer of the shared instance is pending. -/
theorem SelfShape.timer_pending (h : SelfShape w) (hid : w.selfSharedTimeoutId ≠ 0) :
    ∃ t, w.timer w.selfSharedTimeoutId = some t ∧ t.data = w.selfShared := by
  obtain ⟨t, ht, htid, hdata⟩ := h.current hid
  exact ⟨t, htid ▸ h.timer_eq ht, hdata⟩

/-- A new timer has an id of its own. -/
theorem SelfShape.add (h : SelfShape w) (ht : t.id = w.nextTimer) :
    ((t :: w.timers).map SelfTimer.id).Nodup ∧
      ∀ u ∈ t :: w.timers, 0 < u.id ∧ u.id < w.nextTimer + 1 := by
  have hpos := h.positive
  refine ⟨?_, ?_⟩
  · rw [List.map_cons, List.nodup_cons]
    refine ⟨fun hmem => ?_, h.nodup⟩
    obtain ⟨u, hu, hid⟩ := List.mem_map.1 hmem
    exact absurd (h.ids u hu).2 (by rw [hid, ht]; exact lt_irrefl _)
  · intro u hu
    rcases List.mem_cons.1 hu with rfl | hu
    · omega
    · have := h.ids u hu
      omega

theorem SelfShape.moved (h : SelfShape w) (hm : SelfMoved w e w')
    (ht : Tallied w'.procs (holders w'.procs w'.timers)) : SelfShape w' := by
  have herase : ∀ t, ((w.timers.erase t).map SelfTimer.id).Nodup ∧
      ∀ u ∈ w.timers.erase t, 0 < u.id ∧ u.id < w.nextTimer := fun t =>
    ⟨h.nodup.sublist (List.erase_sublist.map _), fun u hu => h.ids u (List.mem_of_mem_erase hu)⟩
  cases hm with
  | client _ procs => exact ⟨ht, h.nodup, h.ids, h.positive, h.current, h.shared⟩
  | made out procs sec self =>
    obtain ⟨hnodup, hids⟩ := h.add (t := ⟨w.nextTimer, sec, self⟩) rfl
    exact ⟨ht, hnodup, hids, Nat.succ_pos _, fun _ => ⟨_, List.mem_cons_self, rfl, rfl⟩,
      fun _ => h.positive.ne'⟩
  | idle hid =>
    exact ⟨ht, h.nodup, h.ids, h.positive, fun hne => absurd hid hne, fun hp => by cases hp⟩
  | flushed procs t | expired procs t =>
    obtain ⟨hnodup, hids⟩ := herase t
    exact ⟨ht, hnodup, hids, h.positive, fun hne => absurd rfl hne, fun hp => by cases hp⟩

theorem selfShape_init : SelfShape .init := by
  refine ⟨?_, List.nodup_nil, by simp [SelfWorld.init], Nat.one_pos, ?_, by simp [SelfWorld.init]⟩
  · constructor <;> simp [SelfWorld.init, ProcMemory.init, holders]
  · intro hne
    exact absurd rfl hne

theorem SelfShape.exec (h : SelfShape w) (he : e.enabled w) (hex : e.exec w = some w') :
    SelfShape w' ∧ SelfStep w e w' := by
  have hstep := h.tallied.step he hex
  exact ⟨h.moved hstep.moved (h.tallied.moved hstep.procs), hstep⟩

theorem self_run_shape (h : Run selfSystem acts w) : SelfShape w :=
  h.invariant selfShape_init fun _ _ _ hshape hen hex => (hshape.exec hen hex).1

end DbusAccess
