import DbusAccess.Proofs.PeerMemory

/-! The memory of the cache in every state that runs reach, also after a count has come
round: ids that were not given out belong to nothing, and entries are of peers of their bus. -/

namespace DbusAccess

open Counters

variable {w w' w1 : World} {p q : PeerId} {priv : DAPeerPriv} {out : Outside} {b b' : DABus}
  {e : Entry} {table : List Entry} {name : CString} {bus : DAPeerBus}

/-! Tables. -/

@[simp] theorem setBus_daBus (w : World) (b : DABus) (bus : DAPeerBus) (b' : DABus) :
    (w.setBus b bus).daBus b' = if b' = b then bus else w.daBus b' :=
  Function.update_apply ..

@[simp] theorem table_setBus (w : World) (b : DABus) (bus : DAPeerBus) (b' : DABus) :
    (w.setBus b bus).table b' = if b' = b then bus.peers.getD [] else w.table b' := by
  unfold World.table World.setBus
  by_cases h : b' = b
  · subst h
    simp
  · simp [h]

theorem frame_setBus (w : World) (b : DABus) (bus : DAPeerBus) : PeerFrame w (w.setBus b bus) :=
  ⟨(PeerFrame.refl w).1, fun _ _ h => h, le_rfl, le_rfl⟩

theorem frame_setRefs (w : World) (p : PeerId) (n : ℕ) : PeerFrame w (w.setRefs p n) :=
  ⟨(PeerFrame.refl w).1, fun _ _ h => h, le_rfl, le_rfl⟩

theorem gHashTableFind_none (h : gHashTableFind w name table = some none) :
    ∀ e ∈ table, ∃ owner, w.heap e.key = some owner ∧ owner.name ≠ name := by
  induction table with
  | nil => exact fun e he => absurd he List.not_mem_nil
  | cons f table ih =>
    obtain ⟨owner, howner, h⟩ := Option.bind_eq_some_iff.1 h
    split_ifs at h with hname
    · cases h
    · exact List.forall_mem_cons.2 ⟨⟨owner, howner, hname⟩, ih h⟩

theorem gHashTableFind_some (h : gHashTableFind w name table = some (some e)) :
    e ∈ table ∧ ∃ owner, w.heap e.key = some owner ∧ owner.name = name := by
  induction table with
  | nil => cases h
  | cons f table ih =>
    obtain ⟨owner, howner, h⟩ := Option.bind_eq_some_iff.1 h
    split_ifs at h with hname
    · obtain rfl := Option.some.inj (Option.some.inj h)
      exact ⟨List.mem_cons_self, owner, howner, hname⟩
    · obtain ⟨hmem, hfound⟩ := ih h
      exact ⟨List.mem_cons_of_mem f hmem, hfound⟩

theorem gHashTableFind_missing
    (h : ∀ e ∈ table, ∃ owner, w.heap e.key = some owner ∧ owner.name ≠ name) :
    gHashTableFind w name table = some none := by
  induction table with
  | nil => rfl
  | cons f table ih =>
    obtain ⟨⟨owner, howner, hname⟩, htable⟩ := List.forall_mem_cons.1 h
    simp [gHashTableFind, howner, hname, ih htable]

/-! The shape of the memory. -/

/-- What holds also within an operation, whatever the counts show. -/
structure Shape (w : World) : Prop where
  heap : ∀ p, w.nextPeer ≤ p → w.heap p = none
  groups : ∀ p, w.groups p = true → ∃ priv, w.heap p = some priv ∧ priv.cred.groups.isSome = true
  timeouts : ∀ id, id = 0 ∨ w.nextTimeout ≤ id → w.timeouts id = none
  watches : ∀ id, id = 0 ∨ w.nextWatch ≤ id → w.watches id = none
  positive : 0 < w.nextTimeout ∧ 0 < w.nextWatch
  name : ∀ p priv, w.heap p = some priv → priv.pub.name = priv.name
  entry : ∀ b, ∀ e ∈ w.table b, e.key = e.value ∧ e.value < w.nextPeer ∧
    ∀ priv, w.heap e.value = some priv → priv.bus = b

theorem Shape.noZero (h : Shape w) : NoZero w :=
  ⟨h.timeouts 0 (Or.inl rfl), h.watches 0 (Or.inl rfl)⟩

/-- Where nobody comes, arrays, timeouts and ids are left to see to. -/
theorem Shape.of_frame (h : Shape w) (hf : PeerFrame w w')
    (htable : ∀ b, ∀ e ∈ w'.table b, e ∈ w.table b)
    (hgroups : ∀ p, w'.groups p = true →
      ∃ priv, w'.heap p = some priv ∧ priv.cred.groups.isSome = true)
    (htimeouts : ∀ id, id = 0 ∨ w'.nextTimeout ≤ id → w'.timeouts id = none)
    (hpositive : 0 < w'.nextTimeout ∧ 0 < w'.nextWatch) : Shape w' := by
  refine ⟨fun p hp => ?_, hgroups, htimeouts, fun id hid => ?_, hpositive, fun p priv' hp => ?_,
    fun b e he => ?_⟩
  · rw [Option.eq_none_iff_forall_ne_some]
    intro priv' hpriv'
    obtain ⟨priv, hpriv, -⟩ := hf.heap p priv' hpriv'
    rw [h.heap p (hf.nextPeer.trans hp)] at hpriv
    cases hpriv
  · rw [Option.eq_none_iff_forall_ne_some]
    intro watch hwatch
    have hold := hf.watches id watch hwatch
    rw [h.watches id (hid.imp_right hf.nextWatch.trans)] at hold
    cases hold
  · obtain ⟨priv, hpriv, hpub, -, -, hname⟩ := hf.heap p priv' hp
    rw [hpub, hname]
    exact h.name p priv hpriv
  · obtain ⟨hkey, hlt, hbus⟩ := h.entry b e (htable b e he)
    refine ⟨hkey, hlt.trans_le hf.nextPeer, fun priv' hpriv' => ?_⟩
    obtain ⟨priv, hpriv, -, -, hsame, -⟩ := hf.heap _ priv' hpriv'
    exact hsame.trans (hbus priv hpriv)

theorem Shape.disarm (h : Shape w) (hp : w.heap p = some priv) : Shape (w.disarm p priv) := by
  have hgroups := h.groups
  have htimeouts := h.timeouts
  refine h.of_frame (frame_disarm hp) (fun _ _ he => he) ?_ ?_ h.positive <;>
    simp only [World.disarm, Function.update_apply] <;> grind

theorem Shape.release (h : Shape w) (hp : w.heap p = some priv) : Shape (w.release p priv) := by
  have hgroups := h.groups
  have htimeouts := h.timeouts
  have hframe := frame_release hp
  unfold World.release at *
  split_ifs at * with hr
  · refine h.of_frame hframe (fun _ _ he => he) ?_ ?_ h.positive <;>
      simp only [World.free, Function.update_apply] <;> grind
  · refine h.of_frame hframe (fun _ _ he => he) ?_ htimeouts h.positive
    simp only [World.setPeer, Function.update_apply]
    grind

theorem Shape.renew (h : Shape w) (hp : w.heap p = some priv) : Shape (w.renew p priv) := by
  have hgroups := h.groups
  have htimeouts := h.timeouts
  have hpositive := h.positive
  refine h.of_frame (frame_renew hp) (fun _ _ he => he) ?_ ?_ ?_ <;>
    simp only [World.renew, Function.update_apply] <;> grind

theorem Shape.setPeer {priv' : DAPeerPriv} (h : Shape w) (hp : w.heap p = some priv)
    (hs : SameData priv priv') : Shape (w.setPeer p priv') := by
  have hgroups := h.groups
  have hcred := hs.2.1
  refine h.of_frame (frame_setPeer hp hs) (fun _ _ he => he) ?_ h.timeouts h.positive
  simp only [World.setPeer, Function.update_apply]
  grind

theorem Shape.setBus (h : Shape w) (hsub : ∀ e ∈ bus.peers.getD [], e ∈ w.table b) :
    Shape (w.setBus b bus) := by
  refine ⟨h.heap, h.groups, h.timeouts, h.watches, h.positive, h.name, fun b' e he => ?_⟩
  rw [table_setBus] at he
  split_ifs at he with hb
  · exact hb ▸ h.entry b e (hsub e he)
  · exact h.entry b' e he

theorem Shape.setPeers (h : Shape w) (hsub : ∀ e ∈ table, e ∈ w.table b) :
    Shape (w.setPeers b table) := h.setBus hsub

theorem Shape.setRefs (h : Shape w) (p : PeerId) (n : ℕ) : Shape (w.setRefs p n) :=
  ⟨h.heap, h.groups, h.timeouts, h.watches, h.positive, h.name, h.entry⟩

/-! What functions that return have done. -/

theorem setPeer_self (w : World) (p : PeerId) (priv : DAPeerPriv) :
    (w.setPeer p priv).heap p = some priv := Function.update_self ..

theorem inUse_timeout {α : Type} {k : World → Option α} {o : Option α} {id : ℕ} {r : α}
    (h0 : w.timeouts 0 = none)
    (h : (if id ≠ 0 then (gSourceRemove w id).bind k else o) = some r) : InUse w.timeouts id := by
  unfold InUse
  by_cases hid : id = 0
  · rwa [if_pos hid]
  · rw [if_pos hid] at h
    obtain ⟨w', hw', -⟩ := Option.bind_eq_some_iff.1 h
    rw [if_neg hid]
    by_contra hnone
    rw [gSourceRemove, if_neg hnone] at hw'
    cases hw'

theorem inUse_watch {α : Type} {k : World → Option α} {o : Option α} {id : ℕ} {r : α}
    (h0 : w.watches 0 = none)
    (h : (if id ≠ 0 then (gBusUnwatchName w id).bind k else o) = some r) :
    InUse w.watches id := by
  unfold InUse
  by_cases hid : id = 0
  · rwa [if_pos hid]
  · rw [if_pos hid] at h
    obtain ⟨w', hw', -⟩ := Option.bind_eq_some_iff.1 h
    rw [if_neg hid]
    by_contra hnone
    rw [gBusUnwatchName, if_neg hnone] at hw'
    cases hw'

theorem Shape.dispose (h : Shape w) (hex : daPeerDispose w p = some w') :
    ∃ priv, w.heap p = some priv ∧ w' = w.disarm p priv := by
  have hret := hex
  obtain ⟨priv, hp, hex⟩ := Option.bind_eq_some_iff.1 hex
  have hw := inUse_watch (h.watches 0 (Or.inl rfl)) hex
  have hrest := (dropWatch_eq (fun w => (w.heap p).bind fun priv =>
    if priv.timeoutId ≠ 0 then (gSourceRemove w priv.timeoutId).bind fun w =>
      some (w.setPeer p { priv with timeoutId := 0 })
    else some w) hp hw).symm.trans hex
  obtain ⟨priv', hp', hrest⟩ := Option.bind_eq_some_iff.1 hrest
  obtain rfl := Option.some.inj ((setPeer_self ..).symm.trans hp')
  have ht := inUse_timeout (by exact h.timeouts 0 (Or.inl rfl)) hrest
  rw [daPeerDispose_eq hp ht hw] at hret
  exact ⟨priv, hp, (Option.some.inj hret).symm⟩

theorem Shape.groups_eq (h : Shape w) (hp : w.heap p = some priv)
    (hkept : priv.cred.groups.isSome = true → w.groups p = true) :
    w.groups p = priv.cred.groups.isSome := by
  refine Bool.eq_iff_iff.2 ⟨fun hgroups => ?_, hkept⟩
  obtain ⟨priv', hp', hsome⟩ := h.groups p hgroups
  rwa [Option.some.inj (hp.symm.trans hp')]

theorem Shape.unref (h : Shape w) (hex : daPeerUnref w p = some w') :
    ∃ priv, w.heap p = some priv ∧ w' = w.release p priv := by
  have hret := hex
  obtain ⟨priv, hp, hex⟩ := Option.bind_eq_some_iff.1 hex
  refine ⟨priv, hp, ?_⟩
  by_cases hr : priv.refCount = 1
  · rw [if_pos (dec_eq_zero.2 hr)] at hex
    obtain ⟨w1, hfin, -⟩ := Option.bind_eq_some_iff.1 hex
    obtain ⟨priv', hp', hfin⟩ := Option.bind_eq_some_iff.1 hfin
    obtain rfl := Option.some.inj ((setPeer_self ..).symm.trans hp')
    have hw := inUse_watch (by exact h.watches 0 (Or.inl rfl)) hfin
    replace hfin := (unwatchName_eq _ hw).symm.trans hfin
    have ht := inUse_timeout (by exact h.timeouts 0 (Or.inl rfl)) hfin
    replace hfin := (removeTimeout_eq _ ht).symm.trans hfin
    rw [daPeerUnref_eq hp ht hw (h.groups_eq hp fun hsome => ?_)] at hret
    · exact (Option.some.inj hret).symm
    · obtain ⟨priv', hp', hfin⟩ := Option.bind_eq_some_iff.1 hfin
      obtain rfl := Option.some.inj ((setPeer_self ..).symm.trans hp')
      rw [if_pos hsome] at hfin
      split_ifs at hfin with hgroups
      exact hgroups
  · rw [if_neg (mt dec_eq_zero.1 hr)] at hex
    rw [World.release, if_neg hr]
    exact (Option.some.inj hex).symm

/-- What a function that makes no peer leaves. -/
structure Leaves (w w' : World) : Prop where
  shape : Shape w'
  frame : PeerFrame w w'

theorem Leaves.trans {w2 : World} (h : Leaves w w1) (h' : Leaves w1 w2) : Leaves w w2 :=
  ⟨h'.shape, h.frame.trans h'.frame⟩

theorem dispose_leaves (h : Shape w) (hex : daPeerDispose w p = some w') :
    Leaves w w' ∧ w'.daBus = w.daBus := by
  obtain ⟨priv, hp, rfl⟩ := h.dispose hex
  exact ⟨⟨h.disarm hp, frame_disarm hp⟩, rfl⟩

theorem unref_leaves (h : Shape w) (hex : daPeerUnref w p = some w') :
    Leaves w w' ∧ w'.daBus = w.daBus := by
  obtain ⟨priv, hp, rfl⟩ := h.unref hex
  exact ⟨⟨h.release hp, frame_release hp⟩, release_daBus ..⟩

theorem foldlM_leaves {f : World → PeerId → Option World}
    (hf : ∀ w w' p, Shape w → f w p = some w' → Leaves w w' ∧ w'.daBus = w.daBus)
    (l : List Entry) (h : Shape w) (hex : l.foldlM (fun w e => f w e.value) w = some w') :
    Leaves w w' ∧ w'.daBus = w.daBus := by
  induction l generalizing w with
  | nil =>
    obtain rfl := Option.some.inj hex
    exact ⟨⟨h, .refl w⟩, rfl⟩
  | cons e l ih =>
    rw [List.foldlM_cons] at hex
    obtain ⟨w1, hw1, hex⟩ := Option.bind_eq_some_iff.1 hex
    obtain ⟨hleaves, hbus⟩ := hf w w1 e.value h hw1
    obtain ⟨hleaves', hbus'⟩ := ih hleaves.shape hex
    exact ⟨hleaves.trans hleaves', hbus'.trans hbus⟩

theorem tableRemoveAll_leaves (h : Shape w) (hex : gHashTableRemoveAll w b = some w') :
    Leaves w w' ∧ w'.daBus = (w.setPeers b []).daBus := by
  obtain ⟨table, -, hex⟩ := Option.bind_eq_some_iff.1 hex
  have hempty : Shape (w.setPeers b []) := h.setPeers fun f hf => absurd hf List.not_mem_nil
  obtain ⟨hleaves, hbus⟩ :=
    foldlM_leaves (f := daPeerUnref) (fun _ _ _ => unref_leaves) table hempty hex
  exact ⟨.trans ⟨hempty, frame_setBus ..⟩ hleaves, hbus⟩

end DbusAccess
