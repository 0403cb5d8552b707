import DbusAccess.Lib.Counters
import DbusAccess.Spec.Peer

/-! Memory, timeouts and watches of the peers: what each function of the library
does to them when they are in order. -/

namespace DbusAccess

open Counters

variable {w w' : World} {p q : PeerId} {priv : DAPeerPriv} {out : Outside} {b : DABus}
  {armed : PeerId → Prop} {count : PeerId → ℕ}

/-- The peers in `armed` have their timeout and their watch, and nobody else has any. -/
structure Armed (w : World) (armed : PeerId → Prop) : Prop where
  on : ∀ p priv, w.heap p = some priv → armed p →
    w.timeouts priv.timeoutId = some p ∧ w.watches priv.nameWatchId = some ⟨priv.bus, priv.name, p⟩
  off : ∀ p priv, w.heap p = some priv → ¬ armed p → priv.timeoutId = 0 ∧ priv.nameWatchId = 0
  timeout : ∀ id p, w.timeouts id = some p → ∃ priv, w.heap p = some priv ∧ priv.timeoutId = id
  watch : ∀ id watch, w.watches id = some watch →
    ∃ priv, w.heap watch.data = some priv ∧ priv.nameWatchId = id

/-- `count` gives the references to each peer, which its counter has room for. -/
structure Ordered (w : World) (armed : PeerId → Prop) (count : PeerId → ℕ) : Prop
    extends Armed w armed where
  live : ∀ p priv, w.heap p = some priv →
    priv.refCount = Int32.ofNat (count p) ∧ 0 < count p ∧ count p ≤ 2 ^ 32
  freed : ∀ p, w.heap p = none → count p = 0 ∧ ¬ armed p
  groups : ∀ p, w.groups p = true ↔ ∃ priv, w.heap p = some priv ∧ priv.cred.groups.isSome = true
  name : ∀ p priv, w.heap p = some priv → priv.pub.name = priv.name
  nextPeer : ∀ p, w.nextPeer ≤ p → w.heap p = none
  nextTimeout : ∀ id, id = 0 ∨ w.nextTimeout ≤ id → w.timeouts id = none
  nextWatch : ∀ id, id = 0 ∨ w.nextWatch ≤ id → w.watches id = none
  positive : 0 < w.nextTimeout ∧ 0 < w.nextWatch
  unfinished : ∀ p, (w.heap p).isSome = true ∨ w.nextPeer ≤ p → w.finalized p = 0
  finished : ∀ p, p < w.nextPeer → w.heap p = none → w.finalized p = 1

/-- A peer keeps its data. -/
def SameData (priv priv' : DAPeerPriv) : Prop :=
  priv'.pub = priv.pub ∧ priv'.cred = priv.cred ∧ priv'.bus = priv.bus ∧ priv'.name = priv.name

/-- Nobody comes, and peers that stay keep their data. -/
structure PeerFrame (w w' : World) : Prop where
  heap : ∀ p priv', w'.heap p = some priv' → ∃ priv, w.heap p = some priv ∧ SameData priv priv'
  watches : ∀ id watch, w'.watches id = some watch → w.watches id = some watch
  nextPeer : w.nextPeer ≤ w'.nextPeer
  nextWatch : w.nextWatch ≤ w'.nextWatch

theorem SameData.refl (priv : DAPeerPriv) : SameData priv priv := ⟨rfl, rfl, rfl, rfl⟩

theorem PeerFrame.refl (w : World) : PeerFrame w w where
  heap _ priv' h := ⟨priv', h, .refl _⟩
  watches _ _ h := h
  nextPeer := le_rfl
  nextWatch := le_rfl

theorem PeerFrame.trans {w1 w2 w3 : World} (h : PeerFrame w1 w2) (h' : PeerFrame w2 w3) :
    PeerFrame w1 w3 where
  heap p priv' hpriv' := by
    obtain ⟨priv2, h2, hs2⟩ := h'.heap p priv' hpriv'
    obtain ⟨priv1, h1, hs1⟩ := h.heap p priv2 h2
    exact ⟨priv1, h1, hs2.1.trans hs1.1, hs2.2.1.trans hs1.2.1, hs2.2.2.1.trans hs1.2.2.1,
      hs2.2.2.2.trans hs1.2.2.2⟩
  watches id watch h1 := h.watches id watch (h'.watches id watch h1)
  nextPeer := h.nextPeer.trans h'.nextPeer
  nextWatch := h.nextWatch.trans h'.nextWatch

/-! Releasing timeouts and watches. -/

/-- After `da_peer_dispose`. -/
def World.disarm (w : World) (p : PeerId) (priv : DAPeerPriv) : World :=
  { w with
    heap := Function.update w.heap p (some { priv with timeoutId := 0, nameWatchId := 0 })
    timeouts := Function.update w.timeouts priv.timeoutId none
    watches := Function.update w.watches priv.nameWatchId none }

@[simp] theorem disarm_heap (w : World) (p : PeerId) (priv : DAPeerPriv) (q : PeerId) :
    (w.disarm p priv).heap q =
      if q = p then some { priv with timeoutId := 0, nameWatchId := 0 } else w.heap q :=
  Function.update_apply ..

@[simp] theorem disarm_timeouts (w : World) (p : PeerId) (priv : DAPeerPriv) (id : ℕ) :
    (w.disarm p priv).timeouts id = if id = priv.timeoutId then none else w.timeouts id :=
  Function.update_apply ..

@[simp] theorem disarm_watches (w : World) (p : PeerId) (priv : DAPeerPriv) (id : ℕ) :
    (w.disarm p priv).watches id = if id = priv.nameWatchId then none else w.watches id :=
  Function.update_apply ..

theorem update_none {α : Type} {f : ℕ → Option α} {id : ℕ} (h : f id = none) :
    Function.update f id none = f := by
  rw [← h, Function.update_eq_self]

theorem update_some {f : PeerId → Option DAPeerPriv} (h : f p = some priv) :
    Function.update f p (some priv) = f := by
  rw [← h, Function.update_eq_self]

/-- An id that is zero or in use can be given up. -/
def InUse {α : Type} (f : ℕ → Option α) (id : ℕ) : Prop :=
  if id = 0 then f 0 = none else (f id).isSome = true

theorem removeTimeout_eq {α : Type} {id : ℕ} (k : World → Option α) (h : InUse w.timeouts id) :
    (if id ≠ 0 then (gSourceRemove w id).bind k else k w) =
      k { w with timeouts := Function.update w.timeouts id none } := by
  unfold InUse at h
  by_cases h0 : id = 0
  · rw [if_pos h0] at h
    simp [h0, update_none h]
  · rw [if_neg h0] at h
    simp [h0, gSourceRemove, h]

theorem unwatchName_eq {α : Type} {id : ℕ} (k : World → Option α) (h : InUse w.watches id) :
    (if id ≠ 0 then (gBusUnwatchName w id).bind k else k w) =
      k { w with watches := Function.update w.watches id none } := by
  unfold InUse at h
  by_cases h0 : id = 0
  · rw [if_pos h0] at h
    simp [h0, update_none h]
  · rw [if_neg h0] at h
    simp [h0, gBusUnwatchName, h]

theorem dropWatch_eq {α : Type} (k : World → Option α) (hp : w.heap p = some priv)
    (hw : InUse w.watches priv.nameWatchId) :
    (if priv.nameWatchId ≠ 0 then (gBusUnwatchName w priv.nameWatchId).bind fun w =>
        k (w.setPeer p { priv with nameWatchId := 0 })
      else k w) =
      k ({ w with watches := Function.update w.watches priv.nameWatchId none }.setPeer p
        { priv with nameWatchId := 0 }) := by
  unfold InUse at hw
  by_cases h0 : priv.nameWatchId = 0
  · rw [if_pos h0] at hw
    have hpriv : { priv with nameWatchId := 0 } = priv := by rw [← h0]
    rw [if_neg (not_not.2 h0), hpriv, h0, update_none hw, World.setPeer, update_some hp]
  · rw [if_neg h0] at hw
    rw [if_pos h0, gBusUnwatchName, if_pos hw, Option.bind_some]

theorem dropTimeout_eq (hp : w.heap p = some priv) (ht : InUse w.timeouts priv.timeoutId) :
    (if priv.timeoutId ≠ 0 then (gSourceRemove w priv.timeoutId).bind fun w =>
        some (w.setPeer p { priv with timeoutId := 0 })
      else some w) =
      some ({ w with timeouts := Function.update w.timeouts priv.timeoutId none }.setPeer p
        { priv with timeoutId := 0 }) := by
  unfold InUse at ht
  by_cases h0 : priv.timeoutId = 0
  · rw [if_pos h0] at ht
    have hpriv : { priv with timeoutId := 0 } = priv := by rw [← h0]
    rw [if_neg (not_not.2 h0), hpriv, h0, update_none ht, World.setPeer, update_some hp]
  · rw [if_neg h0] at ht
    rw [if_pos h0, gSourceRemove, if_pos ht, Option.bind_some]

theorem daPeerDispose_eq (hp : w.heap p = some priv)
    (ht : InUse w.timeouts priv.timeoutId) (hw : InUse w.watches priv.nameWatchId) :
    daPeerDispose w p = some (w.disarm p priv) := by
  simp only [daPeerDispose, Option.bind_eq_bind]
  nth_rewrite 1 [hp]
  rw [Option.bind_some]
  refine (dropWatch_eq (fun w => (w.heap p).bind fun priv =>
    if priv.timeoutId ≠ 0 then (gSourceRemove w priv.timeoutId).bind fun w =>
      some (w.setPeer p { priv with timeoutId := 0 })
    else some w) hp hw).trans ?_
  have hset : ({ w with watches := Function.update w.watches priv.nameWatchId none }.setPeer p
      { priv with nameWatchId := 0 }).heap p = some { priv with nameWatchId := 0 } :=
    Function.update_self ..
  rw [hset, Option.bind_some]
  refine (dropTimeout_eq hset ht).trans ?_
  simp [World.setPeer, World.disarm]

/-- No id is zero. -/
structure NoZero (w : World) : Prop where
  timeout : w.timeouts 0 = none
  watch : w.watches 0 = none

theorem Ordered.noZero (h : Ordered w armed count) : NoZero w :=
  ⟨h.nextTimeout 0 (Or.inl rfl), h.nextWatch 0 (Or.inl rfl)⟩

theorem Armed.congr {armed' : PeerId → Prop} (h : Armed w armed)
    (ha : ∀ p priv, w.heap p = some priv → (armed' p ↔ armed p)) : Armed w armed' :=
  ⟨fun p priv hp harm => h.on p priv hp ((ha p priv hp).1 harm),
    fun p priv hp hno => h.off p priv hp (mt (ha p priv hp).2 hno), h.timeout, h.watch⟩

theorem Armed.ids (h : Armed w armed) (hp : w.heap p = some priv) :
    w.timeouts priv.timeoutId = some p ∧
        w.watches priv.nameWatchId = some ⟨priv.bus, priv.name, p⟩ ∨
      priv.timeoutId = 0 ∧ priv.nameWatchId = 0 :=
  (em (armed p)).imp (h.on p priv hp) (h.off p priv hp)

/-- A peer that is in order can be disposed of. -/
theorem Armed.inUse (h : Armed w armed) (h0 : NoZero w) (hp : w.heap p = some priv) :
    InUse w.timeouts priv.timeoutId ∧ InUse w.watches priv.nameWatchId := by
  have ⟨ht, hw⟩ := h0
  unfold InUse
  rcases h.ids hp with ⟨hon1, hon2⟩ | ⟨hoff1, hoff2⟩
  · simp [hon1, hon2, ht, hw]
  · simp [hoff1, hoff2, ht, hw]

theorem Ordered.inUse (h : Ordered w armed count) (hp : w.heap p = some priv) :
    InUse w.timeouts priv.timeoutId ∧ InUse w.watches priv.nameWatchId :=
  h.toArmed.inUse h.noZero hp

theorem Armed.disarm (h : Armed w armed) (h0 : NoZero w) (hp : w.heap p = some priv) :
    Armed (w.disarm p priv) fun q => armed q ∧ q ≠ p := by
  have hids := h.ids hp
  have ⟨h1, h2, h3, h4⟩ := h
  have ⟨h5, h6⟩ := h0
  constructor <;> simp only [World.disarm, Function.update_apply] <;> grind

theorem Ordered.disarm (h : Ordered w armed count) (hp : w.heap p = some priv) :
    Ordered (w.disarm p priv) (fun q => armed q ∧ q ≠ p) count := by
  have harmed := h.toArmed.disarm h.noZero hp
  have ⟨_, h1, h2, h3, h4, h5, h6, h7, h8, h9, h10⟩ := h
  refine ⟨harmed, ?_, ?_, ?_, ?_, ?_, ?_, ?_, ?_, ?_, ?_⟩ <;>
    simp only [World.disarm, Function.update_apply] <;> grind

theorem frame_disarm (hp : w.heap p = some priv) : PeerFrame w (w.disarm p priv) := by
  constructor <;> simp only [World.disarm, Function.update_apply, SameData] <;> grind

/-! Giving up a reference. -/

/-- After the last reference was given up. -/
def World.free (w : World) (p : PeerId) (priv : DAPeerPriv) : World :=
  { w with
    heap := Function.update w.heap p none
    groups := Function.update w.groups p false
    timeouts := Function.update w.timeouts priv.timeoutId none
    watches := Function.update w.watches priv.nameWatchId none
    finalized := Function.update w.finalized p (w.finalized p + 1) }

/-- After `da_peer_unref`. -/
def World.release (w : World) (p : PeerId) (priv : DAPeerPriv) : World :=
  if priv.refCount = 1 then w.free p priv
  else w.setPeer p { priv with refCount := priv.refCount - 1 }

@[simp] theorem release_daBus (w : World) (p : PeerId) (priv : DAPeerPriv) :
    (w.release p priv).daBus = w.daBus := by
  unfold World.release
  split_ifs <;> rfl

@[simp] theorem release_refs (w : World) (p : PeerId) (priv : DAPeerPriv) :
    (w.release p priv).refs = w.refs := by
  unfold World.release
  split_ifs <;> rfl

theorem release_heap_of_ne (w : World) (priv : DAPeerPriv) {q : PeerId} (hq : q ≠ p) :
    (w.release p priv).heap q = w.heap q := by
  unfold World.release
  split_ifs <;> exact Function.update_of_ne hq ..

theorem update_false {f : ℕ → Bool} {id : ℕ} (h : f id = false) :
    Function.update f id false = f := by
  rw [← h, Function.update_eq_self]

theorem daCredPrivCleanup_eq (hp : w.heap p = some priv)
    (hg : w.groups p = priv.cred.groups.isSome) :
    daCredPrivCleanup w p = some ({ w with groups := Function.update w.groups p false }.setPeer p
      { priv with cred := ⟨none⟩ }) := by
  obtain ⟨pub, ⟨groups⟩, bus, name, refCount, tid, wid⟩ := priv
  cases groups with
  | none =>
    rw [Option.isSome_none] at hg
    simp [daCredPrivCleanup, hp, update_false hg, World.setPeer, update_some hp]
  | some ids =>
    rw [Option.isSome_some] at hg
    simp [daCredPrivCleanup, hp, hg]

theorem daPeerFinalize_eq (hp : w.heap p = some priv) (ht : InUse w.timeouts priv.timeoutId)
    (hw : InUse w.watches priv.nameWatchId) (hg : w.groups p = priv.cred.groups.isSome) :
    daPeerFinalize w p = some { w with
      heap := Function.update w.heap p (some { priv with cred := ⟨none⟩ })
      groups := Function.update w.groups p false
      timeouts := Function.update w.timeouts priv.timeoutId none
      watches := Function.update w.watches priv.nameWatchId none
      finalized := Function.update w.finalized p (w.finalized p + 1) } := by
  simp only [daPeerFinalize, hp, Option.bind_eq_bind, Option.bind_some]
  refine (unwatchName_eq (w := { w with
    finalized := Function.update w.finalized p (w.finalized p + 1) }) _ hw).trans ?_
  refine (removeTimeout_eq (fun w => daCredPrivCleanup w p) ?_).trans ?_
  · exact ht
  exact daCredPrivCleanup_eq hp hg

theorem daPeerUnref_eq (hp : w.heap p = some priv) (ht : InUse w.timeouts priv.timeoutId)
    (hw : InUse w.watches priv.nameWatchId) (hg : w.groups p = priv.cred.groups.isSome) :
    daPeerUnref w p = some (w.release p priv) := by
  simp only [daPeerUnref, hp, Option.bind_eq_bind, Option.bind_some, World.release]
  by_cases hr : priv.refCount = 1
  · have hset : (w.setPeer p { priv with refCount := priv.refCount - 1 }).heap p =
        some { priv with refCount := priv.refCount - 1 } := Function.update_self ..
    rw [if_pos (dec_eq_zero.2 hr), if_pos hr, daPeerFinalize_eq hset ht hw hg, Option.bind_some]
    simp [World.free, World.setPeer]
  · rw [if_neg (mt dec_eq_zero.1 hr), if_neg hr]

theorem Ordered.groups_eq (h : Ordered w armed count) (hp : w.heap p = some priv) :
    w.groups p = priv.cred.groups.isSome := by
  rw [Bool.eq_iff_iff, h.groups p]
  simp [hp]

theorem Ordered.unref_eq (h : Ordered w armed count) (hp : w.heap p = some priv) :
    daPeerUnref w p = some (w.release p priv) :=
  daPeerUnref_eq hp (h.inUse hp).1 (h.inUse hp).2 (h.groups_eq hp)

theorem Armed.release (h : Armed w armed) (h0 : NoZero w) (hp : w.heap p = some priv) :
    Armed (w.release p priv) armed := by
  have hids := h.ids hp
  have ⟨h1, h2, h3, h4⟩ := h
  have ⟨h5, h6⟩ := h0
  unfold World.release
  split_ifs
  · constructor <;> simp only [World.free, Function.update_apply] <;> grind
  · constructor <;> simp only [World.setPeer, Function.update_apply] <;> grind

theorem Ordered.release (h : Ordered w armed count) (hp : w.heap p = some priv) :
    Ordered (w.release p priv) (fun q => armed q ∧ (q = p → 1 < count p))
      (Function.update count p (count p - 1)) := by
  have harmed := h.toArmed.release h.noZero hp
  obtain ⟨hcount, hpos, hroom⟩ := h.live p priv hp
  have hlast : priv.refCount = 1 ↔ count p = 1 := hcount ▸ ofNat_eq_one hpos hroom
  have hdec : priv.refCount - 1 = Int32.ofNat (count p - 1) := hcount ▸ ofNat_dec hpos
  have ⟨_, h1, h2, h3, h4, h5, h6, h7, h8, h9, h10⟩ := h
  unfold World.release at *
  split_ifs at * with hr
  · refine ⟨harmed.congr ?_, ?_, ?_, ?_, ?_, ?_, ?_, ?_, ?_, ?_, ?_⟩ <;>
      simp only [World.free, Function.update_apply] <;> grind
  · refine ⟨harmed.congr ?_, ?_, ?_, ?_, ?_, ?_, ?_, ?_, ?_, ?_, ?_⟩ <;>
      simp only [World.setPeer, Function.update_apply] <;> grind

theorem frame_release (hp : w.heap p = some priv) : PeerFrame w (w.release p priv) := by
  unfold World.release
  split_ifs with hr
  · constructor <;> simp only [World.free, Function.update_apply, SameData] <;> grind
  · constructor <;> simp only [World.setPeer, Function.update_apply, SameData] <;> grind

/-! Taking a reference, and a new timeout. -/

theorem daPeerRef_eq (hp : w.heap p = some priv) :
    daPeerRef w p = some (w.setPeer p { priv with refCount := priv.refCount + 1 }) := by
  simp [daPeerRef, hp]

theorem Armed.ref (h : Armed w armed) (hp : w.heap p = some priv) :
    Armed (w.setPeer p { priv with refCount := priv.refCount + 1 }) armed := by
  have ⟨h1, h2, h3, h4⟩ := h
  constructor <;> simp only [World.setPeer, Function.update_apply] <;> grind

theorem Ordered.ref (h : Ordered w armed count) (hp : w.heap p = some priv)
    (hroom : count p < 2 ^ 32) :
    Ordered (w.setPeer p { priv with refCount := priv.refCount + 1 }) armed
      (Function.update count p (count p + 1)) := by
  have harmed := h.toArmed.ref hp
  have hinc : priv.refCount + 1 = Int32.ofNat (count p + 1) :=
    (h.live p priv hp).1 ▸ ofNat_inc (count p)
  have ⟨_, h1, h2, h3, h4, h5, h6, h7, h8, h9, h10⟩ := h
  refine ⟨harmed, ?_, ?_, ?_, ?_, ?_, ?_, ?_, ?_, ?_, ?_⟩ <;>
    simp only [World.setPeer, Function.update_apply] <;> grind

/-- After `da_peer_reset_timeout`. -/
def World.renew (w : World) (p : PeerId) (priv : DAPeerPriv) : World :=
  { w with
    heap := Function.update w.heap p (some { priv with timeoutId := w.nextTimeout })
    timeouts := Function.update (Function.update w.timeouts priv.timeoutId none) w.nextTimeout
      (some p)
    nextTimeout := w.nextTimeout + 1 }

theorem daPeerResetTimeout_eq (hp : w.heap p = some priv) (ht : InUse w.timeouts priv.timeoutId) :
    daPeerResetTimeout w p = some (w.renew p priv) := by
  simp only [daPeerResetTimeout, hp, Option.bind_eq_bind, Option.bind_some]
  refine (removeTimeout_eq (fun w => some ((gTimeoutAddSeconds w p).1.setPeer p
    { priv with timeoutId := (gTimeoutAddSeconds w p).2 })) ht).trans ?_
  rfl

theorem Armed.renew (h : Armed w armed) (hnew : w.timeouts w.nextTimeout = none)
    (hp : w.heap p = some priv) (ha : armed p) : Armed (w.renew p priv) armed := by
  have ⟨h1, h2, h3, h4⟩ := h
  constructor <;> simp only [World.renew, Function.update_apply] <;> grind

theorem Ordered.renew (h : Ordered w armed count) (hp : w.heap p = some priv) (ha : armed p) :
    Ordered (w.renew p priv) armed count := by
  have harmed := h.toArmed.renew (h.nextTimeout _ (Or.inr le_rfl)) hp ha
  have ⟨_, h1, h2, h3, h4, h5, h6, h7, h8, h9, h10⟩ := h
  refine ⟨harmed, ?_, ?_, ?_, ?_, ?_, ?_, ?_, ?_, ?_, ?_⟩ <;>
    simp only [World.renew, Function.update_apply] <;> grind

theorem frame_setPeer {priv' : DAPeerPriv} (hp : w.heap p = some priv)
    (hs : SameData priv priv') : PeerFrame w (w.setPeer p priv') := by
  constructor <;> simp only [World.setPeer, Function.update_apply, SameData] at * <;> grind

theorem frame_renew (hp : w.heap p = some priv) : PeerFrame w (w.renew p priv) := by
  constructor <;> simp only [World.renew, Function.update_apply, SameData] <;> grind

/-! A new peer. -/

def newPeer (w : World) (b : DABus) (name : CString) : DAPeerPriv where
  pub := { bus := .SYSTEM, name := name, pid := 0, cred := .zero }
  cred := ⟨none⟩
  bus := b
  name := name
  refCount := 1
  timeoutId := w.nextTimeout
  nameWatchId := w.nextWatch

/-- After `da_peer_new`. -/
def World.create (w : World) (b : DABus) (name : CString) : World :=
  { w with
    heap := Function.update w.heap w.nextPeer (some (newPeer w b name))
    timeouts := Function.update w.timeouts w.nextTimeout (some w.nextPeer)
    watches := Function.update w.watches w.nextWatch (some ⟨b, name, w.nextPeer⟩)
    nextPeer := w.nextPeer + 1
    nextTimeout := w.nextTimeout + 1
    nextWatch := w.nextWatch + 1 }

theorem daPeerNew_eq (name : CString) (h0 : w.timeouts 0 = none)
    (hc : (w.daBus b).connection = true) :
    daPeerNew w b name = some (w.create b name, w.nextPeer) := by
  have huse : InUse w.timeouts 0 := by simp [InUse, h0]
  simp only [daPeerNew, Option.bind_eq_bind]
  rw [daPeerResetTimeout_eq (Function.update_self ..) huse, Option.bind_some]
  simp [World.renew, World.setPeer, gBusWatchName, hc, update_none h0, World.create, newPeer]

/-- After `da_peer_fill_cred` found a file. -/
def World.fill (w : World) (p : PeerId) (priv : DAPeerPriv) (cred : DACred)
    (credPriv : DACredPriv) : World :=
  { w with groups := Function.update w.groups p credPriv.groups.isSome }.setPeer p
    { priv with pub.cred := cred, cred := credPriv }

theorem daPeerFillCred_eq {pid : UInt32} {data : List UInt8} {ok : Bool} {cred : DACred}
    {credPriv : DACredPriv} (hp : w.heap p = some priv)
    (hdata : out.gFileGetContents (statusFile pid) = some data)
    (hparse : daCredParse priv.pub.cred priv.cred data = .ok (ok, cred, credPriv)) :
    daPeerFillCred w p pid out = some (w.fill p priv cred credPriv, ok) := by
  simp [daPeerFillCred, hdata, hp, hparse, World.fill]

/-! Tables. -/

theorem gHashTableFind_eq (name : CString) {table : List Entry}
    (h : ∀ e ∈ table, (w.heap e.key).isSome = true) :
    gHashTableFind w name table = some (table.find? fun e => w.nameOf e.key == some name) := by
  induction table with
  | nil => rfl
  | cons e table ih =>
    obtain ⟨he, htable⟩ := List.forall_mem_cons.1 h
    obtain ⟨priv, hpriv⟩ := Option.isSome_iff_exists.1 he
    simp only [gHashTableFind, hpriv, Option.bind_eq_bind, Option.bind_some, ih htable]
    by_cases hn : priv.name = name
    · simp [World.nameOf, hpriv, hn]
    · simp [World.nameOf, hpriv, hn]

end DbusAccess
