import DbusAccess.Proofs.PeerRuns
import DbusAccess.Spec.NameOwner

/-! Whether the cache settles on the owners of the names, for every order of changes,
registrations and notices. -/

namespace DbusAccess

open Transition

variable {s s' : BusWorld} {w w' : World} {acts : List BusEvent} {a : BusEvent} {id : ℕ}
  {p : PeerId} {priv : DAPeerPriv} {watch : NameWatch}

/-- Beside the bus the cache runs as it does alone. -/
theorem bus_run_world (h : Run busSystem acts s) : ∃ events, Run peerSystem events s.world := by
  refine h.project BusWorld.world rfl fun s a s' hen hex => ?_
  cases a with
  | client e =>
    right
    obtain ⟨w, hw, rfl⟩ := Option.map_eq_some_iff.1 hex
    exact ⟨e, hen.1, hw⟩
  | change bus name owner =>
    left
    exact Option.some_inj.1 hex ▸ rfl
  | register id =>
    left
    obtain ⟨watch, -, hs⟩ := Option.bind_eq_some_iff.1 hex
    exact Option.some_inj.1 hs ▸ rfl
  | deliver id =>
    right
    obtain ⟨w, hw, hs⟩ := Option.bind_eq_some_iff.1 hex
    exact ⟨.vanished id, hen.1, Option.some_inj.1 hs ▸ hw⟩

theorem bus_run_reached (h : Run busSystem acts s) : Reached s.world := by
  obtain ⟨events, hrun⟩ := bus_run_world h
  exact run_reached hrun

/-- What the bus has registered and sent concerns watches that have been started. -/
structure Sent (s : BusWorld) : Prop where
  old : ∀ id, s.registered id = true → id < s.world.nextWatch
  silent : ∀ id, s.registered id = false → s.notices id = 0

/-- A registered watch has a notice on its way, or the cached peer is the process of
the owner. -/
def Watched (s : BusWorld) : Prop :=
  ∀ id watch priv, s.world.watches id = some watch → s.world.heap watch.data = some priv →
    s.registered id = true → 0 < s.notices id ∨
      ∃ o, s.owner watch.bus watch.name = some o ∧ priv.pub.pid = toInt o.pid.toNat

theorem Reached.nextWatch_le (h : Reached w) {e : Event} (hex : e.exec w = some w') :
    w.nextWatch ≤ w'.nextWatch := by
  rcases (h.step hex).2 with hframe | ⟨_, _, _, _, _, hadded⟩
  · exact hframe.nextWatch
  · exact hadded.nextWatch

/-- An event leaves what old watches are for and what their peers say. -/
theorem Reached.watch_step (h : Reached w) {e : Event} (hex : e.exec w = some w')
    (hid : id < w.nextWatch) (hwatch : w'.watches id = some watch)
    (hp : w'.heap watch.data = some priv) :
    w.watches id = some watch ∧ ∃ priv', w.heap watch.data = some priv' ∧ priv.pub = priv'.pub := by
  rcases (h.step hex).2 with hframe | ⟨_, _, _, _, _, hadded⟩
  · obtain ⟨priv', hpriv', hs⟩ := hframe.heap _ _ hp
    exact ⟨hframe.watches id watch hwatch, priv', hpriv', hs.1⟩
  · have hold := (hadded.watches id watch hwatch).resolve_right fun hn => hid.not_ge hn.1
    have hne : watch.data ≠ w.nextPeer := fun heq =>
      h.shape.not_cached_new (heq ▸ (h.watch_cached hold).1)
    rw [hadded.other _ hne] at hp
    exact ⟨hold, priv, hp, rfl⟩

/-- The watch of a removed peer is gone. -/
theorem evict_watches (w : World) (p : PeerId) (priv : DAPeerPriv) (e : Entry) :
    (w.evict p priv e).watches priv.nameWatchId = none := by
  unfold World.evict World.unlink World.cleanup World.release
  split_ifs <;>
    simp [World.setPeer, World.setBus, World.free, World.setPeers, Function.update_apply]

theorem Reached.vanished_watch (h : Reached w) (hex : (Event.vanished id).exec w = some w') :
    w'.watches id = none := by
  obtain ⟨watch, hwatch, hremove⟩ := Option.bind_eq_some_iff.1 hex
  obtain ⟨hcached, priv, hpriv, rfl⟩ := h.watch_cached hwatch
  rw [h.shape.evict_eq h.names hpriv (h.shape.cached_mem hpriv hcached) hremove]
  exact evict_watches ..

theorem Sent.step (h : Sent s) (hreached : Reached s.world) (hen : a.enabled s)
    (hex : a.exec s = some s') : Sent s' := by
  cases a with
  | client e =>
    obtain ⟨w, hw, rfl⟩ := Option.map_eq_some_iff.1 hex
    exact ⟨fun id hid => (h.old id hid).trans_le (hreached.nextWatch_le hw), h.silent⟩
  | change bus name owner =>
    obtain rfl := Option.some_inj.1 hex
    refine ⟨h.old, fun id hid => ?_⟩
    have hid' : s.registered id = false := hid
    have hsilent := h.silent id hid'
    dsimp only
    split
    · simp [hid', hsilent]
    · exact hsilent
  | register id =>
    obtain ⟨watch, hwatch, hs⟩ := Option.bind_eq_some_iff.1 hex
    obtain rfl := Option.some_inj.1 hs
    refine ⟨fun id' hid' => ?_, fun id' hid' => ?_⟩
    · by_cases heq : id' = id
      · subst heq
        by_contra hle
        rw [hreached.shape.watches id' (Or.inr (not_lt.1 hle))] at hwatch
        cases hwatch
      · exact h.old id' (by simpa [heq] using hid')
    · have hne : id' ≠ id := by
        rintro rfl
        simp at hid'
      have hid'' : s.registered id' = false := by simpa [hne] using hid'
      dsimp only
      split_ifs
      · rw [Function.update_of_ne hne, h.silent id' hid'']
      · exact h.silent id' hid''
  | deliver id =>
    obtain ⟨w, hw, hs⟩ := Option.bind_eq_some_iff.1 hex
    obtain rfl := Option.some_inj.1 hs
    refine ⟨fun id' hid' => ?_, fun id' hid' => ?_⟩
    · exact (h.old id' hid').trans_le (hreached.nextWatch_le (e := .vanished id) hw)
    · have hsilent := h.silent id' hid'
      dsimp only
      rw [Function.update_apply]
      split_ifs with heq
      · rw [← heq, hsilent]
      · exact hsilent

/-- Calls and callbacks leave what is known of the registered watches. -/
theorem Watched.event (h : Watched s) (hsent : Sent s) (hreached : Reached s.world) {e : Event}
    (hw : e.exec s.world = some w) (hwatch : w.watches id = some watch)
    (hp : w.heap watch.data = some priv) (hreg : s.registered id = true) : 0 < s.notices id ∨
      ∃ o, s.owner watch.bus watch.name = some o ∧ priv.pub.pid = toInt o.pid.toNat := by
  obtain ⟨hold, priv', hpriv', hpub⟩ := hreached.watch_step hw (hsent.old id hreg) hwatch hp
  rw [hpub]
  exact h id watch priv' hold hpriv' hreg

/-- The watches of an owner that is gone get their notices. -/
theorem Watched.change (h : Watched s) {bus : DABus} {name : CString} {owner : Option Owner}
    (hex : (BusEvent.change bus name owner).exec s = some s') : Watched s' := by
  obtain rfl := Option.some_inj.1 hex
  intro id watch priv hwatch hp hreg
  rcases h id watch priv hwatch hp hreg with hnotice | ⟨o, ho, hpid⟩
  · left
    dsimp only
    split
    · split_ifs <;> omega
    · exact hnotice
  · by_cases heq : watch.bus = bus ∧ watch.name = name
    · left
      obtain ⟨rfl, rfl⟩ := heq
      have hwatch' : s.world.watches id = some watch := hwatch
      have hreg' : s.registered id = true := hreg
      simp [hwatch', hreg', ho]
    · right
      refine ⟨o, ?_, hpid⟩
      dsimp only
      by_cases hb : watch.bus = bus
      · rw [hb, Function.update_self, Function.update_of_ne fun hn => heq ⟨hb, hn⟩, ← hb, ho]
      · rw [Function.update_of_ne hb, ho]

/-- A timely registration sends a notice or finds the process that the cache knows. -/
theorem Watched.register (h : Watched s) {id' : ℕ}
    (hex : (BusEvent.register id').exec s = some s') (ht : Timely s (.register id')) :
    Watched s' := by
  obtain ⟨watch', hwatch', hs⟩ := Option.bind_eq_some_iff.1 hex
  obtain rfl := Option.some_inj.1 hs
  intro id watch priv hwatch hp hreg
  by_cases heq : id = id'
  · subst heq
    obtain rfl : watch' = watch := by simpa [hwatch'] using hwatch
    cases ho : s.owner watch'.bus watch'.name with
    | none =>
      left
      simp
    | some o => exact Or.inr ⟨o, rfl, ht watch' priv o hwatch' hp ho⟩
  · have hreg' : s.registered id = true := by simpa [heq] using hreg
    rcases h id watch priv hwatch hp hreg' with hnotice | howner
    · left
      dsimp only
      split_ifs
      · rwa [Function.update_of_ne heq]
      · exact hnotice
    · exact Or.inr howner

theorem Watched.step (h : Watched s) (hsent : Sent s) (hreached : Reached s.world)
    (hen : a.enabled s) (hex : a.exec s = some s') (ht : Timely s a) : Watched s' := by
  cases a with
  | client e =>
    intro id watch priv hwatch hp hreg
    obtain ⟨w, hw, rfl⟩ := Option.map_eq_some_iff.1 hex
    exact h.event hsent hreached hw hwatch hp hreg
  | change bus name owner => exact h.change hex
  | register id' => exact h.register hex ht
  | deliver id' =>
    intro id watch priv hwatch hp hreg
    obtain ⟨w, hw, hs⟩ := Option.bind_eq_some_iff.1 hex
    obtain rfl := Option.some_inj.1 hs
    -- the watch that is told is gone with its peer
    have hne : id ≠ id' := by
      rintro rfl
      rw [hreached.vanished_watch hw] at hwatch
      cases hwatch
    dsimp only
    rw [Function.update_of_ne hne]
    exact h.event (e := .vanished id') hsent hreached hw hwatch hp hreg

theorem run_sent (h : Run busSystem acts s) : Sent s := by
  refine h.induct_history (I := fun _ s => Sent s) ?_ ?_
  · constructor <;> simp [busSystem, BusWorld.init]
  · exact fun acts s a s' hrun hsent hen hex => hsent.step (bus_run_reached hrun) hen hex

/-- All registrations of a run are timely. -/
def AllTimely (acts : List BusEvent) : Prop :=
  ∀ before a after s, acts = before ++ a :: after → Run busSystem before s → Timely s a

theorem run_watched (h : Run busSystem acts s) (ht : AllTimely acts) : Watched s := by
  revert ht
  refine h.induct_history (I := fun acts s => AllTimely acts → Watched s) ?_ ?_
  · intro _ id watch priv hwatch
    cases hwatch
  · intro acts s a s' hrun ih hen hex ht
    have hprev : AllTimely acts := by
      rintro before b after t rfl ht'
      exact ht before b (after ++ [a]) t (by simp) ht'
    exact (ih hprev).step (run_sent hrun) (bus_run_reached hrun) hen hex (ht acts a [] s rfl hrun)

theorem Watched.settled (h : Watched s) : Settled s := by
  intro bus name p priv id _ hp _ hwatch hreg hsilent
  rcases h id ⟨bus, name, p⟩ priv hwatch hp hreg with hnotice | howner
  · rw [hsilent id ⟨bus, name, p⟩ hwatch rfl rfl] at hnotice
    cases hnotice
  · exact howner

/-- An active watch is that of the cached peer with its bus and name. -/
theorem Tied.watch_peer (h : Tied w) (hwatch : w.watches id = some watch) :
    ⟨watch.data, watch.data⟩ ∈ w.table watch.bus ∧ ∃ priv, w.heap watch.data = some priv ∧
      priv.nameWatchId = id ∧ watch.name = priv.name := by
  obtain ⟨p, priv, hcached, hpriv, hid, rfl⟩ := (h.watches_iff id watch).1 hwatch
  exact ⟨h.shape.cached_mem hpriv hcached, priv, hpriv, hid, rfl⟩

theorem Tied.watch_unique (h : Tied w) {id' : ℕ} {watch' : NameWatch}
    (hwatch : w.watches id = some watch) (hwatch' : w.watches id' = some watch')
    (hbus : watch'.bus = watch.bus) (hname : watch'.name = watch.name) : id' = id := by
  obtain ⟨hmem, priv, hpriv, rfl, hn⟩ := h.watch_peer hwatch
  obtain ⟨hmem', priv', hpriv', rfl, hn'⟩ := h.watch_peer hwatch'
  rw [hbus] at hmem'
  have hsame : w.nameOf watch'.data = some watch.name := by
    rw [nameOf_eq hpriv', ← hn', hname]
  have hentry := h.names.names _ _ hmem _ hmem' watch.name (hn ▸ nameOf_eq hpriv) hsame
  have hdata : watch.data = watch'.data := congrArg Entry.value hentry
  rw [hdata, hpriv'] at hpriv
  rw [Option.some_inj.1 hpriv]

/-- A registration that is not timely leaves the peer of a process that does not own
the name, and no notice. -/
theorem timely_of_settled (h : Run busSystem acts s) (hen : (BusEvent.register id).enabled s)
    (hex : (BusEvent.register id).exec s = some s') (hs : Settled s') :
    Timely s (.register id) := by
  intro watch priv o hwatch hp ho
  have hreached := bus_run_reached h
  have hsent := run_sent h
  obtain ⟨watch', hwatch', hs'⟩ := Option.bind_eq_some_iff.1 hex
  obtain rfl : watch' = watch := by simpa [hwatch'] using hwatch
  obtain rfl := Option.some_inj.1 hs'
  obtain ⟨hmem, priv', hpriv', -, hname⟩ := hreached.watch_peer hwatch
  obtain rfl : priv' = priv := by simpa [hpriv'] using hp
  have hne : s.owner watch'.bus watch'.name ≠ none := by simp [ho]
  have hsilent : ∀ id' watch, s.world.watches id' = some watch → watch.bus = watch'.bus →
      watch.name = watch'.name → s.notices id' = 0 := by
    intro id' watch hid' hb hn
    rw [hreached.watch_unique hwatch hid' hb hn]
    exact hsent.silent id hen.2
  obtain ⟨o', ho', hpid⟩ := hs watch'.bus watch'.name watch'.data priv' id ⟨_, hmem, rfl⟩ hp
    hname.symm hwatch (by simp) (by simpa [if_neg hne] using hsilent)
  rw [show o = o' from Option.some_inj.1 (ho.symm.trans ho')]
  exact hpid

/-- In every run, all states are settled exactly when every registration is timely. -/
theorem settled_iff_timely (acts : List BusEvent) (s : BusWorld) (h : Run busSystem acts s) :
    (∀ before after t, acts = before ++ after → Run busSystem before t → Settled t) ↔
      ∀ before a after t, acts = before ++ a :: after → Run busSystem before t → Timely t a := by
  apply Iff.intro
  · rintro hall before a after t rfl hrun
    cases a with
    | register id =>
      rw [← List.singleton_append, ← List.append_assoc] at h
      obtain ⟨t', hrun'⟩ := h.left
      obtain ⟨t2, hrun2, hen, hex⟩ := hrun'.snoc_inv
      obtain rfl := hrun2.functional hrun
      exact timely_of_settled hrun2 hen hex (hall _ after t' (by simp) hrun')
    | client e => trivial
    | change bus name owner => trivial
    | deliver id => trivial
  · rintro ht before after t rfl hrun
    refine (run_watched hrun ?_).settled
    rintro before' a after' t' rfl hrun'
    exact ht before' a (after' ++ after) t' (by simp) hrun'

/-- A name changes its owner while its watch is registered in time. -/
def exampleChange : List BusEvent :=
  [.change .SYSTEM (str ":1.1") (some ⟨1, 77⟩), .client (exampleRequest .SYSTEM), .register 1,
    .change .SYSTEM (str ":1.1") (some ⟨2, 78⟩), .deliver 1]

theorem settled_iff_timely_change : ∃ s, Run busSystem exampleChange s ∧
    ((∀ before after t, exampleChange = before ++ after → Run busSystem before t → Settled t) ↔
      ∀ before a after t, exampleChange = before ++ a :: after → Run busSystem before t →
        Timely t a) := by
  obtain ⟨s, hs⟩ := Option.isSome_iff_exists.1 (show (busSystem.replay .init
    exampleChange).isSome = true by decide +kernel)
  have hrun := Run.nil.replay hs
  exact ⟨s, hrun, settled_iff_timely exampleChange s hrun⟩

/-- The name changes its owner between the answer and the registration. -/
def exampleRace : List BusEvent :=
  [.change .SYSTEM (str ":1.1") (some ⟨1, 77⟩), .client (exampleRequest .SYSTEM),
    .change .SYSTEM (str ":1.1") (some ⟨2, 78⟩)]

/-- What the cache and the bus know of the process behind the name. -/
def pids (s : BusWorld) : Option ℤ × Option UInt32 :=
  ((s.world.heap 0).map fun priv => priv.pub.pid, (s.owner .SYSTEM (str ":1.1")).map Owner.pid)

/-- The cache settles on a process that has lost the name. -/
theorem settled_fails : ¬ ∀ acts s, Run busSystem acts s → Settled s := by
  intro hall
  obtain ⟨s, hs⟩ := Option.isSome_iff_exists.1 (show (busSystem.replay .init
    exampleRace).isSome = true by decide +kernel)
  have hrun : Run busSystem exampleRace s := Run.nil.replay hs
  have hen : ((busSystem.replay .init exampleRace).map fun s =>
      ((s.world.watches 1), s.registered 1, pids s)) =
        some (some ⟨.SYSTEM, str ":1.1", 0⟩, false, some 77, some 78) := by
    decide +kernel
  rw [hs, Option.map_some, Option.some_inj] at hen
  simp only [Prod.mk.injEq, pids, Option.map_eq_some_iff] at hen
  obtain ⟨hwatch, hreg, ⟨priv, hp, hpid⟩, ⟨o, ho, hopid⟩⟩ := hen
  have henabled : busSystem.enabled s (.register 1) :=
    ⟨show (s.world.watches 1).isSome = true by simp [hwatch], hreg⟩
  obtain ⟨s', hex⟩ : ∃ s', busSystem.exec s (.register 1) = some s' := by
    simp [busSystem, BusEvent.exec, hwatch]
  have hrun' : Run busSystem (exampleRace ++ [.register 1]) s' :=
    hrun.snoc henabled hex
  have ht := timely_of_settled hrun henabled hex (hall _ s' hrun')
  have hsame := ht _ priv o hwatch hp ho
  rw [hpid, hopid] at hsame
  exact absurd hsame (by decide)

end DbusAccess
