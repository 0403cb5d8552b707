import DbusAccess.Proofs.Directory
import DbusAccess.Proofs.SelfShared
import DbusAccess.Spec.Timing

/-! How long a peer stays in the cache after it was returned last, and how old the
shared instance can get. -/

namespace DbusAccess

open Timers Transition

variable {w w' : World} {p q : PeerId} {priv : DAPeerPriv} {b : DABus} {e : Event} {id t : ℕ}

/-! Only requests start timeouts. -/

/-- No new timeouts. -/
def Fewer (w w' : World) : Prop := ∀ id q, w'.timeouts id = some q → w.timeouts id = some q

theorem Fewer.trans {w1 : World} (h : Fewer w w1) (h' : Fewer w1 w') : Fewer w w' :=
  fun id q hid => h id q (h' id q hid)

theorem daPeerCleanup_fewer (hex : daPeerCleanup w b = some w') : Fewer w w' := by
  obtain ⟨table, -, hex⟩ := Option.bind_eq_some_iff.1 hex
  split_ifs at hex <;> obtain rfl := Option.some.inj hex <;> exact fun _ _ hid => hid

theorem gHashTableRemove_fewer {name : CString} (hex : gHashTableRemove w b name = some w') :
    Fewer w w' := by
  obtain ⟨table, -, hex⟩ := Option.bind_eq_some_iff.1 hex
  obtain ⟨found, -, hex⟩ := Option.bind_eq_some_iff.1 hex
  cases found with
  | none =>
    obtain rfl := Option.some.inj hex
    exact fun _ _ hid => hid
  | some e => exact (daPeerUnref_quiet _ _ _ hex).timeouts

theorem daPeerRemove_fewer (hex : daPeerRemove w p = some w') : Fewer w w' := by
  obtain ⟨priv, -, hex⟩ := Option.bind_eq_some_iff.1 hex
  obtain ⟨w1, h1, hex⟩ := Option.bind_eq_some_iff.1 hex
  obtain ⟨priv1, -, hex⟩ := Option.bind_eq_some_iff.1 hex
  obtain ⟨w2, h2, hex⟩ := Option.bind_eq_some_iff.1 hex
  have hdispose : Fewer w w1 := (daPeerDispose_quiet _ _ _ h1).timeouts
  exact (hdispose.trans (gHashTableRemove_fewer h2)).trans (daPeerCleanup_fewer hex)

theorem daPeerBus_fewer (w : World) (type : DABus) (init : Bool) (out : Outside) :
    Fewer w (daPeerBus w type init out).1 := by
  unfold daPeerBus
  simp only
  split_ifs <;> exact fun _ _ hid => hid

theorem daPeerFlush_fewer {type : DABus} {name : Option CString}
    (hex : daPeerFlush w type name = some w') : Fewer w w' := by
  have hbus := daPeerBus_fewer w type false ⟨false, none, fun _ => none⟩
  unfold daPeerFlush at hex
  generalize daPeerBus w type false ⟨false, none, fun _ => none⟩ = r at hbus hex
  obtain ⟨w0, bus⟩ := r
  cases bus with
  | none =>
    obtain rfl := Option.some.inj hex
    exact hbus
  | some bus =>
    cases name with
    | some name =>
      obtain ⟨found, -, hex⟩ := Option.bind_eq_some_iff.1 hex
      cases found with
      | none =>
        obtain rfl := Option.some.inj hex
        exact hbus
      | some p => exact Fewer.trans hbus (daPeerRemove_fewer hex)
    | none =>
      obtain ⟨table, -, hex⟩ := Option.bind_eq_some_iff.1 hex
      obtain ⟨w1, h1, hex⟩ := Option.bind_eq_some_iff.1 hex
      obtain ⟨w2, h2, h3⟩ := Option.bind_eq_some_iff.1 hex
      obtain ⟨table', -, h2⟩ := Option.bind_eq_some_iff.1 h2
      have hfold1 : Fewer w0 w1 :=
        (Quiet.foldlM (fun w e => daPeerDispose_quiet w _) table w0 w1 h1).timeouts
      have hfold2 : Fewer w1 w2 :=
        (Quiet.foldlM (fun w e => daPeerUnref_quiet w _) table' _ w2 h2).timeouts
      exact ((Fewer.trans hbus hfold1).trans hfold2).trans (daPeerCleanup_fewer h3)

theorem Event.exec_fewer (hex : e.exec w = some w') (he : ∀ type name out, e ≠ .get type name out) :
    Fewer w w' := by
  cases e with
  | get type name out => exact absurd rfl (he type name out)
  | ref peer =>
    cases peer with
    | none =>
      obtain rfl := Option.some.inj hex
      exact fun _ _ hid => hid
    | some p =>
      obtain ⟨priv, -, hex⟩ := Option.bind_eq_some_iff.1 hex
      obtain rfl := Option.some.inj hex
      exact fun _ _ hid => hid
  | unref peer =>
    cases peer with
    | none =>
      obtain rfl := Option.some.inj hex
      exact fun _ _ hid => hid
    | some p => exact (daPeerUnref_quiet _ _ _ hex).timeouts
  | flush type name => exact daPeerFlush_fewer hex
  | timeout id =>
    obtain ⟨p, -, hex⟩ := Option.bind_eq_some_iff.1 hex
    obtain ⟨w1, h1, hex⟩ := Option.bind_eq_some_iff.1 hex
    obtain ⟨priv, -, h1⟩ := Option.bind_eq_some_iff.1 h1
    obtain rfl := Option.some.inj hex
    have hremove := daPeerRemove_fewer h1
    intro id' q hid
    simp only [Function.update_apply] at hid
    split_ifs at hid
    exact hremove id' q hid
  | vanished id =>
    obtain ⟨watch, -, hex⟩ := Option.bind_eq_some_iff.1 hex
    exact daPeerRemove_fewer hex

/-- A request that does not find its peer adds it to the cache. -/
theorem Inv.cached_new (h : Inv w) {type : DABus} {name : CString} {out : Outside}
    (hnone : w.directory.entry type name = none)
    (hget : daPeerGet w type (some name) out = some (w', some p)) (q : PeerId) :
    w'.Cached q ↔ w.Cached q ∨ q = p := by
  obtain ⟨-, htable, -⟩ := h.get_new hnone hget
  have hmem : ∀ b e, e ∈ w'.table b ↔ e ∈ w.table b ∨ b = type ∧ e = ⟨p, p⟩ := by
    intro b e
    rw [htable]
    split_ifs with hb <;> simp [hb, or_comm]
  apply Iff.intro
  · rintro ⟨b, e, he, rfl⟩
    rcases (hmem b e).1 he with he | ⟨-, rfl⟩
    · exact Or.inl ⟨b, e, he, rfl⟩
    · exact Or.inr rfl
  · rintro (⟨b, e, he, rfl⟩ | rfl)
    · exact ⟨b, e, (hmem b e).2 (Or.inl he), rfl⟩
    · exact ⟨type, _, (hmem type _).2 (Or.inr ⟨rfl, rfl⟩), rfl⟩

/-- A request starts a timeout for the peer that it returns, and no other one. -/
theorem Inv.get_timeouts (h : Inv w) {type : DABus} {name : CString} {out : Outside}
    {r : Option PeerId} (hget : daPeerGet w type (some name) out = some (w', r))
    (hid : w'.timeouts id = some q) :
    w.timeouts id = some q ∧ r ≠ some q ∨ w.timeouts id = none ∧ r = some q := by
  have h' := h.after_get hget
  cases r with
  | none =>
    have hsame := ((h.toReached.get hget).2.2 rfl).timeouts
    rw [hsame] at hid
    exact Or.inl ⟨hid, by simp⟩
  | some p =>
    cases hentry : w.directory.entry type name with
    | some p' =>
      obtain ⟨hcached, priv, hpriv, rfl, rfl⟩ := h.core.entry_iff.1 hentry
      rw [h.get_found hpriv hcached, Option.some.injEq, Prod.mk.injEq] at hget
      obtain ⟨rfl, hp⟩ := hget
      obtain rfl := Option.some.inj hp
      have hfree := h.ordered.nextTimeout w.nextTimeout (Or.inr le_rfl)
      simp only [World.renew, Function.update_apply] at hid
      split_ifs at hid with hnext hold
      · exact Or.inr ⟨hnext ▸ hfree, hid⟩
      · -- another timeout of the peer would be its old one
        refine Or.inl ⟨hid, fun hq => hold ?_⟩
        obtain ⟨-, priv', hpriv', rfl⟩ := h.timeout_cached hid
        obtain rfl := Option.some.inj hq
        rw [Option.some.inj (hpriv.symm.trans hpriv')]
    | none =>
      have hcached := h.cached_new hentry hget
      obtain ⟨rfl, -, hother, -⟩ := h.get_new hentry hget
      have htimeouts : ∀ id q, q ≠ w.nextPeer →
          (w'.timeouts id = some q ↔ w.timeouts id = some q) := by
        intro id q hq
        rw [h'.timeouts_iff, h.timeouts_iff, hcached, hother q hq]
        simp [hq]
      by_cases hq : q = w.nextPeer
      · subst hq
        refine Or.inr ⟨?_, rfl⟩
        rw [Option.eq_none_iff_forall_ne_some]
        intro q hold
        have hne : q ≠ w.nextPeer := fun hq =>
          h.shape.not_cached_new (hq ▸ (h.timeout_cached hold).1)
        have hboth := ((htimeouts id q hne).2 hold).symm.trans hid
        exact hne (Option.some.inj hboth)
      · exact Or.inl ⟨(htimeouts id q hq).1 hid, fun heq => hq (Option.some.inj heq).symm⟩

/-- What a step in time does to a timeout that is there afterwards. -/
theorem Inv.step_timeouts (h : Inv w) (hex : e.exec w = some w') (hid : w'.timeouts id = some q) :
    w.timeouts id = some q ∧ (∀ type name out w2, e = .get type (some name) out →
        daPeerGet w type (some name) out ≠ some (w2, some q)) ∨
      w.timeouts id = none ∧ ∃ type name out, e = .get type (some name) out ∧
        daPeerGet w type (some name) out = some (w', some q) := by
  by_cases he : ∀ type name out, e ≠ .get type name out
  · exact Or.inl ⟨Event.exec_fewer hex he id q hid,
      fun type name out _ heq => absurd heq (he type _ out)⟩
  simp only [not_forall, not_not] at he
  obtain ⟨type, name, out, rfl⟩ := he
  cases name with
  | none =>
    obtain rfl := Option.some.inj hex
    exact Or.inl ⟨hid, fun _ _ _ _ heq => by cases heq⟩
  | some name =>
    obtain ⟨⟨w2, r⟩, hget, rfl⟩ := Option.map_eq_some_iff.1 hex
    rcases h.get_timeouts hget hid with ⟨hold, hr⟩ | ⟨hnew, rfl⟩
    · refine Or.inl ⟨hold, ?_⟩
      rintro type' name' out' w3 heq hget'
      rw [Event.get.injEq, Option.some.injEq] at heq
      obtain ⟨rfl, rfl, rfl⟩ := heq
      rw [hget] at hget'
      exact hr (Prod.mk.inj (Option.some.inj hget')).2
    · exact Or.inr ⟨hnew, type, name, out, rfl, hget⟩

/-! Peers in time. -/

variable {early late : ℕ} {c c' : Clocked World} {acts : List (TimedAct Event)}

/-- The last request that returned a peer started its timeout. -/
def Renewed (early late : ℕ) (acts : List (TimedAct Event)) (c : Clocked World) : Prop :=
  ∀ id q, c.state.timeouts id = some q →
    (∃ t, Occurred (peerTiming early late).system (ReturnedAt q t) acts ∧
      c.due id = t + DBUSACCESS_PEER_TIMEOUT_SEC) ∧
    ∀ t, Occurred (peerTiming early late).system (ReturnedAt q t) acts →
      t + DBUSACCESS_PEER_TIMEOUT_SEC ≤ c.due id

theorem peer_interval (early late : ℕ) (w : World) (id : ℕ) :
    (peerTiming early late).interval w id =
      (w.timeouts id).map fun _ => DBUSACCESS_PEER_TIMEOUT_SEC := rfl

theorem timed_inv (h : Run (peerTiming early late).system acts c) : Inv c.state := by
  obtain ⟨acts', hrun⟩ := Timed.untimed h
  exact run_inv hrun

/-- No request is in the future. -/
theorem returned_le {t : ℕ} (h : Run (peerTiming early late).system acts c)
    (ht : Occurred (peerTiming early late).system (ReturnedAt q t) acts) : t ≤ c.now := by
  obtain ⟨before, a, after, c0, rfl, hc0, rfl, -⟩ := ht
  exact Timed.now_le hc0 le_rfl h

theorem Renewed.step (hr : Renewed early late acts c)
    (h : Run (peerTiming early late).system acts c) {x : TimedAct Event}
    (hex : (peerTiming early late).exec c x = some c') : Renewed early late (acts ++ [x]) c' := by
  intro id q hid
  have hsnoc : ∀ t, Occurred (peerTiming early late).system (ReturnedAt q t) (acts ++ [x]) ↔
      Occurred (peerTiming early late).system (ReturnedAt q t) acts ∨ ReturnedAt q t c x :=
    fun t => h.occurred_snoc
  cases x with
  | tick =>
    obtain rfl := Option.some.inj hex
    obtain ⟨⟨t, ht, hdue⟩, hall⟩ := hr id q hid
    refine ⟨⟨t, ht.snoc _, hdue⟩, fun t ht => ?_⟩
    rcases (hsnoc t).1 ht with ht | ⟨-, _, _, _, _, heq, -⟩
    · exact hall t ht
    · cases heq
  | act e =>
    obtain ⟨hstep, -, hdue⟩ := Timed.exec_act hex
    rcases (timed_inv h).step_timeouts hstep hid with ⟨hold, hnot⟩ | ⟨hfree, hget⟩
    · obtain ⟨⟨t, ht, hdue'⟩, hall⟩ := hr id q hold
      rw [hdue, Timed.start_of_pending (n := DBUSACCESS_PEER_TIMEOUT_SEC)
        (by rw [peer_interval, hold]; rfl)]
      refine ⟨⟨t, ht.snoc _, hdue'⟩, fun t ht => ?_⟩
      rcases (hsnoc t).1 ht with ht | ⟨-, type, name, out, w2, heq, hget⟩
      · exact hall t ht
      · exact absurd hget (hnot type name out w2 (TimedAct.act.inj heq))
    · obtain ⟨type, name, out, rfl, hget⟩ := hget
      rw [hdue, Timed.start_new (n := DBUSACCESS_PEER_TIMEOUT_SEC)
        (by rw [peer_interval, hfree]; rfl) (by rw [peer_interval, hid]; rfl)]
      refine ⟨⟨c.now, h.occurred ⟨rfl, type, name, out, _, rfl, hget⟩, rfl⟩, fun t ht => ?_⟩
      rcases (hsnoc t).1 ht with ht | ⟨rfl, -⟩
      · exact Nat.add_le_add_right (returned_le h ht) _
      · exact le_rfl

theorem run_renewed (h : Run (peerTiming early late).system acts c) :
    Renewed early late acts c := by
  refine h.induct_history (I := fun acts c => Renewed early late acts c) ?_ ?_
  · intro id q hid
    cases hid
  · intro acts c x c' hrun hr _ hex
    exact hr.step hrun hex

/-- In every run in time in which no count comes round, a cached peer was returned by a
request at most the timeout ago, and it does not time out before that time has passed since
a request returned it. -/
theorem peer_expiry (early late : ℕ) (acts : List (TimedAct Event)) (c : Clocked World)
    (h : Run (peerTiming early late).system acts c) :
    (∀ p, c.state.Cached p → ∃ t,
      Occurred (peerTiming early late).system (ReturnedAt p t) acts ∧ t ≤ c.now ∧
      c.now ≤ t + DBUSACCESS_PEER_TIMEOUT_SEC + late) ∧
    ∀ id p t, c.state.timeouts id = some p →
      (peerTiming early late).enabled c (.act (.timeout id)) →
      Occurred (peerTiming early late).system (ReturnedAt p t) acts →
      t + DBUSACCESS_PEER_TIMEOUT_SEC ≤ c.now + early := by
  have hr := run_renewed h
  refine ⟨fun p hcached => ?_, fun id p t hid hen ht => ?_⟩
  · obtain ⟨priv, hpriv⟩ := (timed_inv h).core.live hcached
    have hid := ((timed_inv h).ordered.on p priv hpriv hcached).1
    obtain ⟨⟨t, ht, hdue⟩, -⟩ := hr _ p hid
    have hlate := Timed.not_overdue h priv.timeoutId (by rw [peer_interval, hid]; rfl)
    rw [hdue] at hlate
    exact ⟨t, ht, returned_le h ht, hlate⟩
  · exact ((hr id p hid).2 t ht).trans (hen.2 id rfl)

/-- A second after the timeout of a peer is due, when the main loop may be as late. -/
theorem peer_expiry_late : ∃ c,
    Run (peerTiming 1 1).system
      ([.act (exampleRequest .SYSTEM)] ++ List.replicate 31 .tick) c ∧ c.now = 31 ∧
    (∀ p, c.state.Cached p → ∃ t, Occurred (peerTiming 1 1).system (ReturnedAt p t)
        ([.act (exampleRequest .SYSTEM)] ++ List.replicate 31 .tick) ∧ t ≤ c.now ∧
      c.now ≤ t + DBUSACCESS_PEER_TIMEOUT_SEC + 1) ∧
    ∀ id p t, c.state.timeouts id = some p →
      (peerTiming 1 1).enabled c (.act (.timeout id)) →
      Occurred (peerTiming 1 1).system (ReturnedAt p t)
        ([.act (exampleRequest .SYSTEM)] ++ List.replicate 31 .tick) →
      t + DBUSACCESS_PEER_TIMEOUT_SEC ≤ c.now + 1 := by
  obtain ⟨w, hw⟩ := Option.isSome_iff_exists.1 (show
    ((exampleRequest .SYSTEM).exec .init).isSome = true by decide +kernel)
  have hex : countedPeers.exec .init (exampleRequest .SYSTEM) = some w := hw
  have hnil : Run (peerTiming 1 1).system [] ⟨.init, 0, fun _ => 0⟩ := .nil
  have hen : (peerTiming 1 1).enabled ⟨.init, 0, fun _ => 0⟩ (.act (exampleRequest .SYSTEM)) :=
    ⟨⟨trivial, trivial⟩, fun id hid => by cases hid⟩
  have hstart := Timed.step hnil hen hex
  have hrun := Timed.ticks hstart 31 fun id hid => by
    obtain ⟨p, hp⟩ := Option.isSome_iff_exists.1 ((Option.isSome_map ..).symm.trans hid)
    have hp' : w.timeouts id = some p := hp
    have hdue : (peerTiming 1 1).start ⟨.init, 0, fun _ => 0⟩ w id = 0 + 30 :=
      Timed.start_new rfl (by rw [peer_interval, hp']; rfl)
    change 0 + 31 ≤ (peerTiming 1 1).start ⟨.init, 0, fun _ => 0⟩ w id + 1
    rw [hdue]
  exact ⟨_, hrun, rfl, peer_expiry 1 1 _ _ hrun⟩

/-! The shared instance in time. -/

section

variable {w w' : SelfWorld} {p : ProcId} {out : SelfOutside} {e : SelfEvent}
  {c c' : Clocked SelfWorld} {acts : List (TimedAct SelfEvent)}

/-- The instance that is shared was made when its timer was started. -/
def Fresh (early late : ℕ) (acts : List (TimedAct SelfEvent)) (c : Clocked SelfWorld) : Prop :=
  ∀ p, c.state.selfShared = some p → ∃ t sec,
    Occurred (selfTiming early late).system (SharedAt p t sec) acts ∧
      c.due c.state.selfSharedTimeoutId = t + sec

theorem self_interval (early late : ℕ) (w : SelfWorld) (id : ℕ) :
    (selfTiming early late).interval w id = (w.timer id).map SelfTimer.interval := rfl

/-- A new shared instance starts a timer of its own. -/
theorem newShared_made (hp : w.selfShared = none)
    (hex : (SelfEvent.newShared out).exec w = some w') :
    ∃ w1 self, daSelfNewShared w out = some (w1, self) ∧ w'.selfShared = self ∧
      w'.selfSharedTimeoutId = w.nextTimer ∧
      w'.timers = ⟨w.nextTimer, out.sec, self⟩ :: w.timers := by
  obtain ⟨⟨w1, self⟩, hnew, hex⟩ := Option.bind_eq_some_iff.1 hex
  refine ⟨w1, self, hnew, ?_⟩
  rw [daSelfNewShared_eq hp] at hnew
  obtain ⟨⟨w2, self'⟩, -, hnew⟩ := Option.bind_eq_some_iff.1 hnew
  obtain ⟨procs, -, hnew⟩ := Option.bind_eq_some_iff.1 hnew
  obtain ⟨rfl, rfl⟩ := Prod.mk.inj (Option.some.inj hnew)
  obtain rfl := Option.some.inj hex
  exact ⟨rfl, rfl, rfl⟩

/-- What an event leaves of the shared instance. -/
theorem SelfShape.shared_step (h : SelfShape w) (hen : e.enabled w) (hex : e.exec w = some w')
    (hp : w'.selfShared = some p) :
    w.selfShared = some p ∧ w'.selfSharedTimeoutId = w.selfSharedTimeoutId ∧
        w'.timers = w.timers ∨
      w.selfShared = none ∧ ∃ out w1, e = .newShared out ∧
        daSelfNewShared w out = some (w1, some p) ∧ w'.selfSharedTimeoutId = w.nextTimer ∧
        w'.timers = ⟨w.nextTimer, out.sec, some p⟩ :: w.timers := by
  cases (h.exec hen hex).2.moved with
  | client procs => exact Or.inl ⟨hp, rfl, rfl⟩
  | made out procs sec self hnone =>
    obtain ⟨w1, self', hnew, hself, hid, htimers⟩ := newShared_made hnone hex
    obtain rfl : self' = some p := hself.symm.trans hp
    exact Or.inr ⟨hnone, out, w1, rfl, hnew, hid, htimers⟩
  | idle | flushed | expired => cases hp

theorem timed_selfShape {early late : ℕ} (h : Run (selfTiming early late).system acts c) :
    SelfShape c.state := by
  obtain ⟨acts', hrun⟩ := Timed.untimed h
  exact self_run_shape hrun

theorem Fresh.step {early late : ℕ} (hf : Fresh early late acts c)
    (h : Run (selfTiming early late).system acts c) {x : TimedAct SelfEvent}
    (hen : (selfTiming early late).enabled c x) (hex : (selfTiming early late).exec c x = some c') :
    Fresh early late (acts ++ [x]) c' := by
  intro p hp
  cases x with
  | tick =>
    obtain rfl := Option.some.inj hex
    obtain ⟨t, sec, ht, hdue⟩ := hf p hp
    exact ⟨t, sec, ht.snoc _, hdue⟩
  | act e =>
    have hshape := timed_selfShape h
    obtain ⟨hstep, -, hdue'⟩ := Timed.exec_act hex
    rw [hdue']
    rcases hshape.shared_step hen.1 hstep hp with ⟨hold, hid, -⟩ | ⟨hnone, out, w1, rfl, hnew, hid, ht⟩
    · obtain ⟨t, sec, ht, hdue⟩ := hf p hold
      obtain ⟨timer, htimer, -⟩ := hshape.timer_pending (hshape.shared (by rw [hold]; rfl))
      refine ⟨t, sec, ht.snoc _, ?_⟩
      rw [hid, Timed.start_of_pending (n := timer.interval) (by rw [self_interval, htimer]; rfl)]
      exact hdue
    · refine ⟨c.now, out.sec, h.occurred ⟨rfl, hnone, out, w1, rfl, rfl, hnew⟩, ?_⟩
      rw [hid]
      refine Timed.start_new ?_ ?_
      · rw [self_interval, Option.map_eq_none_iff, SelfWorld.timer, List.find?_eq_none]
        intro t ht
        have := (hshape.ids t ht).2
        simp only [beq_iff_eq]
        omega
      · rw [self_interval, SelfWorld.timer, ht]
        simp

theorem run_fresh {early late : ℕ} (h : Run (selfTiming early late).system acts c) :
    Fresh early late acts c := by
  refine h.induct_history (I := fun acts c => Fresh early late acts c) ?_ ?_
  · intro p hp
    cases hp
  · intro acts c x c' hrun hf hen hex
    exact hf.step hrun hen hex

/-- In every run in time, the instance that `da_self_new_shared` returns was made at most so
many seconds ago as the environment said then. -/
theorem self_freshness (early late : ℕ) (acts : List (TimedAct SelfEvent)) (c : Clocked SelfWorld)
    (w' : SelfWorld) (out : SelfOutside) (p : ProcId)
    (h : Run (selfTiming early late).system acts c)
    (hget : daSelfNewShared c.state out = some (w', some p)) : ∃ t sec,
      Occurred (selfTiming early late).system (SharedAt p t sec) (acts ++ [.act (.newShared out)]) ∧
      t ≤ c.now ∧ c.now ≤ t + sec + late := by
  cases hp : c.state.selfShared with
  | none =>
    refine ⟨c.now, out.sec, h.occurred ⟨rfl, hp, out, w', rfl, rfl, hget⟩, le_rfl, ?_⟩
    omega
  | some q =>
    obtain rfl : q = p := by
      rw [daSelfNewShared, hp] at hget
      obtain ⟨w1, h1, hget⟩ := Option.bind_eq_some_iff.1 hget
      obtain rfl := Option.some.inj h1
      obtain ⟨w2, -, hget⟩ := Option.bind_eq_some_iff.1 hget
      exact Option.some.inj (hp.symm.trans (Prod.mk.inj (Option.some.inj hget)).2)
    obtain ⟨t, sec, ht, hdue⟩ := run_fresh h q hp
    have hshape := timed_selfShape h
    obtain ⟨timer, htimer, -⟩ := hshape.timer_pending (hshape.shared (by rw [hp]; rfl))
    have hlate := Timed.not_overdue h c.state.selfSharedTimeoutId
      (by rw [self_interval, htimer]; rfl)
    rw [hdue] at hlate
    refine ⟨t, sec, ht.snoc _, ?_, hlate⟩
    obtain ⟨before, x, after, c0, rfl, hc0, rfl, -⟩ := ht
    exact Timed.now_le hc0 le_rfl h

theorem self_freshness_again : ∃ c w',
    Run (selfTiming 1 1).system ([.act (.newShared exampleSelf)] ++ List.replicate 20 .tick) c ∧
    daSelfNewShared c.state exampleSelf = some (w', some 0) ∧ ∃ t sec,
      Occurred (selfTiming 1 1).system (SharedAt 0 t sec)
        ([.act (.newShared exampleSelf)] ++ List.replicate 20 .tick ++
          [.act (.newShared exampleSelf)]) ∧
      t ≤ c.now ∧ c.now ≤ t + sec + 1 := by
  have hsome : (((SelfEvent.newShared exampleSelf).exec .init).bind fun w =>
      (daSelfNewShared w exampleSelf).bind Prod.snd) = some 0 := by
    decide +kernel
  obtain ⟨w, hw, hget⟩ := Option.bind_eq_some_iff.1 hsome
  obtain ⟨⟨w', r⟩, hget, rfl⟩ := Option.bind_eq_some_iff.1 hget
  have hex : selfSystem.exec .init (.newShared exampleSelf) = some w := hw
  have hnil : Run (selfTiming 1 1).system [] ⟨.init, 0, fun _ => 0⟩ := .nil
  have hen : (selfTiming 1 1).enabled ⟨.init, 0, fun _ => 0⟩ (.act (.newShared exampleSelf)) :=
    ⟨trivial, fun id hid => by cases hid⟩
  have htimers : w.timers = [⟨1, 30, some 0⟩] := by
    have htimers : ((SelfEvent.newShared exampleSelf).exec .init).map SelfWorld.timers =
        some [⟨1, 30, some 0⟩] := by
      decide +kernel
    rw [hw] at htimers
    exact Option.some.inj htimers
  have hrun := Timed.ticks (Timed.step hnil hen hex) 20 fun id hid => by
    obtain ⟨timer, htimer⟩ := Option.isSome_iff_exists.1 ((Option.isSome_map ..).symm.trans hid)
    have hdue : (selfTiming 1 1).start ⟨.init, 0, fun _ => 0⟩ w id = 0 + timer.interval :=
      Timed.start_new rfl (by rw [self_interval]; exact congrArg (Option.map _) htimer)
    have htimer' : timer = ⟨1, 30, some 0⟩ := by
      have hmem := List.mem_of_find?_eq_some (show w.timers.find? (·.id == id) = some timer from htimer)
      rw [htimers] at hmem
      exact List.mem_singleton.1 hmem
    change 0 + 20 ≤ (selfTiming 1 1).start ⟨.init, 0, fun _ => 0⟩ w id + 1
    rw [hdue, htimer']
    decide
  exact ⟨_, w', hrun, hget, self_freshness 1 1 _ _ w' exampleSelf 0 hrun hget⟩

end

end DbusAccess
