import DbusAccess.Proofs.CredParse
import DbusAccess.Proofs.PeerGet

/-! The cache in every run: what each event does to it, the invariant, and what the
peers that requests return say. -/

namespace DbusAccess

open Classical Counters Transition

variable {w w' : World} {p q : PeerId} {priv : DAPeerPriv} {out : Outside} {b b' : DABus}
  {e : Event} {name : CString} {acts : List Event}

/-! Events. -/

theorem Reached.step {e : Event} (h : Reached w) (hex : e.exec w = some w') :
    Reached w' ∧ (PeerFrame w w' ∨ ∃ type name out, e = .get type (some name) out ∧
      daPeerGet w type (some name) out = some (w', some w.nextPeer) ∧
        Added w w' type name out) := by
  cases e with
  | get type name out =>
    obtain ⟨⟨w1, r⟩, hget, rfl⟩ := Option.map_eq_some_iff.1 hex
    cases name with
    | none =>
      obtain ⟨rfl, -⟩ := Prod.mk.inj (Option.some.inj hget)
      exact ⟨h, Or.inl (.refl w)⟩
    | some name =>
      obtain ⟨hreached, hanswer, -⟩ := h.get hget
      refine ⟨hreached, ?_⟩
      rcases hanswer with hanswer | ⟨rfl, hadded⟩
      · exact Or.inl hanswer.1
      · exact Or.inr ⟨type, name, out, rfl, hget, hadded⟩
  | ref peer =>
    cases peer with
    | none =>
      obtain rfl := Option.some.inj hex
      exact ⟨h, Or.inl (.refl w)⟩
    | some p => exact (h.ref _ hex).imp_right Or.inl
  | unref peer =>
    cases peer with
    | none =>
      obtain rfl := Option.some.inj hex
      exact ⟨h, Or.inl (.refl w)⟩
    | some p => exact (h.unref _ hex).imp_right Or.inl
  | flush type name => exact (h.flush hex).imp_right Or.inl
  | timeout id => exact (h.timeout hex).imp_right Or.inl
  | vanished id => exact (h.vanished hex).imp_right Or.inl

theorem reached_init : Reached .init := by
  refine ⟨⟨?_, ?_, ?_⟩, fun b => ?_⟩
  · constructor <;> simp [World.table, World.init]
  · constructor <;> simp [World.init]
  · constructor <;> simp [World.table, World.init]
  · simp [BusClosed, World.table, World.init]

theorem run_reached {acts : List Event} (h : Run peerSystem acts w) : Reached w :=
  h.invariant reached_init fun _ _ _ hreached _ hex => (hreached.step hex).1

theorem Inv.evict (h : Inv w) (hp : w.heap p = some priv) (hcached : w.Cached p) :
    daPeerRemove w p = some (w.evict p priv ⟨p, p⟩) ∧ Inv (w.evict p priv ⟨p, p⟩) := by
  have hmem := h.shape.cached_mem hp hcached
  exact ⟨h.core.remove hp hcached (h.open_of_mem hmem), (h.toReached.evict hp hmem).1,
    (h.core.evict hp hmem).ordered⟩

theorem Inv.flush (h : Inv w) (type : DABus) (name : Option CString) :
    ∃ w', daPeerFlush w type name = some w' ∧ Inv w' := by
  suffices hends : ∃ w', daPeerFlush w type name = some w' ∧ Core w' by
    obtain ⟨w', hex, hcore⟩ := hends
    exact ⟨w', hex, (h.toReached.flush hex).1, hcore.ordered⟩
  rcases daPeerBus_cases (h.closed type) false ⟨false, none, fun _ => none⟩ with
    ⟨hb, -⟩ | ⟨hb, -, hsame⟩
  · exact ⟨w, by simp [daPeerFlush, hb], h.core⟩
  have hpeers : (w.daBus type).peers.isSome = true := by
    rw [← hsame rfl]
    exact (connect_open w type).2
  rw [hsame rfl] at hb
  cases name with
  | none =>
    obtain ⟨table, ht⟩ := Option.isSome_iff_exists.1 hpeers
    obtain ⟨w1, w2, h1, h2, h3, hcore⟩ := h.core.flushAll ht
    refine ⟨w2.cleanup type, ?_, hcore⟩
    simp [daPeerFlush, hb, ht, h1, h2, h3]
  | some name =>
    obtain ⟨r, hlookup⟩ := h.core.lookup hpeers name
    cases r with
    | none => exact ⟨w, by simp [daPeerFlush, hb, hlookup], h.core⟩
    | some p =>
      obtain ⟨priv, hpriv, -, -, hmem⟩ := h.shape.lookup hlookup
      obtain ⟨hremove, hinv⟩ := h.evict hpriv ⟨type, _, hmem, rfl⟩
      exact ⟨_, by simp [daPeerFlush, hb, hlookup, hremove], hinv.core⟩

theorem World.references_le (w : World) (p : PeerId) : w.references p ≤ w.refs p + 1 := by
  unfold World.references
  split_ifs <;> omega

theorem Inv.ref (h : Inv w) (hp : w.heap p = some priv) (hroom : w.refs p + 1 < 2 ^ 32) :
    ∃ w', daPeerRef (w.setRefs p (w.refs p + 1)) p = some w' ∧ Inv w' := by
  have hp' : (w.setRefs p (w.refs p + 1)).heap p = some priv := hp
  have hex := daPeerRef_eq hp'
  refine ⟨_, hex, (h.toReached.ref _ hex).1, ?_⟩
  have hcount := (w.references_le p).trans_lt hroom
  refine ((h.ordered.setRefs p _).ref hp' hcount).congr (fun _ => Iff.rfl) fun q => ?_
  rw [Function.update_apply]
  change Function.update w.refs p (w.refs p + 1) q + (if w.Cached q then 1 else 0) = _
  rw [Function.update_apply]
  unfold World.references
  split_ifs with hq <;> grind

/-- Giving up a reference never frees a cached peer. -/
theorem Inv.unref (h : Inv w) (hr : 0 < w.refs p) :
    ∃ w', daPeerUnref (w.setRefs p (w.refs p - 1)) p = some w' ∧ Inv w' := by
  have hpos : 0 < w.references p := hr.trans_le (Nat.le_add_right ..)
  obtain ⟨priv, hp⟩ : ∃ priv, w.heap p = some priv := by
    rw [← Option.isSome_iff_exists, Option.isSome_iff_ne_none]
    exact fun hnone => hpos.ne' (h.ordered.freed p hnone).1
  have hp' : (w.setRefs p (w.refs p - 1)).heap p = some priv := hp
  have horder := h.ordered.setRefs p (w.refs p - 1)
  have htwo : w.Cached p → 1 < w.references p := by
    intro hcached
    unfold World.references
    rw [if_pos hcached]
    omega
  have htable : ∀ b, ((w.setRefs p (w.refs p - 1)).release p priv).table b = w.table b := by
    intro b
    rw [World.table, release_daBus]
    rfl
  have hrefs : ((w.setRefs p (w.refs p - 1)).release p priv).refs =
      Function.update w.refs p (w.refs p - 1) := by
    rw [release_refs]
    rfl
  have hex := horder.unref_eq hp'
  refine ⟨_, hex, (h.toReached.unref _ hex).1, (horder.release hp').congr (fun q => ?_) fun q => ?_⟩
  · rw [cached_congr htable]
    exact ⟨fun hq => ⟨hq, fun heq => htwo (heq ▸ hq)⟩, fun hq => hq.1⟩
  · simp only [World.references, cached_congr htable, hrefs, Function.update_apply]
    split_ifs with hq <;> grind

/-- What one event does: the only failure is that of the parser. -/
theorem Inv.step (h : Inv w) (he : e.enabled w) (hf : e.fits w) :
    (e.exec w = none ∧ e.faults) ∨ ∃ w', e.exec w = some w' ∧ Inv w' := by
  cases e with
  | get type name out =>
    cases name with
    | none => exact Or.inr ⟨w, rfl, h⟩
    | some name =>
      rcases h.get type name out with ⟨hnone, hfaults⟩ | ⟨w', r, hget, hinv⟩
      · exact Or.inl ⟨by simp [Event.exec, hnone], hfaults⟩
      · exact Or.inr ⟨w', by simp [Event.exec, hget], hinv⟩
  | ref peer =>
    cases peer with
    | none => exact Or.inr ⟨w, rfl, h⟩
    | some p =>
      obtain ⟨priv, hpriv⟩ := Option.isSome_iff_exists.1 he
      obtain ⟨w', hex, hinv⟩ := h.ref hpriv hf
      exact Or.inr ⟨w', hex, hinv⟩
  | unref peer =>
    cases peer with
    | none => exact Or.inr ⟨w, rfl, h⟩
    | some p =>
      obtain ⟨w', hex, hinv⟩ := h.unref he
      exact Or.inr ⟨w', hex, hinv⟩
  | flush type name =>
    obtain ⟨w', hex, hinv⟩ := h.flush type name
    exact Or.inr ⟨w', hex, hinv⟩
  | timeout id =>
    obtain ⟨p, hp⟩ := Option.isSome_iff_exists.1 he
    obtain ⟨hcached, priv, hpriv, rfl⟩ := h.timeout_cached hp
    obtain ⟨-, hinv⟩ := h.evict hpriv hcached
    have hopen := h.open_of_mem (h.shape.cached_mem hpriv hcached)
    obtain ⟨w', hex, hw'⟩ := h.core.timeout hpriv hcached hopen
    refine Or.inr ⟨w.evict p priv ⟨p, p⟩, ?_, hinv⟩
    simp [Event.exec, hp, hex, ← hw']
  | vanished id =>
    obtain ⟨watch, hwatch⟩ := Option.isSome_iff_exists.1 he
    obtain ⟨hcached, priv, hpriv, -⟩ := h.watch_cached hwatch
    obtain ⟨hex, hinv⟩ := h.evict hpriv hcached
    refine Or.inr ⟨_, ?_, hinv⟩
    simp [Event.exec, hwatch, daPeerVanished, hex]

/-! Runs. -/

theorem inv_init : Inv .init := by
  have hcached : ∀ p, ¬ World.init.Cached p := by
    rintro p ⟨b, e, he, -⟩
    cases he
  have harmed : Armed .init fun _ => False := by
    constructor <;> simp [World.init]
  have hordered : Ordered .init (fun _ => False) (fun _ => 0) := by
    refine ⟨harmed, ?_, ?_, ?_, ?_, ?_, ?_, ?_, ?_, ?_, ?_⟩ <;> simp [World.init]
  refine ⟨reached_init, hordered.congr (fun p => iff_false_intro (hcached p)) fun p => ?_⟩
  unfold World.references
  rw [if_neg (hcached p)]
  rfl

/-- A reference can also be taken when there is no room for it. -/
theorem Inv.failure (h : Inv w) (he : e.enabled w) (hnone : e.exec w = none) : e.faults := by
  by_cases hf : e.fits w
  · rcases h.step he hf with ⟨-, hfaults⟩ | ⟨w', hex, -⟩
    · exact hfaults
    · rw [hnone] at hex
      cases hex
  · cases e with
    | ref peer =>
      cases peer with
      | none => exact absurd trivial hf
      | some p =>
        obtain ⟨priv, hp⟩ := Option.isSome_iff_exists.1 he
        have hp' : (w.setRefs p (w.refs p + 1)).heap p = some priv := hp
        rw [Event.exec, daPeerRef_eq hp'] at hnone
        cases hnone
    | _ => exact absurd trivial hf

theorem run_inv (h : Run countedPeers acts w) : Inv w := by
  refine h.invariant inv_init fun w e w' hinv hen hex => ?_
  rcases hinv.step hen.1 hen.2 with ⟨hnone, -⟩ | ⟨w2, hex2, hinv2⟩
  · rw [show e.exec w = some w' from hex] at hnone
    cases hnone
  · rw [show e.exec w = some w' from hex] at hex2
    exact Option.some_inj.1 hex2 ▸ hinv2

/-- A cached peer has exactly the timeout and the watch it knows of. -/
theorem Inv.cacheInvariant (h : Inv w) : CacheInvariant w where
  names b := by
    refine List.Nodup.map_on (fun e he f hf hef => ?_) (h.names.nodup b)
    exact h.core.name_unique he hf hef.symm
  ownName b e he := by
    obtain ⟨hkey, priv, hpriv, -⟩ := h.core.entry he
    refine ⟨priv, hpriv, ?_, h.shape.name _ _ hpriv⟩
    rw [hkey]
    exact nameOf_eq hpriv
  timeout p hcached := by
    obtain ⟨priv, hpriv⟩ := h.core.live hcached
    refine ⟨priv.timeoutId, (h.armed.on p priv hpriv hcached).1, fun id hid => ?_⟩
    obtain ⟨-, priv', hpriv', rfl⟩ := h.timeout_cached hid
    rw [Option.some_inj.1 (hpriv.symm.trans hpriv')]
  watch p hcached := by
    obtain ⟨priv, hpriv⟩ := h.core.live hcached
    refine ⟨priv.nameWatchId, ⟨_, (h.armed.on p priv hpriv hcached).2, rfl⟩, ?_⟩
    rintro id ⟨watch, hwatch, rfl⟩
    obtain ⟨-, priv', hpriv', rfl⟩ := h.watch_cached hwatch
    rw [Option.some_inj.1 (hpriv.symm.trans hpriv')]
  timeoutCached id p hid := (h.timeout_cached hid).1
  watchCached id watch hid := (h.watch_cached hid).1
  connection b := by
    obtain ⟨h1, h2⟩ := h.closed b
    apply Iff.intro
    · intro hc
      obtain ⟨table, htable⟩ := Option.isSome_iff_exists.1 (h2.2 hc)
      have hne := h1.1 hc
      rw [World.table, htable] at hne
      exact ⟨table, htable, hne⟩
    · rintro ⟨table, htable, hne⟩
      rw [h1, World.table, htable]
      exact hne

theorem Outside.faults.not_parses (h : out.faults) : ¬ out.parses := by
  obtain ⟨pid, data, fault, -, hdata, hfault⟩ := h
  intro hp
  obtain ⟨r, hr⟩ := hp pid data hdata
  rw [hfault] at hr
  cases hr

theorem Event.faults.not_parses (h : e.faults) : ¬ e.parses := by
  cases e with
  | get type name out =>
    cases name with
    | none => exact h.elim
    | some name => exact Outside.faults.not_parses h
  | _ => exact h.elim

/-- Between the events of every run in which no count comes round the cache is in order,
and every event of such a run completes unless the parser leaves its bounds. -/
theorem peerCache_invariant (acts : List Event) (w : World) (h : Run countedPeers acts w) :
    CacheInvariant w ∧ ∀ e : Event, e.enabled w → e.parses → ∃ w', e.exec w = some w' := by
  have hinv := run_inv h
  refine ⟨hinv.cacheInvariant, fun e he hp => ?_⟩
  rw [← Option.isSome_iff_exists, Option.isSome_iff_ne_none]
  exact fun hnone => (hinv.failure he hnone).not_parses hp

/-- Answers of the surroundings for a process with status. -/
def exampleOutside : Outside where
  gBusGetSync := true
  pid := some 77
  gFileGetContents _ := some (str "Uid:\t1\t2\t3\t4\nGid:\t1\t2\t3\t4\nGroups:\t5 6 \n")

def exampleRequest (type : DABus) : Event := .get type (some (str ":1.1")) exampleOutside

theorem peerCache_invariant_timeout :
    ∃ w, Run countedPeers
        [exampleRequest .SYSTEM, .ref (some 0), exampleRequest .SESSION, .timeout 1] w ∧
      CacheInvariant w ∧ ∀ e : Event, e.enabled w → e.parses → ∃ w', e.exec w = some w' := by
  obtain ⟨w, hw⟩ := Option.isSome_iff_exists.1 (show (countedPeers.replay .init
    [exampleRequest .SYSTEM, .ref (some 0), exampleRequest .SESSION, .timeout 1]).isSome = true by
      decide +kernel)
  have hrun := Run.nil.replay hw
  exact ⟨w, hrun, peerCache_invariant _ w hrun⟩

/-- After `2 ^ 32` references the count shows what it showed before. -/
theorem run_comes_round (h : Run peerSystem acts w) (hp : w.heap p = some priv) :
    Run peerSystem (acts ++ List.replicate (2 ^ 32) (.ref (some p)))
      (w.setRefs p (w.refs p + 2 ^ 32)) := by
  have hstart : (w.setRefs p (w.refs p + 0)).setPeer p
      { priv with refCount := priv.refCount + Int32.ofNat 0 } = w := by
    have hcount : priv.refCount + Int32.ofNat 0 = priv.refCount := Int32.add_zero _
    rw [hcount, Nat.add_zero, World.setPeer, World.setRefs, update_some hp, Function.update_eq_self]
  have hend : priv.refCount + Int32.ofNat (2 ^ 32) = priv.refCount := Int32.add_zero _
  have hrun := Run.iterate (a := .ref (some p)) (fun n => (w.setRefs p (w.refs p + n)).setPeer p
    { priv with refCount := priv.refCount + Int32.ofNat n }) (hstart.symm ▸ h) (2 ^ 32)
    fun k _ => ?_
  · rwa [hend, World.setPeer, World.setRefs, update_some hp] at hrun
  · have hinc : priv.refCount + Int32.ofNat k + 1 = priv.refCount + Int32.ofNat (k + 1) := by
      rw [Int32.add_assoc, ofNat_inc]
    refine ⟨Option.isSome_iff_exists.2 ⟨_, Function.update_self ..⟩, ?_⟩
    refine (daPeerRef_eq (Function.update_self ..)).trans ?_
    simp [World.setPeer, World.setRefs, hinc, Nat.add_assoc]

/-- Then giving up one reference frees the peer, which stays in the table. -/
theorem run_frees_cached : ∃ acts w, Run peerSystem acts w ∧ w.heap 0 = none ∧
    w.table .SYSTEM = [⟨0, 0⟩] := by
  have hex : ((peerSystem.replay .init [exampleRequest .SYSTEM]).bind fun w =>
      (w.heap 0).bind fun _ => ((Event.unref (some 0)).exec (w.setRefs 0 (w.refs 0 + 2 ^ 32))).map
        fun w' => ((w'.heap 0).isSome, w'.table .SYSTEM)) = some (false, [⟨0, 0⟩]) := by
    decide +kernel
  obtain ⟨w, hw, hex⟩ := Option.bind_eq_some_iff.1 hex
  obtain ⟨priv, hp, hex⟩ := Option.bind_eq_some_iff.1 hex
  obtain ⟨w', hw', hex⟩ := Option.map_eq_some_iff.1 hex
  obtain ⟨hheap, htable⟩ := Prod.mk.inj hex
  have hrefs : (w.setRefs 0 (w.refs 0 + 2 ^ 32)).refs 0 = w.refs 0 + 2 ^ 32 := by
    simp [World.setRefs]
  have hen : peerSystem.enabled (w.setRefs 0 (w.refs 0 + 2 ^ 32)) (.unref (some 0)) :=
    (Nat.add_pos_right _ (Nat.two_pow_pos 32)).trans_eq hrefs.symm
  have hrun := run_comes_round (Run.nil.replay hw) hp
  exact ⟨_, w', hrun.snoc hen hw',
    Option.not_isSome_iff_eq_none.1 (Bool.eq_false_iff.1 hheap), htable⟩

theorem peerCache_invariant_fails : ¬ ∀ acts w, Run peerSystem acts w → CacheInvariant w := by
  intro hall
  obtain ⟨acts, w, hrun, hheap, htable⟩ := run_frees_cached
  obtain ⟨priv, hpriv, -⟩ := (hall acts w hrun).ownName .SYSTEM ⟨0, 0⟩
    (htable ▸ List.mem_cons_self)
  rw [hheap] at hpriv
  cases hpriv

/-! Peers and the requests that made them. -/

theorem Created.snoc {type : DABus} {pid : UInt32} {data : List UInt8}
    (h : Created acts p type name pid data) (e : Event) :
    Created (acts ++ [e]) p type name pid data := by
  obtain ⟨before, out, after, w, w', rfl, hrest⟩ := h
  exact ⟨before, out, after ++ [e], w, w', by simp, hrest⟩

/-- What is known of a peer from the request that made it. -/
def Known (acts : List Event) (p : PeerId) (priv : DAPeerPriv) : Prop :=
  priv.pub.bus = .SYSTEM ∧ priv.pub.name = priv.name ∧ ∃ pid data,
    Created acts p priv.bus priv.name pid data ∧ priv.pub.pid = toInt pid.toNat ∧
    daCredParse .zero ⟨none⟩ data = .ok (true, priv.pub.cred, priv.cred)

theorem Known.snoc {priv' : DAPeerPriv} (h : Known acts p priv) (hs : SameData priv priv')
    (e : Event) : Known (acts ++ [e]) p priv' := by
  obtain ⟨hbus, hname, pid, data, hcreated, hpid, hparse⟩ := h
  obtain ⟨h1, h2, h3, h4⟩ := hs
  refine ⟨h1 ▸ hbus, ?_, pid, data, ?_, h1 ▸ hpid, ?_⟩
  · rw [h1, h4, hname]
  · rw [h3, h4]
    exact hcreated.snoc e
  · rw [h1, h2, hparse]

/-- A peer keeps what the request that made it gave it. -/
theorem run_known (h : Run peerSystem acts w) :
    ∀ p priv, w.heap p = some priv → Known acts p priv := by
  refine h.induct_history (I := fun acts w => ∀ p priv, w.heap p = some priv → Known acts p priv)
    ?_ ?_
  · intro p priv hp
    cases hp
  · intro acts w e w' hrun ih hen hex p priv' hp
    have hreached := run_reached hrun
    obtain ⟨hreached', hstep⟩ := hreached.step hex
    rcases hstep with hframe | ⟨type, name, out, rfl, hget, hadded⟩
    · obtain ⟨priv, hpriv, hs⟩ := hframe.heap p priv' hp
      exact (ih p priv hpriv).snoc hs e
    · by_cases hq : p = w.nextPeer
      · subst hq
        obtain ⟨priv, pid, data, hpriv, rfl, rfl, hbus, hpid, hpid', hdata, hparse⟩ := hadded.peer
        obtain rfl : priv = priv' := by simpa [hp] using hpriv.symm
        refine ⟨hbus, hreached'.shape.name _ _ hp, pid, data, ?_, hpid', hparse⟩
        exact ⟨acts, out, [], w, w', rfl, hrun, hreached.shape.heap _ le_rfl, hget, hpid, hdata⟩
      · rw [hadded.other p hq] at hp
        exact (ih p priv' hp).snoc (.refl _) _

/-- A request returns a peer of its own bus and name. -/
theorem Reached.get_peer (h : Reached w) {type : DABus} (hget : daPeerGet w type (some name) out =
    some (w', some p)) : ∃ priv, w'.heap p = some priv ∧ priv.bus = type ∧ priv.name = name := by
  obtain ⟨-, hanswer, -⟩ := h.get hget
  rcases hanswer with ⟨-, hr⟩ | ⟨hp, hadded⟩
  · exact (hr p rfl).2
  · obtain rfl := Option.some_inj.1 hp
    obtain ⟨priv, pid, data, hpriv, hbus, hname, -⟩ := hadded.peer
    exact ⟨priv, hpriv, hbus, hname⟩

/-- In every run, what a request returns describes it except for the bus, which is
the system bus. -/
theorem get_known (h : Run peerSystem acts w) {type : DABus} (hget : daPeerGet w type (some name)
    out = some (w', some p)) : ∃ priv, w'.heap p = some priv ∧ priv.bus = type ∧
      priv.name = name ∧ Known (acts ++ [.get type (some name) out]) p priv := by
  obtain ⟨priv, hpriv, hbus, hname⟩ := (run_reached h).get_peer hget
  have hex : (Event.get type (some name) out).exec w = some w' := by simp [Event.exec, hget]
  have hrun : Run peerSystem (acts ++ [.get type (some name) out]) w' := h.snoc trivial hex
  exact ⟨priv, hpriv, hbus, hname, run_known hrun p priv hpriv⟩

/-- The bus of a peer is never set. In every run a request returns a peer that
describes it exactly when it is a request to the system bus. -/
theorem daPeerGet_describes_iff (acts : List Event) (w w' : World) (type : DABus) (name : CString)
    (out : Outside) (p : PeerId) (h : Run peerSystem acts w)
    (hget : daPeerGet w type (some name) out = some (w', some p)) :
    (∃ priv, w'.heap p = some priv ∧
      Describes (acts ++ [.get type (some name) out]) type name p priv.pub) ↔ type = .SYSTEM := by
  obtain ⟨priv, hpriv, rfl, rfl, hbus, hname, pid, data, hcreated, hpid, hparse⟩ :=
    get_known h hget
  apply Iff.intro
  · rintro ⟨priv', hpriv', hdescribes, -⟩
    obtain rfl : priv' = priv := by simpa [hpriv] using hpriv'.symm
    exact hdescribes.symm.trans hbus
  · intro htype
    exact ⟨priv, hpriv, hbus.trans htype.symm, hname, pid, data, priv.cred, hcreated, hpid, hparse⟩

theorem daPeerGet_describes_iff_system :
    ∃ w w', Run peerSystem [exampleRequest .SESSION] w ∧
      daPeerGet w .SYSTEM (some (str ":1.1")) exampleOutside = some (w', some 1) ∧
      ((∃ priv, w'.heap 1 = some priv ∧ Describes ([exampleRequest .SESSION] ++
        [.get .SYSTEM (some (str ":1.1")) exampleOutside]) .SYSTEM (str ":1.1") 1 priv.pub) ↔
          DABus.SYSTEM = .SYSTEM) := by
  have hsome : ((peerSystem.replay .init [exampleRequest .SESSION]).bind fun w =>
      (daPeerGet w .SYSTEM (some (str ":1.1")) exampleOutside).bind Prod.snd) = some 1 := by
    decide +kernel
  obtain ⟨w, hw, hget⟩ := Option.bind_eq_some_iff.1 hsome
  obtain ⟨⟨w', r⟩, hget, rfl⟩ := Option.bind_eq_some_iff.1 hget
  have hrun := Run.nil.replay hw
  exact ⟨w, w', hrun, hget, daPeerGet_describes_iff _ w w' _ _ _ 1 hrun hget⟩

/-- The first request of a client of the session bus gets a peer of the system bus. -/
theorem daPeerGet_describes_fails :
    ¬ ∀ acts w w' type name out p, Run peerSystem acts w →
      daPeerGet w type (some name) out = some (w', some p) →
      ∃ priv, w'.heap p = some priv ∧
        Describes (acts ++ [.get type (some name) out]) type name p priv.pub := by
  intro hall
  have hsome : ((daPeerGet .init .SESSION (some (str ":1.1")) exampleOutside).bind Prod.snd) =
      some 0 := by
    decide +kernel
  obtain ⟨⟨w', r⟩, hget, rfl⟩ := Option.bind_eq_some_iff.1 hsome
  obtain ⟨priv, hpriv, hdescribes, -⟩ := hall [] .init w' .SESSION _ _ 0 .nil hget
  obtain ⟨priv', hpriv', -, -, hbus, -⟩ := get_known .nil hget
  obtain rfl : priv' = priv := by simpa [hpriv] using hpriv'.symm
  rw [hbus] at hdescribes
  cases hdescribes

/-! A request that fails. -/

/-- In every run, a request that returns no peer changes nothing. -/
theorem failed_lookup (acts : List Event) (w w' : World) (type : DABus) (name : Option CString)
    (out : Outside) (h : Run peerSystem acts w)
    (hget : daPeerGet w type name out = some (w', none)) : w.Unchanged w' := by
  cases name with
  | none =>
    obtain rfl : w = w' := by simpa [daPeerGet] using hget
    exact .refl w
  | some name =>
    obtain ⟨-, -, hsame⟩ := (run_reached h).get hget
    exact hsame rfl

/-- Answers of the surroundings for a process that has ended. -/
def endedOutside : Outside := ⟨true, some 78, fun _ => none⟩

/-- A process that has ended, on a bus that was not used before. -/
theorem failed_lookup_ended : ∃ w w', Run peerSystem [exampleRequest .SYSTEM] w ∧
    daPeerGet w .SESSION (some (str ":1.2")) endedOutside = some (w', none) ∧ w.Unchanged w' := by
  have hget : ((peerSystem.replay .init [exampleRequest .SYSTEM]).bind fun w =>
      (daPeerGet w .SESSION (some (str ":1.2")) endedOutside).map Prod.snd) = some none := by
    decide +kernel
  obtain ⟨w, hw, hget⟩ := Option.bind_eq_some_iff.1 hget
  obtain ⟨⟨w', r⟩, hget, rfl⟩ := Option.map_eq_some_iff.1 hget
  have hrun := Run.nil.replay hw
  exact ⟨w, w', hrun, hget, failed_lookup _ w w' _ _ _ hrun hget⟩

end DbusAccess
