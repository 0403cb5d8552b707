import DbusAccess.Proofs.PeerCache

/-! A request for a peer: from the cache, made new, or failed. -/

namespace DbusAccess

open Classical

variable {w w' w1 : World} {p q : PeerId} {priv : DAPeerPriv} {out : Outside} {b b' : DABus}
  {e f : Entry} {table : List Entry} {name : CString} {bus : DAPeerBus}

/-- A new peer that is not in a table yet, in the world `w'`. -/
structure Made (w w' : World) (priv : DAPeerPriv) : Prop where
  heap : w'.heap = Function.update w.heap w.nextPeer (some priv)
  groups : w'.groups = Function.update w.groups w.nextPeer priv.cred.groups.isSome
  timeouts : w'.timeouts = Function.update w.timeouts w.nextTimeout (some w.nextPeer)
  watches : w'.watches = Function.update w.watches w.nextWatch
    (some ⟨priv.bus, priv.name, w.nextPeer⟩)
  daBus : w'.daBus = w.daBus
  refs : w'.refs = w.refs
  finalized : w'.finalized = w.finalized
  next : w'.nextPeer = w.nextPeer + 1 ∧ w'.nextTimeout = w.nextTimeout + 1 ∧
    w'.nextWatch = w.nextWatch + 1
  ids : priv.timeoutId = w.nextTimeout ∧ priv.nameWatchId = w.nextWatch
  refCount : priv.refCount = 1
  name : priv.pub.name = priv.name

theorem Shape.groups_new (h : Shape w) : w.groups w.nextPeer = false := by
  refine Bool.eq_false_iff.2 fun hgroups => ?_
  obtain ⟨priv, hp, -⟩ := h.groups w.nextPeer hgroups
  rw [h.heap w.nextPeer le_rfl] at hp
  cases hp

theorem Shape.create (h : Shape w) (b : DABus) (name : CString) :
    Made w (w.create b name) (newPeer w b name) where
  heap := rfl
  groups := (update_false h.groups_new).symm
  timeouts := rfl
  watches := rfl
  daBus := rfl
  refs := rfl
  finalized := rfl
  next := ⟨rfl, rfl, rfl⟩
  ids := ⟨rfl, rfl⟩
  refCount := rfl
  name := rfl

theorem Made.fill (h : Made w w' priv) (cred : DACred) (credPriv : DACredPriv) :
    Made w (w'.fill w.nextPeer priv cred credPriv)
      { priv with pub.cred := cred, cred := credPriv } where
  heap := (congrArg (Function.update · _ _) h.heap).trans (Function.update_idem ..)
  groups := (congrArg (Function.update · _ _) h.groups).trans (Function.update_idem ..)
  timeouts := h.timeouts
  watches := h.watches
  daBus := h.daBus
  refs := h.refs
  finalized := h.finalized
  next := h.next
  ids := h.ids
  refCount := h.refCount
  name := h.name

theorem Made.setPid (h : Made w w' priv) (pid : ℤ) :
    Made w (w'.setPeer w.nextPeer { priv with pub.pid := pid })
      { priv with pub.pid := pid } where
  heap := (congrArg (Function.update · _ _) h.heap).trans (Function.update_idem ..)
  groups := h.groups
  timeouts := h.timeouts
  watches := h.watches
  daBus := h.daBus
  refs := h.refs
  finalized := h.finalized
  next := h.next
  ids := h.ids
  refCount := h.refCount
  name := h.name

theorem Made.self (hm : Made w w' priv) : w'.heap w.nextPeer = some priv := by
  rw [hm.heap, Function.update_self]

theorem Made.other (hm : Made w w' priv) (q : PeerId) (hq : q ≠ w.nextPeer) :
    w'.heap q = w.heap q := by
  rw [hm.heap, Function.update_of_ne hq]

theorem Made.unref (hm : Made w w' priv) (h : Shape w) :
    daPeerUnref w' w.nextPeer = some (w'.free w.nextPeer priv) := by
  have ht : InUse w'.timeouts priv.timeoutId := by
    rw [InUse, hm.ids.1, if_neg h.positive.1.ne', hm.timeouts, Function.update_self]
    rfl
  have hw : InUse w'.watches priv.nameWatchId := by
    rw [InUse, hm.ids.2, if_neg h.positive.2.ne', hm.watches, Function.update_self]
    rfl
  have hg : w'.groups w.nextPeer = priv.cred.groups.isSome := by
    rw [hm.groups, Function.update_self]
  rw [daPeerUnref_eq hm.self ht hw hg, World.release, if_pos hm.refCount]

/-- A new peer that is given up leaves nothing. -/
theorem Made.unchanged (hm : Made w w' priv) (h : Shape w) :
    w.Unchanged (w'.free w.nextPeer priv) where
  heap := by
    rw [World.free, hm.heap, Function.update_idem, update_none (h.heap _ le_rfl)]
  refs := hm.refs
  daBus := hm.daBus
  timeouts := by
    rw [World.free, hm.timeouts, hm.ids.1, Function.update_idem,
      update_none (h.timeouts _ (Or.inr le_rfl))]
  watches := by
    rw [World.free, hm.watches, hm.ids.2, Function.update_idem,
      update_none (h.watches _ (Or.inr le_rfl))]
  groups := by
    rw [World.free, hm.groups, Function.update_idem, update_false h.groups_new]

theorem Tied.of_unchanged (h : Tied w) (hs : w.Unchanged w') (hp : w.nextPeer ≤ w'.nextPeer)
    (ht : w.nextTimeout ≤ w'.nextTimeout) (hw : w.nextWatch ≤ w'.nextWatch) :
    Tied w' ∧ PeerFrame w w' := by
  have htable : ∀ b, w'.table b = w.table b := fun b => by
    rw [World.table, hs.daBus, World.table]
  have hframe : PeerFrame w w' := by
    refine ⟨fun q priv hq => ⟨priv, hs.heap ▸ hq, .refl _⟩, fun id watch hid => ?_, hp, hw⟩
    rwa [← hs.watches]
  have harmed : Armed w' w.Cached := h.armed.same hs.heap hs.timeouts hs.watches
  refine ⟨⟨?_, harmed.congr fun q _ _ => cached_congr htable q,
    h.names.sub hframe fun b => htable b ▸ .refl _⟩, hframe⟩
  refine h.shape.of_frame hframe (fun b e he => htable b ▸ he) (fun q hq => ?_) (fun id hid => ?_)
    ⟨h.shape.positive.1.trans_le ht, h.shape.positive.2.trans_le hw⟩
  · rw [hs.groups] at hq
    rw [hs.heap]
    exact h.shape.groups q hq
  · rw [hs.timeouts]
    exact h.shape.timeouts id (hid.imp_right ht.trans)

/-- With the new peer in the table of its bus. -/
def World.withNew (w w' : World) (b : DABus) : World :=
  w'.setPeers b (⟨w.nextPeer, w.nextPeer⟩ :: w.table b)

theorem Made.table_eq (hm : Made w w' priv) (b : DABus) : w'.table b = w.table b := by
  rw [World.table, World.table, hm.daBus]

theorem Made.table_withNew (hm : Made w w' priv) (b b' : DABus) : (w.withNew w' b).table b' =
    if b' = b then ⟨w.nextPeer, w.nextPeer⟩ :: w.table b' else w.table b' := by
  rw [World.withNew, World.setPeers, table_setBus]
  split_ifs with hb
  · rw [hb]
    rfl
  · exact hm.table_eq b'

theorem Made.mem_withNew (hm : Made w w' priv) (b b' : DABus) (e : Entry) :
    e ∈ (w.withNew w' b).table b' ↔ e ∈ w.table b' ∨ b' = b ∧ e = ⟨w.nextPeer, w.nextPeer⟩ := by
  rw [hm.table_withNew]
  split_ifs with hb
  · simp [hb, or_comm]
  · simp [hb]

theorem Made.shape (hm : Made w w' priv) (h : Shape w) : Shape w' := by
  have ⟨h1, h2, h3, h4, h5, h6, h7⟩ := h
  have htable := hm.table_eq
  obtain ⟨hheap, hgroups, htimeouts, hwatches, -, -, -, ⟨hnp, hnt, hnw⟩, -, -, hname⟩ := hm
  constructor <;> simp only [htable, hheap, hgroups, htimeouts, hwatches, hnp, hnt, hnw,
    Function.update_apply] <;> grind

theorem Shape.ne_new (h : Shape w) (he : e ∈ w.table b) : e.value ≠ w.nextPeer :=
  (h.entry b e he).2.1.ne

theorem Shape.not_cached_new (h : Shape w) : ¬ w.Cached w.nextPeer :=
  fun ⟨_, _, he, heq⟩ => h.ne_new he heq

theorem Made.nameOf_other (hm : Made w w' priv) (hq : q ≠ w.nextPeer) :
    w'.nameOf q = w.nameOf q := by
  rw [World.nameOf, World.nameOf, hm.other q hq]

theorem Made.cached_withNew (hm : Made w w' priv) (b : DABus) (q : PeerId) :
    (w.withNew w' b).Cached q ↔ w.Cached q ∨ q = w.nextPeer := by
  apply Iff.intro
  · rintro ⟨b', e, he, rfl⟩
    rcases (hm.mem_withNew b b' e).1 he with he | ⟨-, rfl⟩
    · exact Or.inl ⟨b', e, he, rfl⟩
    · exact Or.inr rfl
  · rintro (⟨b', e, he, rfl⟩ | rfl)
    · exact ⟨b', e, (hm.mem_withNew b b' e).2 (Or.inl he), rfl⟩
    · exact ⟨b, _, (hm.mem_withNew b b _).2 (Or.inr ⟨rfl, rfl⟩), rfl⟩

theorem Made.shape_withNew (hm : Made w w' priv) (h : Shape w) :
    Shape (w.withNew w' priv.bus) := by
  have hshape := hm.shape h
  refine ⟨hshape.heap, hshape.groups, hshape.timeouts, hshape.watches, hshape.positive,
    hshape.name, fun b e he => ?_⟩
  rcases (hm.mem_withNew _ b e).1 he with he | ⟨rfl, rfl⟩
  · exact hshape.entry b e (hm.table_eq b ▸ he)
  · refine ⟨rfl, hm.next.1.symm ▸ Nat.lt_succ_self _, fun priv' hq => ?_⟩
    rw [Option.some.inj (hm.self.symm.trans hq)]

theorem Made.armed (hm : Made w w' priv) (h : Shape w) {armed : PeerId → Prop}
    (ha : Armed w armed) : Armed w' fun q => armed q ∨ q = w.nextPeer := by
  have ⟨h1, h2, h3, h4⟩ := ha
  have hfree := h.heap w.nextPeer le_rfl
  have htimeout := h.timeouts w.nextTimeout (Or.inr le_rfl)
  have hwatch := h.watches w.nextWatch (Or.inr le_rfl)
  obtain ⟨hheap, -, htimeouts, hwatches, -, -, -, -, ⟨htid, hwid⟩, -, -⟩ := hm
  constructor <;> simp only [hheap, htimeouts, hwatches, Function.update_apply] <;> grind

/-- The new name is not in the table yet. -/
theorem Made.names_withNew (hm : Made w w' priv) (h : Tied w)
    (hkeys : ∀ e ∈ w.table priv.bus, ∃ owner, w.heap e.key = some owner ∧ owner.name ≠ priv.name) :
    Names (w.withNew w' priv.bus) := by
  have hself : w'.nameOf w.nextPeer = some priv.name := nameOf_eq hm.self
  have hnew : ∀ e ∈ w.table priv.bus, w'.nameOf e.value ≠ some priv.name := by
    intro e he hn
    obtain ⟨owner, howner, hname⟩ := hkeys e he
    rw [(h.shape.entry _ e he).1] at howner
    rw [hm.nameOf_other (h.shape.ne_new he), nameOf_eq howner] at hn
    exact hname (Option.some.inj hn)
  refine ⟨fun b => ?_, fun b e he f hf name hn hn' => ?_⟩
  · rw [hm.table_withNew]
    split_ifs with hb
    · exact List.nodup_cons.2 ⟨fun he => h.shape.ne_new he rfl, h.names.nodup b⟩
    · exact h.names.nodup b
  · replace hn : w'.nameOf e.value = some name := hn
    replace hn' : w'.nameOf f.value = some name := hn'
    rcases (hm.mem_withNew _ b e).1 he with he | ⟨hb, rfl⟩ <;>
      rcases (hm.mem_withNew _ b f).1 hf with hf | ⟨hb, rfl⟩
    · rw [hm.nameOf_other (h.shape.ne_new he)] at hn
      rw [hm.nameOf_other (h.shape.ne_new hf)] at hn'
      exact h.names.names b e he f hf name hn hn'
    · exact absurd (hn.trans (hn'.symm.trans hself)) (hnew e (hb ▸ he))
    · exact absurd (hn'.trans (hn.symm.trans hself)) (hnew f (hb ▸ hf))
    · rfl

theorem Made.tied_withNew (hm : Made w w' priv) (h : Tied w)
    (hkeys : ∀ e ∈ w.table priv.bus, ∃ owner, w.heap e.key = some owner ∧ owner.name ≠ priv.name) :
    Tied (w.withNew w' priv.bus) := by
  have harmed : Armed (w.withNew w' priv.bus) fun q => w.Cached q ∨ q = w.nextPeer :=
    (hm.armed h.shape h.armed).same rfl rfl rfl
  exact ⟨hm.shape_withNew h.shape, harmed.congr fun q _ _ => hm.cached_withNew priv.bus q,
    hm.names_withNew h hkeys⟩

/-- What a request did that made a new peer. -/
structure Added (w w' : World) (type : DABus) (name : CString) (out : Outside) : Prop where
  peer : ∃ priv pid data, w'.heap w.nextPeer = some priv ∧ priv.bus = type ∧
    priv.name = name ∧ priv.pub.bus = .SYSTEM ∧ out.pid = some pid ∧
    priv.pub.pid = toInt pid.toNat ∧ out.gFileGetContents (statusFile pid) = some data ∧
    daCredParse .zero ⟨none⟩ data = .ok (true, priv.pub.cred, priv.cred)
  other : ∀ q, q ≠ w.nextPeer → w'.heap q = w.heap q
  watches : ∀ id watch, w'.watches id = some watch →
    w.watches id = some watch ∨ w.nextWatch ≤ id ∧ watch.data = w.nextPeer
  nextPeer : w.nextPeer ≤ w'.nextPeer
  nextWatch : w.nextWatch ≤ w'.nextWatch

/-- The bus names a process, and its status file has credentials. -/
def Outside.tells (out : Outside) (pid : UInt32) (data : List UInt8) (cred : DACred)
    (credPriv : DACredPriv) : Prop :=
  out.pid = some pid ∧ out.gFileGetContents (statusFile pid) = some data ∧
    daCredParse .zero ⟨none⟩ data = .ok (true, cred, credPriv)

/-- The ends of a request for a name that is not in the table. -/
inductive NewResult (w : World) (b : DABus) (name : CString) (out : Outside) :
    Option (World × Option PeerId) → Prop
  | fault : out.faults → NewResult w b name out none
  | refused : (∀ pid data cred credPriv, ¬ out.tells pid data cred credPriv) →
      NewResult w b name out (some (w.cleanup b, none))
  | dropped {w' : World} {priv : DAPeerPriv} : Made w w' priv →
      (∀ pid data cred credPriv, ¬ out.tells pid data cred credPriv) →
      NewResult w b name out (some ((w'.free w.nextPeer priv).cleanup b, none))
  | cached {w' : World} {priv : DAPeerPriv} {pid : UInt32} {data : List UInt8} :
      Made w w' priv → priv.bus = b → priv.name = name →
      priv.pub = ⟨.SYSTEM, name, toInt pid.toNat, priv.pub.cred⟩ →
      out.tells pid data priv.pub.cred priv.cred →
      NewResult w b name out (some (w.withNew w' b, some w.nextPeer))

theorem Made.drop (hm : Made w w' priv) (h : Shape w) (ho : BusOpen w b) :
    ((daPeerUnref w' w.nextPeer).bind fun w2 => (daPeerCleanup w2 b).bind fun w2 =>
        some (w2, (none : Option PeerId))) =
      some ((w'.free w.nextPeer priv).cleanup b, none) := by
  have hpeers : ((w'.free w.nextPeer priv).daBus b).peers.isSome = true := by
    rw [(hm.unchanged h).daBus]
    exact ho.2
  rw [hm.unref h, Option.bind_some, daPeerCleanup_eq hpeers, Option.bind_some]

/-- A name that is not in the table gets the new entry. -/
theorem Made.replace (hm : Made w w' priv) (h : Shape w)
    (ho : (w.daBus priv.bus).peers.isSome = true)
    (hkeys : ∀ e ∈ w.table priv.bus, ∃ owner, w.heap e.key = some owner ∧ owner.name ≠ priv.name) :
    gHashTableReplace w' priv.bus w.nextPeer = some (w.withNew w' priv.bus) := by
  obtain ⟨table, htable⟩ := Option.isSome_iff_exists.1 ho
  have ht : w.table priv.bus = table := by simp [World.table, htable]
  have hfind : gHashTableFind w' priv.name table = some none := by
    refine gHashTableFind_missing fun e he => ?_
    obtain ⟨hkey, hlt, -⟩ := h.entry priv.bus e (ht ▸ he)
    rw [hm.other _ (hkey ▸ hlt.ne)]
    exact hkeys e (ht ▸ he)
  simp only [gHashTableReplace, hm.daBus, htable, hm.self, Option.bind_eq_bind, Option.bind_some,
    hfind, World.withNew, ht]

/-- The end of a request with credentials. -/
theorem Made.keep (hm : Made w w' priv) (h : Shape w)
    (ho : (w.daBus priv.bus).peers.isSome = true)
    (hkeys : ∀ e ∈ w.table priv.bus, ∃ owner, w.heap e.key = some owner ∧ owner.name ≠ priv.name)
    (pid : ℤ) :
    ((w'.heap w.nextPeer).bind fun made =>
      (gHashTableReplace (w'.setPeer w.nextPeer { made with pub.pid := pid }) priv.bus
        w.nextPeer).bind fun w2 => some (w2, some w.nextPeer)) =
      some (w.withNew (w'.setPeer w.nextPeer { priv with pub.pid := pid }) priv.bus,
        some w.nextPeer) := by
  rw [hm.self, Option.bind_some, (hm.setPid pid).replace h ho hkeys, Option.bind_some]

theorem Shape.getNew (h : Shape w) (ho : BusOpen w b) (name : CString) (out : Outside)
    (hkeys : ∀ e ∈ w.table b, ∃ owner, w.heap e.key = some owner ∧ owner.name ≠ name) :
    NewResult w b name out (daPeerGetNew w b name out) := by
  have hm := h.create b name
  have hnew := daPeerNew_eq name (h.timeouts 0 (Or.inl rfl)) ho.1
  unfold daPeerGetNew
  cases hpid : out.pid with
  | none =>
    simp only [daPeerCleanup_eq ho.2, Option.bind_eq_bind, Option.bind_some]
    refine .refused fun pid data cred credPriv htells => ?_
    rw [htells.1] at hpid
    cases hpid
  | some pid =>
    simp only [hnew, Option.bind_eq_bind, Option.bind_some]
    cases hdata : out.gFileGetContents (statusFile pid) with
    | none =>
      simp only [daPeerFillCred, hdata, Option.bind_some]
      rw [if_neg Bool.false_ne_true, hm.drop h ho]
      refine .dropped hm fun pid' data cred credPriv htells => ?_
      obtain ⟨hpid', hdata', -⟩ := htells
      rw [hpid, Option.some_inj] at hpid'
      rw [← hpid', hdata] at hdata'
      cases hdata'
    | some data =>
      cases hparse : daCredParse .zero ⟨none⟩ data with
      | error fault =>
        have hfault : daPeerFillCred (w.create b name) w.nextPeer pid out = none := by
          simp [daPeerFillCred, hdata, hm.self, newPeer, hparse]
        rw [hfault]
        exact .fault ⟨pid, data, fault, hpid, hdata, hparse⟩
      | ok r =>
        obtain ⟨ok, cred, credPriv⟩ := r
        have hm' := hm.fill cred credPriv
        rw [daPeerFillCred_eq hm.self hdata hparse, Option.bind_some]
        cases ok with
        | false =>
          rw [if_neg Bool.false_ne_true, hm'.drop h ho]
          refine .dropped hm' fun pid' data' cred' credPriv' htells => ?_
          obtain ⟨hpid', hdata', hparse'⟩ := htells
          rw [hpid, Option.some_inj] at hpid'
          rw [← hpid', hdata, Option.some_inj] at hdata'
          rw [← hdata', hparse] at hparse'
          cases hparse'
        | true =>
          have hkeep := hm'.keep h ho.2 hkeys (toInt pid.toNat)
          refine (congrArg (NewResult w b name out) hkeep).mpr ?_
          exact .cached (hm'.setPid _) rfl rfl rfl ⟨hpid, hdata, hparse⟩

theorem Made.added {pid : UInt32} {data : List UInt8} (hm : Made w w' priv)
    (hpub : priv.pub = ⟨.SYSTEM, priv.name, toInt pid.toNat, priv.pub.cred⟩)
    (htells : out.tells pid data priv.pub.cred priv.cred) :
    Added w (w.withNew w' priv.bus) priv.bus priv.name out where
  peer := by
    have hsys : priv.pub.bus = .SYSTEM := by rw [hpub]
    have hpid : priv.pub.pid = toInt pid.toNat := by rw [hpub]
    exact ⟨priv, pid, data, hm.self, rfl, rfl, hsys, htells.1, hpid, htells.2⟩
  other := hm.other
  watches id watch hid := by
    replace hid : w'.watches id = some watch := hid
    rw [hm.watches, Function.update_apply] at hid
    split_ifs at hid with heq
    · right
      rw [← Option.some_inj.1 hid]
      exact ⟨heq.ge, rfl⟩
    · left
      exact hid
  nextPeer := (Nat.le_succ _).trans_eq hm.next.1.symm
  nextWatch := (Nat.le_succ _).trans_eq hm.next.2.2.symm

theorem Made.closed_withNew (hm : Made w w' priv) (ho : BusOpen w priv.bus)
    (hc : ∀ b, b ≠ priv.bus → BusClosed w b) (b : DABus) : BusClosed (w.withNew w' priv.bus) b := by
  unfold BusClosed
  rw [hm.table_withNew]
  by_cases hb : b = priv.bus
  · rw [if_pos hb]
    have := ho.1
    simpa [World.withNew, World.setPeers, hm.daBus, hb] using this
  · have hb' := hc b hb
    unfold BusClosed at hb'
    rw [if_neg hb]
    simpa [World.withNew, World.setPeers, hb, hm.daBus] using hb'

/-- What a request did that found a peer or failed. -/
def Answered (w w' : World) (type : DABus) (name : CString) (r : Option PeerId) : Prop :=
  PeerFrame w w' ∧ ∀ p, r = some p → w.Cached p ∧
    ∃ priv, w'.heap p = some priv ∧ priv.bus = type ∧ priv.name = name

theorem Answered.none {type : DABus} (h : PeerFrame w w') : Answered w w' type name none := by
  refine ⟨h, fun p hp => ?_⟩
  cases hp

theorem World.Unchanged.refl (w : World) : w.Unchanged w := ⟨rfl, rfl, rfl, rfl, rfl, rfl⟩

/-- A connection that nothing came of is given up. -/
theorem World.Unchanged.cleanup (hs : (w.connect b).Unchanged w1) (h : BusClosed w b) :
    w.Unchanged (w1.cleanup b) := by
  obtain ⟨h1, h2⟩ := h
  have htable : w1.table b = w.table b := by
    rw [World.table, hs.daBus]
    exact connect_table w b b
  unfold World.cleanup
  by_cases hempty : w.table b = []
  · rw [if_pos (htable.trans hempty)]
    have hconn : (w.daBus b).connection = false :=
      Bool.eq_false_iff.2 fun hconn => h1.1 hconn hempty
    have hpeers : (w.daBus b).peers = none := by
      rw [hconn] at h2
      simpa using h2
    have hbus : w.daBus b = ⟨none, false⟩ := by rw [← hpeers, ← hconn]
    refine ⟨hs.heap, hs.refs, ?_, hs.timeouts, hs.watches, hs.groups⟩
    rw [World.setBus, hs.daBus, World.connect, World.setBus, Function.update_idem, ← hbus,
      Function.update_eq_self]
  · rw [if_neg (htable.trans_ne hempty)]
    have hconn := h1.2 hempty
    obtain ⟨table, hpeers⟩ := Option.isSome_iff_exists.1 (h2.2 hconn)
    have hbus : w.daBus b = ⟨some (w.table b), true⟩ := by
      rw [World.table, hpeers, ← hconn, Option.getD_some, ← hpeers]
    refine ⟨hs.heap, hs.refs, ?_, hs.timeouts, hs.watches, hs.groups⟩
    rw [hs.daBus, World.connect, World.setBus, ← hbus, Function.update_eq_self]

/-- A request that fails behind the connection. -/
theorem Reached.dropped (h : Reached w) (hs : (w.connect b).Unchanged w1) (htied : Tied w1)
    (hframe : PeerFrame (w.connect b) w1) :
    Reached (w1.cleanup b) ∧ PeerFrame w (w1.cleanup b) ∧ w.Unchanged (w1.cleanup b) := by
  have hopen : BusOpen w1 b := by
    unfold BusOpen
    rw [hs.daBus]
    exact connect_open w b
  refine ⟨⟨htied.cleanup b, closed_cleanup hopen fun b' hb => ?_⟩,
    ((frame_setBus ..).trans hframe).trans (frame_cleanup ..), hs.cleanup (h.closed b)⟩
  exact closed_congr hs.daBus (connect_other hb (h.closed b'))

theorem Reached.get {type : DABus} {r : Option PeerId} (h : Reached w)
    (hget : daPeerGet w type (some name) out = some (w', r)) :
    Reached w' ∧ (Answered w w' type name r ∨ r = some w.nextPeer ∧ Added w w' type name out) ∧
      (r = none → w.Unchanged w') := by
  unfold daPeerGet at hget
  rcases daPeerBus_cases (h.closed type) true out with ⟨hbus, -⟩ | ⟨hbus, -⟩
  · rw [hbus] at hget
    obtain ⟨rfl, rfl⟩ := Prod.mk.inj (Option.some.inj hget)
    exact ⟨h, Or.inl (.none (.refl w)), fun _ => .refl w⟩
  rw [hbus] at hget
  have htied := h.toTied.connect type
  obtain ⟨found, hlookup, hget⟩ := Option.bind_eq_some_iff.1 hget
  cases found with
  | some p =>
    obtain ⟨priv, hp, hbus, hname, hmem⟩ := htied.shape.lookup hlookup
    obtain ⟨w2, hw2, hget⟩ := Option.bind_eq_some_iff.1 hget
    obtain ⟨rfl, rfl⟩ := Prod.mk.inj (Option.some.inj hget)
    have hcached : (w.connect type).Cached p := ⟨type, _, hmem, rfl⟩
    have huse := (htied.armed.inUse htied.shape.noZero hp).1
    rw [daPeerResetTimeout_eq hp huse] at hw2
    obtain rfl := Option.some.inj hw2
    refine ⟨⟨htied.renew hp hcached, fun b => ?_⟩,
      Or.inl ⟨(frame_setBus ..).trans (frame_renew hp), ?_⟩,
      fun hr => absurd hr (Option.some_ne_none _)⟩
    · by_cases hb : b = type
      · subst hb
        exact ⟨iff_of_true (connect_open w b).1 (List.ne_nil_of_mem hmem),
          iff_of_true (connect_open w b).2 (connect_open w b).1⟩
      · exact connect_other hb (h.closed b)
    · rintro _ ⟨rfl⟩
      exact ⟨⟨type, _, connect_table w type type ▸ hmem, rfl⟩, _, Function.update_self .., hbus,
        hname⟩
  | none =>
    have hkeys := gHashTableLookup_none hlookup
    have hnew := htied.shape.getNew (connect_open w type) name out hkeys
    replace hget : daPeerGetNew (w.connect type) type name out = some (w', r) := hget
    rw [hget] at hnew
    cases hnew with
    | refused _ =>
      obtain ⟨hreached, hframe, hsame⟩ := h.dropped (.refl _) htied (.refl _)
      exact ⟨hreached, Or.inl (.none hframe), fun _ => hsame⟩
    | dropped hm _ =>
      obtain ⟨hnp, hnt, hnw⟩ := hm.next
      have hsame := hm.unchanged htied.shape
      obtain ⟨htied', hframe⟩ := htied.of_unchanged hsame ((Nat.le_succ _).trans_eq hnp.symm)
        ((Nat.le_succ _).trans_eq hnt.symm) ((Nat.le_succ _).trans_eq hnw.symm)
      obtain ⟨hreached, hframe, hsame⟩ := h.dropped hsame htied' hframe
      exact ⟨hreached, Or.inl (.none hframe), fun _ => hsame⟩
    | cached hm hbus hname hpub htells =>
      subst hbus hname
      refine ⟨⟨hm.tied_withNew htied hkeys, fun b => ?_⟩, Or.inr ⟨rfl, ?_⟩,
        fun hr => absurd hr (Option.some_ne_none _)⟩
      · exact hm.closed_withNew (connect_open w _) (fun _ hb => connect_other hb (h.closed _)) b
      · have hadded := hm.added hpub htells
        exact ⟨hadded.peer, hadded.other, hadded.watches, hadded.nextPeer, hadded.nextWatch⟩

/-! The invariant. -/

theorem Made.ordered (hm : Made w w' priv) {armed : PeerId → Prop} {count : PeerId → ℕ}
    (hs : Shape w) (h : Ordered w armed count) : Ordered w' (fun q => armed q ∨ q = w.nextPeer)
      (Function.update count w.nextPeer 1) := by
  have harmed := hm.armed hs h.toArmed
  have ⟨_, h1, h2, h3, h4, h5, h6, h7, h8, h9, h10⟩ := h
  have hone : priv.refCount = Int32.ofNat (Function.update count w.nextPeer 1 w.nextPeer) := by
    rw [Function.update_self]
    exact hm.refCount
  have hfree := h5 w.nextPeer le_rfl
  obtain ⟨hheap, hgroups, htimeouts, hwatches, -, -, hfinalized, hnext, -, -, hname⟩ := hm
  have hheap' := congrFun hheap
  have hgroups' := congrFun hgroups
  have htimeouts' := congrFun htimeouts
  have hwatches' := congrFun hwatches
  refine ⟨harmed, ?_, ?_, ?_, ?_, ?_, ?_, ?_, ?_, ?_, ?_⟩ <;> grind [Function.update_apply]

theorem Core.refs_new (h : Core w) : w.refs w.nextPeer = 0 := by
  have := (h.ordered.freed w.nextPeer (h.shape.heap w.nextPeer le_rfl)).1
  unfold World.references at this
  omega

theorem Made.ordered_withNew (hm : Made w w' priv) (h : Core w) (b : DABus) :
    Ordered (w.withNew w' b) (w.withNew w' b).Cached (w.withNew w' b).references := by
  refine ((hm.ordered h.shape h.ordered).setPeers _ _).congr (hm.cached_withNew b) fun q => ?_
  have hr : (w.withNew w' b).refs = w.refs := hm.refs
  unfold World.references
  rw [hr, Function.update_apply]
  by_cases hq : q = w.nextPeer
  · simp [hq, hm.cached_withNew, h.refs_new]
  · simp only [hm.cached_withNew, hq, or_false, if_false]

/-- A new peer that is given up leaves the other ones. -/
theorem Made.core_free (hm : Made w w' priv) (h : Core w) :
    Core (w'.free w.nextPeer priv) := by
  have hsame := hm.unchanged h.shape
  obtain ⟨hnp, hnt, hnw⟩ := hm.next
  have htied := (h.toTied.of_unchanged hsame ((Nat.le_succ _).trans_eq hnp.symm)
    ((Nat.le_succ _).trans_eq hnt.symm) ((Nat.le_succ _).trans_eq hnw.symm)).1
  have htable : ∀ b, (w'.free w.nextPeer priv).table b = w.table b := by
    intro b
    rw [World.table, hsame.daBus, World.table]
  have horder := (hm.ordered h.shape h.ordered).release hm.self
  rw [World.release, if_pos hm.refCount] at horder
  have hnew := h.shape.not_cached_new
  refine ⟨htied, Ordered.tables (horder.congr (fun q => ?_) fun q => ?_) htable hsame.refs⟩
  · rw [Function.update_self]
    grind
  · by_cases hq : q = w.nextPeer
    · simp [hq, World.references, h.refs_new, hnew]
    · simp [hq]

theorem Core.keys (h : Core w) (hname : ∀ e ∈ w.table b, w.nameOf e.value ≠ some name) :
    ∀ e ∈ w.table b, ∃ owner, w.heap e.key = some owner ∧ owner.name ≠ name := by
  intro e he
  obtain ⟨hkey, priv, hpriv, -⟩ := h.entry he
  exact ⟨priv, hkey ▸ hpriv, fun heq => hname e he (heq ▸ nameOf_eq hpriv)⟩

theorem Core.getNew (h : Core w) (ho : BusOpen w b)
    (hkeys : ∀ e ∈ w.table b, ∃ owner, w.heap e.key = some owner ∧ owner.name ≠ name) :
    (daPeerGetNew w b name out = none ∧ out.faults) ∨
      ∃ w' r, daPeerGetNew w b name out = some (w', r) ∧ Core w' := by
  have hresult := h.shape.getNew ho name out hkeys
  generalize daPeerGetNew w b name out = result at hresult
  cases hresult with
  | fault hfaults => exact Or.inl ⟨rfl, hfaults⟩
  | refused _ => exact Or.inr ⟨_, _, rfl, h.cleanup b⟩
  | dropped hm _ => exact Or.inr ⟨_, _, rfl, (hm.core_free h).cleanup b⟩
  | cached hm hbus hname _ _ =>
    subst hbus hname
    exact Or.inr ⟨_, _, rfl, hm.tied_withNew h.toTied hkeys, hm.ordered_withNew h _⟩

/-- Renewing the timeout of a cached peer. -/
theorem Core.renew (h : Core w) (hcached : w.Cached p) (hp : w.heap p = some priv) :
    Core (w.renew p priv) :=
  ⟨h.toTied.renew hp hcached, (h.ordered.renew hp hcached).tables (fun _ => rfl) rfl⟩

/-- What one request can do. -/
theorem Inv.get (h : Inv w) (type : DABus) (name : CString) (out : Outside) :
    (daPeerGet w type (some name) out = none ∧ out.faults) ∨
      ∃ w' r, daPeerGet w type (some name) out = some (w', r) ∧ Inv w' := by
  suffices hends : (daPeerGet w type (some name) out = none ∧ out.faults) ∨
      ∃ w' r, daPeerGet w type (some name) out = some (w', r) ∧ Core w' by
    refine hends.imp_right fun ⟨w', r, hget, hcore⟩ => ⟨w', r, hget, ?_, hcore.ordered⟩
    exact (h.toReached.get hget).1
  rcases daPeerBus_cases (h.closed type) true out with ⟨hb, -⟩ | ⟨hb, -⟩
  · exact Or.inr ⟨w, none, by simp [daPeerGet, hb], h.core⟩
  have hcore := h.core.connect type
  have hopen := connect_open w type
  obtain ⟨r, hlookup⟩ := hcore.lookup hopen.2 name
  cases r with
  | none =>
    have hget : daPeerGet w type (some name) out =
        daPeerGetNew (w.connect type) type name out := by
      simp [daPeerGet, hb, hlookup]
    rw [hget]
    exact hcore.getNew hopen (gHashTableLookup_none hlookup)
  | some p =>
    obtain ⟨priv, hpriv, -, -, hmem⟩ := hcore.shape.lookup hlookup
    have hcached : (w.connect type).Cached p := ⟨type, _, hmem, rfl⟩
    refine Or.inr ⟨(w.connect type).renew p priv, some p, ?_, hcore.renew hcached hpriv⟩
    simp [daPeerGet, hb, hlookup, daPeerResetTimeout_eq hpriv (hcore.ordered.inUse hpriv).1]

end DbusAccess
