import DbusAccess.Proofs.PeerShape
import Mathlib.Data.List.Nodup

/-! The cache between operations, also after a count has come round: connections are held
for tables that are not empty, and cached peers that are not freed have their timeout, their
watch and a name of their own. -/

namespace DbusAccess

open Classical

variable {w w' w1 : World} {p q : PeerId} {priv : DAPeerPriv} {out : Outside} {b b' : DABus}
  {e f : Entry} {bus : DAPeerBus} {name : CString} {armed : PeerId → Prop} {id : ℕ}

/-! Connections. -/

def BusClosed (w : World) (b : DABus) : Prop :=
  ((w.daBus b).connection = true ↔ w.table b ≠ []) ∧
    ((w.daBus b).peers.isSome = true ↔ (w.daBus b).connection = true)

def BusOpen (w : World) (b : DABus) : Prop :=
  (w.daBus b).connection = true ∧ (w.daBus b).peers.isSome = true

def World.cleanup (w : World) (b : DABus) : World :=
  if w.table b = [] then w.setBus b ⟨none, false⟩ else w

theorem daPeerCleanup_eq (hb : (w.daBus b).peers.isSome = true) :
    daPeerCleanup w b = some (w.cleanup b) := by
  obtain ⟨table, htable⟩ := Option.isSome_iff_exists.1 hb
  simp only [daPeerCleanup, htable, Option.bind_eq_bind, Option.bind_some, World.cleanup,
    World.table, Option.getD_some, List.length_eq_zero_iff]
  split_ifs <;> rfl

theorem frame_cleanup (w : World) (b : DABus) : PeerFrame w (w.cleanup b) := by
  unfold World.cleanup
  split_ifs
  · exact frame_setBus ..
  · exact .refl w

theorem closed_cleanup (ho : BusOpen w b) (hc : ∀ b', b' ≠ b → BusClosed w b') (b' : DABus) :
    BusClosed (w.cleanup b) b' := by
  unfold World.cleanup
  split_ifs with ht
  · by_cases hb : b' = b
    · simp [BusClosed, hb]
    · simpa [BusClosed, hb] using hc b' hb
  · by_cases hb : b' = b
    · subst hb
      exact ⟨iff_of_true ho.1 ht, iff_of_true ho.2 ho.1⟩
    · exact hc b' hb

theorem closed_congr (hbus : w'.daBus = w.daBus) (h : BusClosed w b) : BusClosed w' b := by
  unfold BusClosed World.table at h ⊢
  rwa [hbus]

theorem cleanup_table (w : World) (b b' : DABus) : (w.cleanup b).table b' = w.table b' := by
  unfold World.cleanup
  split_ifs with ht
  · rw [table_setBus]
    split_ifs with hb
    · rw [hb, ht]
      rfl
    · rfl
  · rfl

/-- With a connection and a table. -/
def World.connect (w : World) (b : DABus) : World := w.setBus b ⟨some (w.table b), true⟩

theorem connect_table (w : World) (b b' : DABus) : (w.connect b).table b' = w.table b' := by
  rw [World.connect, table_setBus]
  split_ifs with hb
  · rw [hb]
    rfl
  · rfl

theorem connect_open (w : World) (b : DABus) : BusOpen (w.connect b) b := by
  simp [BusOpen, World.connect]

theorem connect_other (hb : b' ≠ b) (h : BusClosed w b') : BusClosed (w.connect b) b' := by
  simpa [BusClosed, World.connect, hb] using h

/-- Looking up the bus may connect to it. -/
theorem daPeerBus_cases (h : BusClosed w b) (init : Bool) (out : Outside) :
    daPeerBus w b init out = (w, none) ∧
        ((w.daBus b).connection || init && out.gBusGetSync) = false ∨
      daPeerBus w b init out = (w.connect b, some b) ∧
        ((w.daBus b).connection || init && out.gBusGetSync) = true ∧
        (init = false → w.connect b = w) := by
  obtain ⟨-, h2⟩ := h
  have hset : ∀ bus, w.daBus b = bus → w.setBus b bus = w := fun bus hbus => by
    rw [World.setBus, ← hbus, Function.update_eq_self]
  cases hconn : (w.daBus b).connection with
  | true =>
    obtain ⟨table, htable⟩ := Option.isSome_iff_exists.1 (h2.2 hconn)
    have hbus : w.daBus b = ⟨some (w.table b), true⟩ := by
      rw [World.table, htable, ← hconn, Option.getD_some, ← htable]
    refine Or.inr ⟨?_, rfl, fun _ => hset _ hbus⟩
    simp [daPeerBus, hconn, World.connect, World.table]
  | false =>
    have hpeers : (w.daBus b).peers = none := by
      rw [hconn] at h2
      simpa using h2
    have hbus : w.daBus b = ⟨none, false⟩ := by rw [← hpeers, ← hconn]
    cases init with
    | false => exact Or.inl ⟨by simp [daPeerBus, hbus, hset _ hbus], rfl⟩
    | true =>
      cases hout : out.gBusGetSync with
      | false => exact Or.inl ⟨by simp [daPeerBus, hbus, hout, hset _ hbus], rfl⟩
      | true =>
        refine Or.inr ⟨?_, rfl, fun hinit => absurd hinit Bool.noConfusion⟩
        simp [daPeerBus, hbus, hout, World.connect, World.table]

/-! Cached peers. -/

theorem cached_congr (h : ∀ b, w'.table b = w.table b) (p : PeerId) : w'.Cached p ↔ w.Cached p := by
  simp only [World.Cached, h]

theorem Shape.mem_unique (h : Shape w) (hp : w.heap p = some priv) (he : e ∈ w.table b)
    (hv : e.value = p) : b = priv.bus ∧ e = ⟨p, p⟩ := by
  obtain ⟨key, value⟩ := e
  obtain rfl : value = p := hv
  obtain ⟨hkey, -, hbus⟩ := h.entry b _ he
  obtain rfl : key = value := hkey
  exact ⟨(hbus priv hp).symm, rfl⟩

theorem Shape.cached_mem (h : Shape w) (hp : w.heap p = some priv) (hc : w.Cached p) :
    ⟨p, p⟩ ∈ w.table priv.bus := by
  obtain ⟨b, e, he, hv⟩ := hc
  obtain ⟨rfl, rfl⟩ := h.mem_unique hp he hv
  exact he

/-- A lookup returns the peer of an entry. -/
theorem Shape.lookup (h : Shape w) (hex : gHashTableLookup w b name = some (some p)) :
    ∃ priv, w.heap p = some priv ∧ priv.bus = b ∧ priv.name = name ∧ ⟨p, p⟩ ∈ w.table b := by
  obtain ⟨table, htable, hex⟩ := Option.bind_eq_some_iff.1 hex
  obtain ⟨r, hfind, hex⟩ := Option.bind_eq_some_iff.1 hex
  obtain ⟨e, rfl, rfl⟩ := Option.map_eq_some_iff.1 (Option.some.inj hex)
  obtain ⟨he, priv, hp, hname⟩ := gHashTableFind_some hfind
  replace he : e ∈ w.table b := by rwa [World.table, htable, Option.getD_some]
  rw [(h.entry b e he).1] at hp
  obtain ⟨rfl, hself⟩ := h.mem_unique hp he rfl
  exact ⟨priv, hp, rfl, hname, hself ▸ he⟩

theorem gHashTableLookup_none (hex : gHashTableLookup w b name = some none) :
    ∀ e ∈ w.table b, ∃ owner, w.heap e.key = some owner ∧ owner.name ≠ name := by
  obtain ⟨table, htable, hex⟩ := Option.bind_eq_some_iff.1 hex
  obtain ⟨r, hfind, hex⟩ := Option.bind_eq_some_iff.1 hex
  obtain rfl := Option.map_eq_none_iff.1 (Option.some.inj hex)
  rw [World.table, htable, Option.getD_some]
  exact gHashTableFind_none hfind

/-- Entries differ, and peers in a table have different names. -/
structure Names (w : World) : Prop where
  nodup : ∀ b, (w.table b).Nodup
  names : ∀ b, ∀ e ∈ w.table b, ∀ f ∈ w.table b, ∀ name, w.nameOf e.value = some name →
    w.nameOf f.value = some name → e = f

theorem nameOf_eq (hp : w.heap p = some priv) : w.nameOf p = some priv.name := by
  rw [World.nameOf, hp, Option.map_some]

theorem PeerFrame.nameOf (hf : PeerFrame w w') (hn : w'.nameOf p = some name) :
    w.nameOf p = some name := by
  obtain ⟨priv', hpriv', rfl⟩ := Option.map_eq_some_iff.1 hn
  obtain ⟨priv, hpriv, -, -, -, hname⟩ := hf.heap p priv' hpriv'
  rw [hname, nameOf_eq hpriv]

theorem Names.sub (h : Names w) (hf : PeerFrame w w')
    (ht : ∀ b, (w'.table b).Sublist (w.table b)) : Names w' := by
  refine ⟨fun b => (h.nodup b).sublist (ht b), fun b e he f hfe name hn hn' => ?_⟩
  exact h.names b e ((ht b).subset he) f ((ht b).subset hfe) name (hf.nameOf hn) (hf.nameOf hn')

/-- What holds also within an operation: cached peers that are not freed have their timeout,
their watch and a name of their own. -/
structure Tied (w : World) : Prop where
  shape : Shape w
  armed : Armed w w.Cached
  names : Names w

/-- What holds between operations, whatever the counts show. -/
structure Reached (w : World) : Prop extends Tied w where
  closed : ∀ b, BusClosed w b

theorem Armed.same (h : Armed w armed) (hheap : w'.heap = w.heap)
    (htimeouts : w'.timeouts = w.timeouts) (hwatches : w'.watches = w.watches) :
    Armed w' armed := by
  have ⟨h1, h2, h3, h4⟩ := h
  constructor <;> simpa only [hheap, htimeouts, hwatches]

/-- Only the connection, or an empty table, comes or goes. -/
theorem Tied.setBus (h : Tied w) (ht : bus.peers.getD [] = w.table b) :
    Tied (w.setBus b bus) := by
  have htable : ∀ b', (w.setBus b bus).table b' = w.table b' := by
    intro b'
    rw [table_setBus]
    split_ifs with hb
    · rw [hb, ht]
    · rfl
  have harmed : Armed (w.setBus b bus) w.Cached := h.armed.same rfl rfl rfl
  refine ⟨h.shape.setBus fun e he => ht ▸ he, ?_, ?_⟩
  · exact harmed.congr fun q _ _ => cached_congr htable q
  · exact h.names.sub (frame_setBus ..) fun b' => htable b' ▸ .refl _

theorem Tied.cleanup (h : Tied w) (b : DABus) : Tied (w.cleanup b) := by
  unfold World.cleanup
  split_ifs with ht
  · exact h.setBus (by rw [ht]; rfl)
  · exact h

theorem Tied.connect (h : Tied w) (b : DABus) : Tied (w.connect b) := h.setBus rfl

theorem Tied.renew (h : Tied w) (hp : w.heap p = some priv) (hc : w.Cached p) :
    Tied (w.renew p priv) :=
  ⟨h.shape.renew hp, h.armed.renew (h.shape.timeouts _ (Or.inr le_rfl)) hp hc,
    h.names.sub (frame_renew hp) fun _ => .refl _⟩

/-- A timeout or a watch belongs to a cached peer. -/
theorem Tied.timeout_cached (h : Tied w) (hid : w.timeouts id = some p) :
    w.Cached p ∧ ∃ priv, w.heap p = some priv ∧ priv.timeoutId = id := by
  obtain ⟨priv, hpriv, rfl⟩ := h.armed.timeout id p hid
  refine ⟨?_, priv, hpriv, rfl⟩
  by_contra hcached
  rw [(h.armed.off p priv hpriv hcached).1, h.shape.noZero.timeout] at hid
  cases hid

theorem Tied.watch_cached {watch : NameWatch} (h : Tied w)
    (hid : w.watches id = some watch) :
    w.Cached watch.data ∧ ∃ priv, w.heap watch.data = some priv ∧ priv.nameWatchId = id := by
  obtain ⟨priv, hpriv, rfl⟩ := h.armed.watch id watch hid
  refine ⟨?_, priv, hpriv, rfl⟩
  by_contra hcached
  rw [(h.armed.off watch.data priv hpriv hcached).2, h.shape.noZero.watch] at hid
  cases hid

theorem Tied.timeouts_iff (h : Tied w) (id : ℕ) (p : PeerId) : w.timeouts id = some p ↔
    w.Cached p ∧ ∃ priv, w.heap p = some priv ∧ priv.timeoutId = id := by
  refine ⟨h.timeout_cached, fun hid => ?_⟩
  obtain ⟨hcached, priv, hpriv, rfl⟩ := hid
  exact (h.armed.on p priv hpriv hcached).1

theorem Tied.watches_iff (h : Tied w) (id : ℕ) (watch : NameWatch) :
    w.watches id = some watch ↔ ∃ p priv, w.Cached p ∧ w.heap p = some priv ∧
      priv.nameWatchId = id ∧ watch = ⟨priv.bus, priv.name, p⟩ := by
  apply Iff.intro
  · intro hid
    obtain ⟨hcached, priv, hpriv, rfl⟩ := h.watch_cached hid
    have hon := (h.armed.on _ priv hpriv hcached).2
    rw [hid] at hon
    exact ⟨_, priv, hcached, hpriv, rfl, Option.some.inj hon⟩
  · intro hid
    obtain ⟨p, priv, hcached, hpriv, rfl, rfl⟩ := hid
    exact (h.armed.on p priv hpriv hcached).2

/-! Removing a peer. -/

/-- After the removal of a peer with this entry, before the table is looked at again. -/
def World.unlink (w : World) (p : PeerId) (priv : DAPeerPriv) (e : Entry) : World :=
  ((w.disarm p priv).setPeers priv.bus ((w.table priv.bus).erase e)).release p
    { priv with timeoutId := 0, nameWatchId := 0 }

def World.evict (w : World) (p : PeerId) (priv : DAPeerPriv) (e : Entry) : World :=
  (w.unlink p priv e).cleanup priv.bus

theorem Shape.mem_unlink (h : Shape w) (hn : Names w) (hp : w.heap p = some priv) (b : DABus)
    (e : Entry) : e ∈ (w.table b).erase ⟨p, p⟩ ↔ e ∈ w.table b ∧ e.value ≠ p := by
  rw [(hn.nodup b).mem_erase_iff, and_comm]
  refine and_congr_right fun he => not_congr ⟨?_, fun hv => (h.mem_unique hp he hv).2⟩
  rintro rfl
  rfl

theorem Shape.table_unlink (h : Shape w) (hp : w.heap p = some priv) (b : DABus) :
    (w.unlink p priv ⟨p, p⟩).table b = (w.table b).erase ⟨p, p⟩ := by
  unfold World.table World.unlink World.setPeers
  rw [release_daBus, setBus_daBus]
  split_ifs with hb
  · rw [hb]
    rfl
  · exact (List.erase_of_not_mem fun hmem => hb (h.mem_unique hp hmem rfl).1).symm

/-- Where it returns, it has removed the entry of the peer. -/
theorem Shape.evict_eq (h : Shape w) (hn : Names w) (hp : w.heap p = some priv)
    (hmem : ⟨p, p⟩ ∈ w.table priv.bus) (hex : daPeerRemove w p = some w') :
    w' = w.evict p priv ⟨p, p⟩ := by
  obtain ⟨priv', hp', hex⟩ := Option.bind_eq_some_iff.1 hex
  obtain rfl := Option.some.inj (hp.symm.trans hp')
  obtain ⟨w1, hw1, hex⟩ := Option.bind_eq_some_iff.1 hex
  obtain ⟨priv', hp', rfl⟩ := h.dispose hw1
  obtain rfl := Option.some.inj (hp.symm.trans hp')
  have hself : (w.disarm p priv).heap p = some { priv with timeoutId := 0, nameWatchId := 0 } :=
    Function.update_self ..
  rw [hself, Option.bind_eq_bind, Option.bind_some] at hex
  obtain ⟨w2, hw2, hex⟩ := Option.bind_eq_some_iff.1 hex
  obtain ⟨table, htable, hw2⟩ := Option.bind_eq_some_iff.1 hw2
  obtain ⟨r, hfind, hw2⟩ := Option.bind_eq_some_iff.1 hw2
  have ht : w.table priv.bus = table := by
    rw [World.table, show (w.daBus priv.bus).peers = some table from htable, Option.getD_some]
  cases r with
  | none =>
    obtain ⟨owner, howner, hno⟩ := gHashTableFind_none hfind ⟨p, p⟩ (ht ▸ hmem)
    rw [hself] at howner
    exact absurd (congrArg DAPeerPriv.name (Option.some.inj howner)).symm hno
  | some e =>
    obtain ⟨he, owner, howner, hname⟩ := gHashTableFind_some hfind
    replace he : e ∈ w.table priv.bus := ht ▸ he
    rw [(h.entry priv.bus e he).1] at howner
    -- no other cached peer has the name
    have hsame := (frame_disarm hp).nameOf ((nameOf_eq howner).trans (congrArg some hname))
    obtain rfl := hn.names priv.bus e he _ hmem priv.name hsame (nameOf_eq hp)
    have hsub : ∀ f ∈ table.erase ⟨p, p⟩, f ∈ (w.disarm p priv).table priv.bus :=
      fun f hf => ht.symm ▸ List.mem_of_mem_erase hf
    obtain ⟨priv', hp', rfl⟩ := ((h.disarm hp).setPeers hsub).unref hw2
    obtain rfl := Option.some.inj (hself.symm.trans hp')
    rw [daPeerCleanup_eq (by simp [World.setPeers])] at hex
    rw [World.evict, World.unlink, ht]
    exact (Option.some.inj hex).symm

/-- The connection is given up with the last entry. -/
theorem Reached.close {table : List Entry} (h : Reached w)
    (hsome : (w.daBus b).peers.isSome = true) (hbus : w1.daBus = (w.setPeers b table).daBus)
    (b' : DABus) : BusClosed (w1.cleanup b) b' := by
  have hopen : BusOpen w1 b := by
    have hconn := (h.closed b).2.1 hsome
    simp [BusOpen, hbus, World.setPeers, hconn]
  refine closed_cleanup hopen (fun b' hb => ?_) b'
  have hb' := h.closed b'
  unfold BusClosed World.table at hb' ⊢
  rwa [hbus, World.setPeers, setBus_daBus, if_neg hb]

theorem Reached.open_of_mem (h : Reached w) (he : e ∈ w.table b) : BusOpen w b := by
  have hc := (h.closed b).1.2 (List.ne_nil_of_mem he)
  exact ⟨hc, (h.closed b).2.2 hc⟩

theorem Tied.unlink (h : Tied w) (hp : w.heap p = some priv) :
    Tied (w.unlink p priv ⟨p, p⟩) ∧ PeerFrame w (w.unlink p priv ⟨p, p⟩) := by
  have hd : ((w.disarm p priv).setPeers priv.bus ((w.table priv.bus).erase ⟨p, p⟩)).heap p =
      some { priv with timeoutId := 0, nameWatchId := 0 } := Function.update_self ..
  have hshape : Shape ((w.disarm p priv).setPeers priv.bus ((w.table priv.bus).erase ⟨p, p⟩)) :=
    (h.shape.disarm hp).setPeers fun f hf => List.mem_of_mem_erase hf
  have hstill : Armed ((w.disarm p priv).setPeers priv.bus ((w.table priv.bus).erase ⟨p, p⟩))
      fun q => w.Cached q ∧ q ≠ p := (h.armed.disarm h.shape.noZero hp).same rfl rfl rfl
  have hframe := ((frame_disarm hp).trans (frame_setBus ..)).trans (frame_release hd)
  have htable := h.shape.table_unlink hp
  refine ⟨⟨hshape.release hd, (hstill.release hshape.noZero hd).congr fun q _ _ => ?_,
    h.names.sub hframe fun b => htable b ▸ List.erase_sublist⟩, hframe⟩
  unfold World.Cached
  simp only [htable, h.shape.mem_unlink h.names hp]
  grind

theorem Reached.evict (h : Reached w) (hp : w.heap p = some priv)
    (hmem : ⟨p, p⟩ ∈ w.table priv.bus) :
    Reached (w.evict p priv ⟨p, p⟩) ∧ PeerFrame w (w.evict p priv ⟨p, p⟩) := by
  obtain ⟨htied, hframe⟩ := h.toTied.unlink hp
  exact ⟨⟨htied.cleanup priv.bus, h.close (h.open_of_mem hmem).2 (release_daBus ..)⟩,
    hframe.trans (frame_cleanup ..)⟩

theorem Reached.remove (h : Reached w) (hp : w.heap p = some priv)
    (hmem : ⟨p, p⟩ ∈ w.table priv.bus) (hex : daPeerRemove w p = some w') :
    Reached w' ∧ PeerFrame w w' :=
  h.shape.evict_eq h.names hp hmem hex ▸ h.evict hp hmem

/-- It does not matter that the timeout is still there while its peer is removed. -/
theorem evict_timeout (h0 : w.timeouts 0 = none) :
    { (w.setPeer p { priv with timeoutId := 0 }).evict p { priv with timeoutId := 0 } e with
      timeouts := Function.update ((w.setPeer p { priv with timeoutId := 0 }).evict p
        { priv with timeoutId := 0 } e).timeouts priv.timeoutId none } = w.evict p priv e := by
  have h1 : Function.update w.timeouts 0 none = w.timeouts := update_none h0
  have h2 : Function.update (Function.update w.timeouts priv.timeoutId none) 0 none =
      Function.update w.timeouts priv.timeoutId none := by
    apply update_none
    rw [Function.update_apply, h0, ite_self]
  unfold World.evict World.unlink World.cleanup World.release World.free World.table World.setPeers
  by_cases hr : priv.refCount = 1 <;>
    by_cases htab : ((w.daBus priv.bus).peers.getD []).erase e = [] <;>
    simp [hr, htab, World.setPeer, World.setBus, World.disarm, h1, h2]

theorem Reached.timeout (h : Reached w) (hex : (Event.timeout id).exec w = some w') :
    Reached w' ∧ PeerFrame w w' := by
  obtain ⟨p, hid, hex⟩ := Option.bind_eq_some_iff.1 hex
  obtain ⟨w1, hw1, hex⟩ := Option.bind_eq_some_iff.1 hex
  obtain ⟨priv, hp, hw1⟩ := Option.bind_eq_some_iff.1 hw1
  obtain rfl := Option.some.inj hex
  obtain ⟨hcached, priv', hp', rfl⟩ := h.timeout_cached hid
  obtain rfl := Option.some.inj (hp.symm.trans hp')
  have hmem := h.shape.cached_mem hp hcached
  have hsame : SameData priv { priv with timeoutId := 0 } := ⟨rfl, rfl, rfl, rfl⟩
  have hnames := h.names.sub (frame_setPeer hp hsame) fun b => .refl _
  obtain rfl := (h.shape.setPeer hp hsame).evict_eq hnames (setPeer_self ..) hmem hw1
  rw [evict_timeout h.shape.noZero.timeout]
  exact h.evict hp hmem

theorem Reached.vanished (h : Reached w) (hex : (Event.vanished id).exec w = some w') :
    Reached w' ∧ PeerFrame w w' := by
  obtain ⟨watch, hid, hex⟩ := Option.bind_eq_some_iff.1 hex
  obtain ⟨hcached, priv, hp, -⟩ := h.watch_cached hid
  exact h.remove hp (h.shape.cached_mem hp hcached) hex

/-! The other functions. -/

theorem dispose_armed {l : List Entry} (h : Shape w) (ha : Armed w armed)
    (hex : l.foldlM (fun w e => daPeerDispose w e.value) w = some w') :
    Armed w' fun q => armed q ∧ q ∉ l.map Entry.value := by
  induction l generalizing w armed with
  | nil =>
    obtain rfl := Option.some.inj hex
    exact ha.congr fun q _ _ => by simp
  | cons e l ih =>
    rw [List.foldlM_cons] at hex
    obtain ⟨w1, hw1, hex⟩ := Option.bind_eq_some_iff.1 hex
    obtain ⟨priv, hp, rfl⟩ := h.dispose hw1
    refine (ih (h.disarm hp) (ha.disarm h.noZero hp) hex).congr fun q _ _ => ?_
    rw [List.map_cons, List.mem_cons]
    tauto

theorem unref_armed {l : List Entry} (h : Shape w) (ha : Armed w armed)
    (hex : l.foldlM (fun w e => daPeerUnref w e.value) w = some w') : Armed w' armed := by
  induction l generalizing w with
  | nil => exact Option.some.inj hex ▸ ha
  | cons e l ih =>
    rw [List.foldlM_cons] at hex
    obtain ⟨w1, hw1, hex⟩ := Option.bind_eq_some_iff.1 hex
    obtain ⟨priv, hp, rfl⟩ := h.unref hw1
    exact ih (h.release hp) (ha.release h.noZero hp) hex

/-- Flushing a bus leaves the peers of the others. -/
theorem Tied.flushAll {table : List Entry} (h : Tied w)
    (ht : (w.daBus b).peers = some table)
    (hw1 : table.foldlM (fun w e => daPeerDispose w e.value) w = some w1)
    (hw' : gHashTableRemoveAll w1 b = some w') :
    Tied w' ∧ PeerFrame w w' ∧ w'.daBus = (w.setPeers b []).daBus := by
  obtain ⟨hleaves1, hbus1⟩ :=
    foldlM_leaves (f := daPeerDispose) (fun _ _ _ => dispose_leaves) table h.shape hw1
  obtain ⟨hleaves, hbus⟩ := tableRemoveAll_leaves hleaves1.shape hw'
  obtain ⟨table', -, hw'⟩ := Option.bind_eq_some_iff.1 hw'
  have hempty : Shape (w1.setPeers b []) :=
    hleaves1.shape.setPeers fun f hf => absurd hf List.not_mem_nil
  have hstill : Armed (w1.setPeers b []) fun q => w.Cached q ∧ q ∉ table.map Entry.value :=
    (dispose_armed h.shape h.armed hw1).same rfl rfl rfl
  have hframe := hleaves1.frame.trans hleaves.frame
  have hdaBus : w'.daBus = (w.setPeers b []).daBus := by
    rw [hbus, World.setPeers, World.setBus, World.setPeers, World.setBus, hbus1]
  have htable : ∀ b', w'.table b' = if b' = b then [] else w.table b' := fun b' => by
    rw [World.table, hdaBus]
    exact table_setBus ..
  refine ⟨⟨hleaves.shape, (unref_armed hempty hstill hw').congr fun q priv' hq => ?_,
    h.names.sub hframe fun b' => ?_⟩, hframe, hdaBus⟩
  · obtain ⟨priv, hp, -⟩ := hframe.heap q priv' hq
    have hlist : w.table b = table := by rw [World.table, ht, Option.getD_some]
    have hunique := fun b' e (he : e ∈ w.table b') => h.shape.mem_unique hp he
    unfold World.Cached
    simp only [htable, List.mem_map, ← hlist]
    grind
  · rw [htable]
    split_ifs
    · exact List.nil_sublist _
    · exact .refl _

theorem Reached.flush {type : DABus} {target : Option CString} (h : Reached w)
    (hex : daPeerFlush w type target = some w') : Reached w' ∧ PeerFrame w w' := by
  unfold daPeerFlush at hex
  rcases daPeerBus_cases (h.closed type) false ⟨false, none, fun _ => none⟩ with
    ⟨hbus, -⟩ | ⟨hbus, -, hsame⟩
  · rw [hbus] at hex
    obtain rfl := Option.some.inj hex
    exact ⟨h, .refl w⟩
  rw [hbus, hsame rfl] at hex
  cases target with
  | some name =>
    obtain ⟨r, hlookup, hex⟩ := Option.bind_eq_some_iff.1 hex
    cases r with
    | none =>
      obtain rfl := Option.some.inj hex
      exact ⟨h, .refl w⟩
    | some p =>
      obtain ⟨priv, hp, hb, -, hmem⟩ := h.shape.lookup hlookup
      exact h.remove hp (hb ▸ hmem) hex
  | none =>
    obtain ⟨table, htable, hex⟩ := Option.bind_eq_some_iff.1 hex
    obtain ⟨w1, hw1, hex⟩ := Option.bind_eq_some_iff.1 hex
    obtain ⟨w2, hw2, hex⟩ := Option.bind_eq_some_iff.1 hex
    obtain ⟨htied, hframe, hbus2⟩ := h.toTied.flushAll htable hw1 hw2
    rw [daPeerCleanup_eq (by simp [hbus2, World.setPeers])] at hex
    obtain rfl := Option.some.inj hex
    exact ⟨⟨htied.cleanup type, h.close (by rw [htable, Option.isSome_some]) hbus2⟩,
      hframe.trans (frame_cleanup ..)⟩

/-- Tables, timeouts and watches stay as they are. -/
theorem Reached.recount (h : Reached w) (hshape : Shape w') (harmed : Armed w' w.Cached)
    (hframe : PeerFrame w w') (hbus : w'.daBus = w.daBus) : Reached w' ∧ PeerFrame w w' := by
  have htable : ∀ b, w'.table b = w.table b := fun b => by rw [World.table, hbus, World.table]
  exact ⟨⟨⟨hshape, harmed.congr fun q _ _ => cached_congr htable q,
    h.names.sub hframe fun b => htable b ▸ .refl _⟩, fun b => closed_congr hbus (h.closed b)⟩,
    hframe⟩

theorem Reached.ref (h : Reached w) (n : ℕ) (hex : daPeerRef (w.setRefs p n) p = some w') :
    Reached w' ∧ PeerFrame w w' := by
  obtain ⟨priv, hp, hex⟩ := Option.bind_eq_some_iff.1 hex
  obtain rfl := Option.some.inj hex
  have hsame : SameData priv { priv with refCount := priv.refCount + 1 } := ⟨rfl, rfl, rfl, rfl⟩
  have harmed : Armed (w.setRefs p n) w.Cached := h.armed.same rfl rfl rfl
  exact h.recount ((h.shape.setRefs p n).setPeer hp hsame) (harmed.ref hp)
    ((frame_setRefs ..).trans (frame_setPeer hp hsame)) rfl

theorem Reached.unref (h : Reached w) (n : ℕ) (hex : daPeerUnref (w.setRefs p n) p = some w') :
    Reached w' ∧ PeerFrame w w' := by
  have hshape := h.shape.setRefs p n
  obtain ⟨priv, hp, rfl⟩ := hshape.unref hex
  have harmed : Armed (w.setRefs p n) w.Cached := h.armed.same rfl rfl rfl
  exact h.recount (hshape.release hp) (harmed.release hshape.noZero hp)
    ((frame_setRefs ..).trans (frame_release hp)) (release_daBus ..)

end DbusAccess
