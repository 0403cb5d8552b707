import DbusAccess.Proofs.PeerReached

/-! The cache as long as counts have room: cached peers are not freed, and the removal of
one peer, or of all peers of a bus, returns. -/

namespace DbusAccess

open Classical

variable {w w' : World} {p q : PeerId} {priv : DAPeerPriv} {out : Outside} {b b' : DABus}
  {armed : PeerId → Prop} {count : PeerId → ℕ} {e f : Entry} {table : List Entry}
  {name : CString} {bus : DAPeerBus}

/-- The references of the clients and of the tables. -/
noncomputable def World.references (w : World) (p : PeerId) : ℕ :=
  w.refs p + if w.Cached p then 1 else 0

/-- What holds also within an operation, as long as counts have room. -/
structure Core (w : World) : Prop extends Tied w where
  ordered : Ordered w w.Cached w.references

/-- What holds between operations, as long as counts have room. -/
structure Inv (w : World) : Prop extends Reached w where
  ordered : Ordered w w.Cached w.references

theorem Inv.core (h : Inv w) : Core w := ⟨h.toTied, h.ordered⟩

theorem Core.live (h : Core w) (hc : w.Cached p) : ∃ priv, w.heap p = some priv := by
  rw [← Option.isSome_iff_exists, Option.isSome_iff_ne_none]
  exact fun hnone => (h.ordered.freed p hnone).2 hc

theorem Core.entry (h : Core w) (he : e ∈ w.table b) :
    e.key = e.value ∧ ∃ priv, w.heap e.value = some priv ∧ priv.bus = b := by
  obtain ⟨priv, hpriv⟩ := h.live ⟨b, e, he, rfl⟩
  obtain ⟨hkey, -, hbus⟩ := h.shape.entry b e he
  exact ⟨hkey, priv, hpriv, hbus priv hpriv⟩

/-- No peer is in two entries. -/
theorem Core.entry_unique (h : Core w) (he : e ∈ w.table b) (hf : f ∈ w.table b')
    (hv : f.value = e.value) : b' = b ∧ f = e := by
  obtain ⟨priv, hpriv⟩ := h.live ⟨b, e, he, rfl⟩
  obtain ⟨hb, he'⟩ := h.shape.mem_unique hpriv he rfl
  obtain ⟨hb', hf'⟩ := h.shape.mem_unique hpriv hf hv
  exact ⟨hb'.trans hb.symm, hf'.trans he'.symm⟩

theorem Core.name_unique (h : Core w) (he : e ∈ w.table b) (hf : f ∈ w.table b)
    (hn : w.nameOf f.value = w.nameOf e.value) : e = f := by
  obtain ⟨-, priv, hpriv, -⟩ := h.entry he
  exact h.names.names b e he f hf priv.name (nameOf_eq hpriv) (hn.trans (nameOf_eq hpriv))

theorem Ordered.congr {armed' : PeerId → Prop} {count' : PeerId → ℕ} (h : Ordered w armed count)
    (ha : ∀ p, armed' p ↔ armed p) (hc : ∀ p, count' p = count p) : Ordered w armed' count' := by
  obtain rfl : armed' = armed := funext fun p => propext (ha p)
  obtain rfl : count' = count := funext hc
  exact h

theorem Ordered.setBus (h : Ordered w armed count) (b : DABus) (bus : DAPeerBus) :
    Ordered (w.setBus b bus) armed count :=
  ⟨h.toArmed.same rfl rfl rfl, h.live, h.freed, h.groups, h.name, h.nextPeer, h.nextTimeout,
    h.nextWatch, h.positive, h.unfinished, h.finished⟩

theorem Ordered.setPeers (h : Ordered w armed count) (b : DABus) (table : List Entry) :
    Ordered (w.setPeers b table) armed count :=
  h.setBus ..

theorem Ordered.setRefs (h : Ordered w armed count) (p : PeerId) (n : ℕ) :
    Ordered (w.setRefs p n) armed count :=
  ⟨h.toArmed.same rfl rfl rfl, h.live, h.freed, h.groups, h.name, h.nextPeer, h.nextTimeout,
    h.nextWatch, h.positive, h.unfinished, h.finished⟩

theorem Core.lookup (h : Core w) (hb : (w.daBus b).peers.isSome = true) (name : CString) :
    ∃ r, gHashTableLookup w b name = some r := by
  obtain ⟨table, htable⟩ := Option.isSome_iff_exists.1 hb
  have ht : w.table b = table := by simp [World.table, htable]
  have hkeys : ∀ e ∈ table, (w.heap e.key).isSome = true := by
    intro e he
    obtain ⟨hkey, priv, hpriv, -⟩ := h.entry (ht ▸ he)
    rw [hkey, hpriv, Option.isSome_some]
  simp only [gHashTableLookup, htable, Option.bind_eq_bind, Option.bind_some]
  rw [gHashTableFind_eq name hkeys]
  exact ⟨_, rfl⟩

/-- The same tables, and references to the same peers. -/
theorem Ordered.tables (h : Ordered w' w.Cached w.references) (ht : ∀ b, w'.table b = w.table b)
    (hrefs : w'.refs = w.refs) : Ordered w' w'.Cached w'.references := by
  refine h.congr (cached_congr ht) fun p => ?_
  simp only [World.references, cached_congr ht, hrefs]

theorem Core.cleanup (h : Core w) (b : DABus) : Core (w.cleanup b) := by
  refine ⟨h.toTied.cleanup b, ?_⟩
  have ht := cleanup_table w b
  unfold World.cleanup at *
  split_ifs at *
  · exact (h.ordered.setBus b _).tables ht rfl
  · exact h.ordered

theorem Core.connect (h : Core w) (b : DABus) : Core (w.connect b) :=
  ⟨h.toTied.connect b, (h.ordered.setBus b _).tables (connect_table w b) rfl⟩

/-! Removing a peer. -/

theorem daPeerRemove_eq (hp : w.heap p = some priv) (ht : InUse w.timeouts priv.timeoutId)
    (hw : InUse w.watches priv.nameWatchId) (h0t : w.timeouts 0 = none) (h0w : w.watches 0 = none)
    (hg : w.groups p = priv.cred.groups.isSome) (hb : (w.daBus priv.bus).peers = some table)
    (hkeys : ∀ e ∈ table, (w.heap e.key).isSome = true)
    (hfind : table.find? (fun e => w.nameOf e.key == some priv.name) = some ⟨p, p⟩) :
    daPeerRemove w p = some (w.evict p priv ⟨p, p⟩) := by
  have hdisarm : (w.disarm p priv).heap p =
      some { priv with timeoutId := 0, nameWatchId := 0 } := by
    simp
  have hname : (w.disarm p priv).nameOf = w.nameOf := by
    funext q
    by_cases hq : q = p <;> simp [World.nameOf, hq, hp]
  have hkeys' : ∀ e ∈ table, ((w.disarm p priv).heap e.key).isSome = true := by
    intro e he
    by_cases hq : e.key = p <;> simp [hq, hkeys e he]
  have hfind' := gHashTableFind_eq priv.name hkeys'
  rw [hname, hfind] at hfind'
  have hbus : ((w.disarm p priv).daBus priv.bus).peers = some table := hb
  have hunref := daPeerUnref_eq
    (w := (w.disarm p priv).setPeers priv.bus (table.erase ⟨p, p⟩)) hdisarm
    (by simp [InUse, World.setPeers, World.setBus, h0t])
    (by simp [InUse, World.setPeers, World.setBus, h0w]) hg
  have hpeers : ((((w.disarm p priv).setPeers priv.bus (table.erase ⟨p, p⟩)).release p
      { priv with timeoutId := 0, nameWatchId := 0 }).daBus priv.bus).peers.isSome = true := by
    simp [World.setPeers, World.setBus]
  simp only [daPeerRemove, hp, Option.bind_eq_bind, Option.bind_some, daPeerDispose_eq hp ht hw,
    hdisarm, gHashTableRemove, hbus, hfind', hunref, daPeerCleanup_eq hpeers]
  simp [World.evict, World.unlink, World.table, hb]

/-- Without the entries of some peers, which have no timeout and no watch any more. -/
theorem Ordered.restrict {R : PeerId → Prop} (h : Ordered w' armed count)
    (ha : ∀ q, armed q ↔ w.Cached q ∧ ¬ R q)
    (hin : ∀ q, R q → count q = w.refs q) (hout : ∀ q, ¬ R q → count q = w.references q)
    (hmem : ∀ b e, e ∈ w'.table b ↔ e ∈ w.table b ∧ ¬ R e.value) (hrefs : w'.refs = w.refs) :
    Ordered w' w'.Cached w'.references := by
  have hcached : ∀ q, w'.Cached q ↔ w.Cached q ∧ ¬ R q := by
    intro q
    apply Iff.intro
    · rintro ⟨b, e, he, rfl⟩
      exact ⟨⟨b, e, ((hmem b e).1 he).1, rfl⟩, ((hmem b e).1 he).2⟩
    · rintro ⟨⟨b, e, he, rfl⟩, hq⟩
      exact ⟨b, e, (hmem b e).2 ⟨he, hq⟩, rfl⟩
  refine h.congr (fun q => (hcached q).trans (ha q).symm) fun q => ?_
  unfold World.references
  rw [hrefs]
  by_cases hq : R q
  · rw [hin q hq, if_neg fun hc => ((hcached q).1 hc).2 hq, Nat.add_zero]
  · have hiff : w'.Cached q ↔ w.Cached q := by simp [hcached, hq]
    rw [hout q hq]
    simp only [World.references, hiff]

/-- Removing a cached peer leaves the other ones. -/
theorem Core.evict (h : Core w) (hp : w.heap p = some priv) (he : ⟨p, p⟩ ∈ w.table priv.bus) :
    Core (w.evict p priv ⟨p, p⟩) := by
  have hcached : w.Cached p := ⟨priv.bus, _, he, rfl⟩
  have horder : Ordered (w.unlink p priv ⟨p, p⟩) _ _ :=
    ((h.ordered.disarm hp).setPeers priv.bus _).release (Function.update_self ..)
  have hmem : ∀ b e, e ∈ (w.unlink p priv ⟨p, p⟩).table b ↔ e ∈ w.table b ∧ ¬ e.value = p :=
    fun b e => h.shape.table_unlink hp b ▸ h.shape.mem_unlink h.names hp b e
  have hrefs : (w.unlink p priv ⟨p, p⟩).refs = w.refs := release_refs ..
  have hcore : Core (w.unlink p priv ⟨p, p⟩) := by
    refine ⟨(h.toTied.unlink hp).1, horder.restrict (R := (· = p)) (by grind) ?_ ?_ hmem hrefs⟩
    · rintro q rfl
      simp [World.references, hcached]
    · exact fun q hq => Function.update_of_ne hq ..
  exact hcore.cleanup _

/-- What removing needs to know of a cached peer. -/
theorem Core.find (h : Core w) (hp : w.heap p = some priv) (hcached : w.Cached p)
    (ho : BusOpen w priv.bus) :
    ⟨p, p⟩ ∈ w.table priv.bus ∧ ∃ table, (w.daBus priv.bus).peers = some table ∧
      (∀ e ∈ table, (w.heap e.key).isSome = true) ∧
      table.find? (fun e => w.nameOf e.key == some priv.name) = some ⟨p, p⟩ := by
  have hmem := h.shape.cached_mem hp hcached
  obtain ⟨table, htable⟩ := Option.isSome_iff_exists.1 ho.2
  have ht : w.table priv.bus = table := by simp [World.table, htable]
  refine ⟨hmem, table, htable, fun e he => ?_, ?_⟩
  · obtain ⟨hkey, priv', hpriv', -⟩ := h.entry (ht ▸ he)
    rw [hkey, hpriv', Option.isSome_some]
  · rw [ht] at hmem
    have hname : w.nameOf p = some priv.name := by simp [World.nameOf, hp]
    cases hfind : table.find? (fun e => w.nameOf e.key == some priv.name) with
    | none =>
      have := List.find?_eq_none.1 hfind _ hmem
      simp [hname] at this
    | some e =>
      have hmem' : e ∈ w.table priv.bus := ht ▸ List.mem_of_find?_eq_some hfind
      have hname' : w.nameOf e.key = some priv.name := by simpa using List.find?_some hfind
      rw [(h.entry hmem').1] at hname'
      rw [h.name_unique hmem' (ht ▸ hmem) (hname.trans hname'.symm)]

theorem Core.remove (h : Core w) (hp : w.heap p = some priv) (hcached : w.Cached p)
    (ho : BusOpen w priv.bus) : daPeerRemove w p = some (w.evict p priv ⟨p, p⟩) := by
  obtain ⟨-, table, hb, hkeys, hfind⟩ := h.find hp hcached ho
  obtain ⟨ht, hw⟩ := h.ordered.inUse hp
  exact daPeerRemove_eq hp ht hw (h.ordered.nextTimeout 0 (Or.inl rfl))
    (h.ordered.nextWatch 0 (Or.inl rfl)) (h.ordered.groups_eq hp) hb hkeys hfind

/-- The callback of a timeout, and what the main loop does when it returns, is the
removal of the peer. -/
theorem Core.timeout (h : Core w) (hp : w.heap p = some priv) (hcached : w.Cached p)
    (ho : BusOpen w priv.bus) :
    ∃ w', daPeerTimeout w p = some w' ∧
      { w' with timeouts := Function.update w'.timeouts priv.timeoutId none } =
        w.evict p priv ⟨p, p⟩ := by
  obtain ⟨-, table, hb, hkeys, hfind⟩ := h.find hp hcached ho
  obtain ⟨-, hw⟩ := h.ordered.inUse hp
  have h0t := h.ordered.nextTimeout 0 (Or.inl rfl)
  have h0w := h.ordered.nextWatch 0 (Or.inl rfl)
  have hp' : (w.setPeer p { priv with timeoutId := 0 }).heap p =
    some { priv with timeoutId := 0 } := Function.update_self ..
  have hname : (w.setPeer p { priv with timeoutId := 0 }).nameOf = w.nameOf := by
    funext q
    by_cases hq : q = p <;> simp [World.nameOf, World.setPeer, hq, hp]
  have hg := h.ordered.groups_eq hp
  have hremove := daPeerRemove_eq hp' (by simp [InUse, World.setPeer, h0t]) hw h0t h0w hg hb
    (fun e he => by
      have := hkeys e he
      by_cases hq : e.key = p <;> simp [World.setPeer, hq, this])
    (by rw [hname]; exact hfind)
  refine ⟨(w.setPeer p { priv with timeoutId := 0 }).evict p { priv with timeoutId := 0 } ⟨p, p⟩,
    ?_, evict_timeout h0t⟩
  simp only [daPeerTimeout, hp, Option.bind_eq_bind, Option.bind_some]
  exact hremove

/-! Removing all peers of a bus. -/

theorem dispose_all (l : List Entry) (h : Ordered w armed count)
    (hl : ∀ e ∈ l, (w.heap e.value).isSome = true) :
    ∃ w', l.foldlM (fun w e => daPeerDispose w e.value) w = some w' ∧
      Ordered w' (fun q => armed q ∧ q ∉ l.map Entry.value) count ∧
      w'.daBus = w.daBus ∧ w'.refs = w.refs ∧ ∀ q, (w'.heap q).isSome = (w.heap q).isSome := by
  induction l generalizing w armed with
  | nil => exact ⟨w, rfl, h.congr (by simp) fun _ => rfl, rfl, rfl, fun _ => rfl⟩
  | cons e l ih =>
    obtain ⟨he, hl⟩ := List.forall_mem_cons.1 hl
    obtain ⟨priv, hpriv⟩ := Option.isSome_iff_exists.1 he
    obtain ⟨ht, hw⟩ := h.inUse hpriv
    have hlive : ∀ q, ((w.disarm e.value priv).heap q).isSome = (w.heap q).isSome := by
      intro q
      rw [disarm_heap]
      split_ifs with hq
      · rw [hq, hpriv]
        rfl
      · rfl
    obtain ⟨w', hfold, horder, hbus, hrefs, hlive'⟩ :=
      ih (h.disarm hpriv) fun f hf => (hlive f.value).trans (hl f hf)
    refine ⟨w', ?_, ?_, hbus, hrefs, fun q => (hlive' q).trans (hlive q)⟩
    · rw [List.foldlM_cons, daPeerDispose_eq hpriv ht hw]
      exact hfold
    · refine horder.congr (fun q => ?_) fun _ => rfl
      rw [List.map_cons, List.mem_cons]
      tauto

theorem unref_all (l : List Entry) (h : Ordered w armed count) (hnd : (l.map Entry.value).Nodup)
    (hl : ∀ e ∈ l, (w.heap e.value).isSome = true ∧ ¬ armed e.value) :
    ∃ w', l.foldlM (fun w e => daPeerUnref w e.value) w = some w' ∧
      Ordered w' armed (fun q => count q - if q ∈ l.map Entry.value then 1 else 0) ∧
      w'.refs = w.refs := by
  induction l generalizing w count with
  | nil => exact ⟨w, rfl, h.congr (fun _ => Iff.rfl) (by simp), rfl⟩
  | cons e l ih =>
    obtain ⟨⟨he, hae⟩, hl⟩ := List.forall_mem_cons.1 hl
    obtain ⟨hne, hnd⟩ := List.nodup_cons.1 hnd
    obtain ⟨priv, hpriv⟩ := Option.isSome_iff_exists.1 he
    have hother : ∀ f ∈ l, f.value ≠ e.value :=
      fun f hf heq => hne (heq ▸ List.mem_map_of_mem hf)
    have horder : Ordered (w.release e.value priv) armed _ :=
      (h.release hpriv).congr (by grind) fun _ => rfl
    obtain ⟨w', hfold, horder', hrefs⟩ := ih horder hnd fun f hf => by
      rw [release_heap_of_ne _ _ (hother f hf)]
      exact hl f hf
    refine ⟨w', ?_, horder'.congr (fun _ => Iff.rfl) fun q => ?_, by rw [hrefs, release_refs]⟩
    · rw [List.foldlM_cons, h.unref_eq hpriv]
      exact hfold
    · simp only [Function.update_apply, List.map_cons, List.mem_cons]
      by_cases hq : q = e.value
      · subst hq
        simp [hne]
      · simp [hq]

theorem Core.values_nodup (h : Core w) (b : DABus) : ((w.table b).map Entry.value).Nodup :=
  List.Nodup.map_on (fun _ he _ hf hef => (h.entry_unique hf he hef).2) (h.names.nodup b)

/-- Without the entries of one bus. -/
theorem Core.clear (h : Core w) (horder : Ordered w'
      (fun q => w.Cached q ∧ q ∉ (w.table b).map Entry.value)
      (fun q => w.references q - if q ∈ (w.table b).map Entry.value then 1 else 0))
    (htable : ∀ b', w'.table b' = if b' = b then [] else w.table b') (hrefs : w'.refs = w.refs) :
    Ordered w' w'.Cached w'.references := by
  refine horder.restrict (R := (· ∈ (w.table b).map Entry.value)) (fun q => Iff.rfl) ?_ ?_ ?_ hrefs
  · intro q hq
    have hcached : w.Cached q := by
      obtain ⟨e, he, rfl⟩ := List.mem_map.1 hq
      exact ⟨b, e, he, rfl⟩
    simp [hq, hcached, World.references]
  · intro q hq
    simp [hq]
  · intro b' e
    rw [htable]
    split_ifs with hb
    · subst hb
      simpa using fun he => ⟨e, he, rfl⟩
    · refine ⟨fun he => ⟨he, fun hv => ?_⟩, fun he => he.1⟩
      obtain ⟨f, hf, hfe⟩ := List.mem_map.1 hv
      exact hb (h.entry_unique he hf hfe).1.symm

/-- Flushing a bus removes its peers and leaves the others. -/
theorem Core.flushAll (h : Core w) (ht : (w.daBus b).peers = some table) :
    ∃ w1 w2, table.foldlM (fun w e => daPeerDispose w e.value) w = some w1 ∧
      gHashTableRemoveAll w1 b = some w2 ∧ daPeerCleanup w2 b = some (w2.cleanup b) ∧
      Core (w2.cleanup b) := by
  have hlist : w.table b = table := by rw [World.table, ht, Option.getD_some]
  have hlive : ∀ e ∈ table, (w.heap e.value).isSome = true := by
    intro e he
    obtain ⟨-, priv, hpriv, -⟩ := h.entry (hlist ▸ he)
    rw [hpriv, Option.isSome_some]
  obtain ⟨w1, hfold1, horder1, hbus1, hrefs1, hlive1⟩ := dispose_all table h.ordered hlive
  have hl : ∀ e ∈ table, ((w1.setPeers b []).heap e.value).isSome = true ∧
      ¬ (w.Cached e.value ∧ e.value ∉ table.map Entry.value) := by
    intro e he
    exact ⟨(hlive1 e.value).trans (hlive e he), fun hn => hn.2 (List.mem_map_of_mem he)⟩
  obtain ⟨w2, hfold2, horder2, hrefs2⟩ :=
    unref_all table (horder1.setPeers b []) (hlist ▸ h.values_nodup b) hl
  have hremove : gHashTableRemoveAll w1 b = some w2 := by
    simp only [gHashTableRemoveAll, hbus1, ht, Option.bind_eq_bind, Option.bind_some]
    exact hfold2
  obtain ⟨htied, -, hbus⟩ := h.toTied.flushAll ht hfold1 hremove
  have htable : ∀ b', w2.table b' = if b' = b then [] else w.table b' := fun b' => by
    rw [World.table, hbus]
    exact table_setBus ..
  have hcore : Core w2 :=
    ⟨htied, h.clear (hlist.symm ▸ horder2) htable (hrefs2.trans hrefs1)⟩
  have hpeers : (w2.daBus b).peers.isSome = true := by simp [hbus, World.setPeers]
  exact ⟨w1, w2, hfold1, hremove, daPeerCleanup_eq hpeers, hcore.cleanup b⟩

end DbusAccess
