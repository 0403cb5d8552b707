import DbusAccess.Proofs.PeerRuns
import DbusAccess.Proofs.PeerLifetime
import DbusAccess.Spec.Directory

/-! The cache is a directory: tables, reference counters, timeouts, watches and
connections together do what the directory does, in every run in which no count comes
round. -/

namespace DbusAccess

open Counters Transition

variable {w w' w0 : World} {p q : PeerId} {priv : DAPeerPriv} {out : Outside} {b : DABus}
  {name : CString} {e : Event} {acts : List Event} {d d' : Directory}

/-! The directory of a cache in order. -/

theorem Core.entry_iff (h : Core w) : w.directory.entry b name = some p ↔
    w.Cached p ∧ ∃ priv, w.heap p = some priv ∧ priv.bus = b ∧ priv.name = name := by
  apply Iff.intro
  · intro hentry
    obtain ⟨e, hfind, rfl⟩ := Option.map_eq_some_iff.1 hentry
    have hmem := List.mem_of_find?_eq_some hfind
    have hname := List.find?_some hfind
    obtain ⟨-, priv, hpriv, hbus⟩ := h.entry hmem
    refine ⟨⟨b, e, hmem, rfl⟩, priv, hpriv, hbus, ?_⟩
    simpa [World.nameOf, hpriv] using hname
  · rintro ⟨hcached, priv, hpriv, rfl, rfl⟩
    have hmem := h.shape.cached_mem hpriv hcached
    have hname := nameOf_eq hpriv
    change Option.map Entry.value _ = some p
    cases hfind : (w.table priv.bus).find? fun e => w.nameOf e.value == some priv.name with
    | none =>
      have hnone := List.find?_eq_none.1 hfind _ hmem
      simp [hname] at hnone
    | some e =>
      have hmem' := List.mem_of_find?_eq_some hfind
      have hname' : w.nameOf e.value = some priv.name := by simpa using List.find?_some hfind
      rw [h.name_unique hmem' hmem (hname.trans hname'.symm)]
      rfl

theorem directory_entry_none : w.directory.entry b name = none ↔
    ∀ e ∈ w.table b, w.nameOf e.value ≠ some name := by
  simp [World.directory]

theorem Core.entry_of_cached (h : Core w) (hp : w.heap p = some priv) (hc : w.Cached p) :
    w.directory.entry priv.bus priv.name = some p :=
  h.entry_iff.2 ⟨hc, priv, hp, rfl, rfl⟩

/-- Who is cached follows from the counters. -/
theorem Inv.cached_iff (h : Inv w) (hp : w.heap p = some priv) :
    w.Cached p ↔ priv.refCount = Int32.ofNat (w.refs p + 1) := by
  have hcount := (h.ordered.live p priv hp).1
  by_cases hc : w.Cached p
  · exact iff_of_true hc (World.references_of_cached hc ▸ hcount)
  · rw [hcount, World.references_of_not_cached hc]
    exact iff_of_false hc (ofNat_ne_succ _)

/-- When nobody comes, the directory is what is left of it. -/
theorem Inv.directory_collect (h : Inv w) (h' : Inv w') (hf : PeerFrame w w')
    (hsub : ∀ q, w'.Cached q → w.Cached q) (hpeer : d.peer = w.directory.peer)
    (hentry : ∀ b name q, d.entry b name = some q ↔
      w.directory.entry b name = some q ∧ w'.Cached q)
    (hrefs : d.refs = w'.refs) : w'.directory = d.collect := by
  have hsame : w'.directory.entry = d.entry := by
    funext b name
    refine Option.ext fun q => ?_
    rw [hentry, h'.core.entry_iff, h.core.entry_iff]
    apply Iff.intro
    · rintro ⟨hc, priv', hpriv', rfl, rfl⟩
      obtain ⟨priv, hpriv, hs⟩ := hf.heap q priv' hpriv'
      exact ⟨⟨hsub q hc, priv, hpriv, hs.2.2.1.symm, hs.2.2.2.symm⟩, hc⟩
    · rintro ⟨⟨-, priv, hpriv, rfl, rfl⟩, hc⟩
      obtain ⟨priv', hpriv'⟩ := h'.core.live hc
      obtain ⟨priv'', hpriv'', hs⟩ := hf.heap q priv' hpriv'
      obtain rfl : priv'' = priv := by simpa [hpriv] using hpriv''.symm
      exact ⟨hc, priv', hpriv', hs.2.2.1, hs.2.2.2⟩
  have hheld : ∀ q, ((∃ b name, d.entry b name = some q) ∨ 0 < d.refs q) ↔ w'.Held q := by
    intro q
    rw [← hsame, hrefs, World.Held]
    refine or_congr_left ⟨?_, fun hc => ?_⟩
    · rintro ⟨b, name, hq⟩
      exact (h'.core.entry_iff.1 hq).1
    · obtain ⟨priv, hpriv⟩ := h'.core.live hc
      exact ⟨_, _, h'.core.entry_of_cached hpriv hc⟩
  refine Directory.ext hsame (funext fun q => ?_) hrefs.symm
  · simp only [Directory.collect, hpeer]
    split_ifs with hq
    · obtain ⟨priv', hpriv'⟩ := (h'.held_iff q).1 ((hheld q).1 hq)
      obtain ⟨priv, hpriv, hs⟩ := hf.heap q priv' hpriv'
      simp [World.directory, hpriv, hpriv', hs.1]
    · have hnone : w'.heap q = none := by
        rw [Option.eq_none_iff_forall_ne_some]
        exact fun priv' hpriv' => hq ((hheld q).2 ((h'.held_iff q).2 ⟨priv', hpriv'⟩))
      simp [World.directory, hnone]

/-- The peers and tables of the directory, which is the same but for references. -/
theorem directory_congr (w : World) (ht : ∀ b, w'.table b = w.table b)
    (hh : ∀ q, (w'.heap q).map (fun priv => (priv.name, priv.pub)) =
      (w.heap q).map fun priv => (priv.name, priv.pub)) :
    w'.directory = { w.directory with refs := w'.refs } := by
  have hname : w'.nameOf = w.nameOf := by
    funext q
    simpa [World.nameOf, Function.comp_def] using congrArg (Option.map Prod.fst) (hh q)
  refine Directory.ext ?_ (funext fun q => ?_) rfl
  · simp only [World.directory, ht, hname]
  · simpa [World.directory, Function.comp_def] using congrArg (Option.map Prod.snd) (hh q)

/-- Nobody came or went, and no reference did. -/
structure SamePeers (w w' : World) : Prop where
  heap : w'.heap = w.heap
  table : ∀ b, w'.table b = w.table b
  refs : w'.refs = w.refs

theorem SamePeers.refl (w : World) : SamePeers w w := ⟨rfl, fun _ => rfl, rfl⟩

theorem samePeers_setBus {bus : DAPeerBus} (h : bus.peers.getD [] = w.table b) :
    SamePeers w (w.setBus b bus) := by
  refine ⟨rfl, fun b' => ?_, rfl⟩
  rw [table_setBus]
  split_ifs with hb
  · rw [hb, h]
  · rfl

theorem samePeers_cleanup (w : World) (b : DABus) : SamePeers w (w.cleanup b) := by
  unfold World.cleanup
  split_ifs with h
  · exact samePeers_setBus h.symm
  · exact .refl w

theorem samePeers_connect (w : World) (b : DABus) : SamePeers w (w.connect b) :=
  samePeers_setBus rfl

theorem World.Unchanged.samePeers (h : w.Unchanged w') : SamePeers w w' :=
  ⟨h.heap, fun b => by rw [World.table, h.daBus, World.table], h.refs⟩

theorem SamePeers.trans {w1 : World} (h : SamePeers w w1) (h' : SamePeers w1 w') : SamePeers w w' :=
  ⟨h'.heap.trans h.heap, fun b => (h'.table b).trans (h.table b), h'.refs.trans h.refs⟩

theorem SamePeers.directory (h : SamePeers w w') : w'.directory = w.directory := by
  rw [directory_congr w h.table fun q => by rw [h.heap], h.refs]
  rfl

/-! References of clients. -/

theorem directory_ref (hex : (Event.ref (some p)).exec w = some w') :
    w'.directory = w.directory.setRefs p (w.refs p + 1) := by
  obtain ⟨priv, hpriv, hex⟩ := Option.bind_eq_some_iff.1 hex
  have hheap : w.heap p = some priv := hpriv
  rw [← Option.some.inj hex]
  refine directory_congr w (fun _ => rfl) fun q => ?_
  by_cases hq : q = p <;> simp [World.setPeer, World.setRefs, hq, hheap]

theorem Inv.directory_unref (h : Inv w) (hr : 0 < w.refs p)
    (hex : (Event.unref (some p)).exec w = some w') (h' : Inv w') :
    w'.directory = (w.directory.setRefs p (w.refs p - 1)).collect := by
  have hex2 : daPeerUnref (w.setRefs p (w.refs p - 1)) p = some w' := hex
  obtain ⟨-, hframe⟩ := h.toReached.unref _ hex2
  obtain ⟨priv, hpriv⟩ : ∃ priv, w.heap p = some priv :=
    (h.held_iff p).1 (Or.inr hr)
  obtain rfl := Option.some.inj
    (((h.ordered.setRefs p (w.refs p - 1)).unref_eq hpriv).symm.trans hex2)
  have hcached : ∀ q, ((w.setRefs p (w.refs p - 1)).release p priv).Cached q ↔ w.Cached q := by
    refine cached_congr fun b => ?_
    rw [World.table, release_daBus]
    rfl
  refine h.directory_collect h' hframe (fun q => (hcached q).1) rfl (fun b name q => ?_) ?_
  · rw [hcached]
    exact ⟨fun hq => ⟨hq, (h.core.entry_iff.1 hq).1⟩, fun hq => hq.1⟩
  · rw [release_refs]
    rfl

/-! Removals. -/

theorem evict_refs (w : World) (p : PeerId) (priv : DAPeerPriv) (e : Entry) :
    (w.evict p priv e).refs = w.refs := by
  unfold World.evict World.cleanup
  split_ifs <;> exact release_refs ..

theorem evict_heap (w : World) (p : PeerId) (priv : DAPeerPriv) (e : Entry) (q : PeerId) :
    (w.evict p priv e).heap q = if q = p then
      if priv.refCount = 1 then none
      else some { priv with refCount := priv.refCount - 1, timeoutId := 0, nameWatchId := 0 }
    else w.heap q := by
  unfold World.evict World.unlink World.cleanup World.release
  split_ifs <;> simp_all [World.free, World.setPeer, World.setPeers, World.setBus]

theorem evict_table (w : World) (p : PeerId) (priv : DAPeerPriv) (e : Entry) (b : DABus) :
    (w.evict p priv e).table b =
      if b = priv.bus then (w.table b).erase e else w.table b := by
  unfold World.evict World.unlink
  rw [(samePeers_cleanup _ _).table, World.table, release_daBus]
  change (World.setPeers _ _ _).table b = _
  rw [World.setPeers, table_setBus]
  split_ifs with hb
  · rw [hb]
    rfl
  · rfl

theorem Inv.cached_evict (h : Inv w) (hp : w.heap p = some priv) (hc : w.Cached p) (q : PeerId) :
    (w.evict p priv ⟨p, p⟩).Cached q ↔ w.Cached q ∧ q ≠ p := by
  have h' := (h.evict hp hc).2
  have hheap := evict_heap w p priv ⟨p, p⟩ q
  have hcount := (h.cached_iff hp).1 hc
  by_cases hq : q = p
  · subst hq
    refine iff_of_false (fun hcached => ?_) fun hcached => hcached.2 rfl
    obtain ⟨priv', hpriv'⟩ := h'.core.live hcached
    have hcount' := (h'.cached_iff hpriv').1 hcached
    rw [hpriv', if_pos rfl] at hheap
    split_ifs at hheap with hone
    obtain rfl := Option.some.inj hheap
    -- one reference was given up
    rw [evict_refs, ← hcount, Int32.sub_eq_iff_eq_add, Int32.left_eq_add] at hcount'
    cases hcount'
  · rw [if_neg hq] at hheap
    cases hpriv : w.heap q with
    | none =>
      refine iff_of_false (fun hcached => ?_) fun hcached => ?_
      · obtain ⟨priv', hpriv'⟩ := h'.core.live hcached
        rw [hheap, hpriv] at hpriv'
        cases hpriv'
      · obtain ⟨priv', hpriv'⟩ := h.core.live hcached.1
        rw [hpriv] at hpriv'
        cases hpriv'
    | some priv' =>
      rw [h'.cached_iff (hheap.trans hpriv), h.cached_iff hpriv, evict_refs]
      simp [hq]

theorem Inv.directory_evict (h : Inv w) (hp : w.heap p = some priv) (hc : w.Cached p) :
    (w.evict p priv ⟨p, p⟩).directory =
      (w.directory.setEntry priv.bus priv.name none).collect := by
  obtain ⟨-, h'⟩ := h.evict hp hc
  obtain ⟨-, hframe⟩ := h.toReached.evict hp (h.shape.cached_mem hp hc)
  refine h.directory_collect h' hframe (fun q hq => ((h.cached_evict hp hc q).1 hq).1) rfl
    (fun b name q => ?_) (evict_refs ..).symm
  rw [h.cached_evict hp hc]
  rw [Directory.setEntry_entry]
  split_ifs with hself
  · -- the entry of the peer itself
    obtain ⟨rfl, rfl⟩ := hself
    rw [h.core.entry_of_cached hp hc]
    simp only [Option.some.injEq, false_iff]
    rintro ⟨rfl, -, hne⟩
    exact hne rfl
  · refine ⟨fun hq => ⟨hq, (h.core.entry_iff.1 hq).1, ?_⟩, fun hq => hq.1⟩
    rintro rfl
    obtain ⟨-, priv', hpriv', rfl, rfl⟩ := h.core.entry_iff.1 hq
    obtain rfl : priv' = priv := by simpa [hp] using hpriv'.symm
    exact hself ⟨rfl, rfl⟩

/-! Flushing a bus. -/

/-- The same tables and references, and no new timeouts. -/
structure QuietStep (w w' : World) : Prop where
  daBus : w'.daBus = w.daBus
  refs : w'.refs = w.refs
  timeouts : ∀ id p, w'.timeouts id = some p → w.timeouts id = some p

def Quiet (w : World) (x : Option World) : Prop := ∀ w', x = some w' → QuietStep w w'

theorem Quiet.look {α : Type} {x : Option α} {f : α → Option World} (hf : ∀ a, Quiet w (f a)) :
    Quiet w (x >>= f) := by
  intro w' hw'
  obtain ⟨a, -, ha⟩ := Option.bind_eq_some_iff.1 hw'
  exact hf a w' ha

theorem Quiet.ite {c : Prop} [Decidable c] {x y : Option World} (hx : Quiet w x)
    (hy : Quiet w y) : Quiet w (if c then x else y) := by
  split_ifs
  · exact hx
  · exact hy

theorem Quiet.pure (hb : w'.daBus = w.daBus) (hr : w'.refs = w.refs)
    (ht : w'.timeouts = w.timeouts) : Quiet w (some w') := by
  rintro _ ⟨rfl⟩
  exact ⟨hb, hr, fun id p hid => ht ▸ hid⟩

theorem Quiet.after {u : World} {x : Option World} (h : Quiet w (some u)) (hx : Quiet u x) :
    Quiet w x := by
  intro w' hw'
  obtain ⟨hb, hr, ht⟩ := h u rfl
  obtain ⟨hb', hr', ht'⟩ := hx w' hw'
  exact ⟨hb'.trans hb, hr'.trans hr, fun id p hid => ht id p (ht' id p hid)⟩

theorem Quiet.bind {x : Option World} {f : World → Option World} (hx : Quiet w x)
    (hf : ∀ w1, Quiet w1 (f w1)) : Quiet w (x >>= f) := by
  intro w' hw'
  obtain ⟨w1, h1, h2⟩ := Option.bind_eq_some_iff.1 hw'
  have hpure : Quiet w (some w1) := fun _ he => Option.some.inj he ▸ hx w1 h1
  exact hpure.after (hf w1) w' h2

theorem Quiet.none : Quiet w none := by
  intro w' hw'
  cases hw'

theorem Quiet.foldlM {α : Type} {f : World → α → Option World} (hf : ∀ w a, Quiet w (f w a))
    (l : List α) (w : World) : Quiet w (l.foldlM f w) := by
  induction l generalizing w with
  | nil => exact .pure rfl rfl rfl
  | cons a l ih =>
    rw [List.foldlM_cons]
    exact (hf w a).bind ih

theorem gSourceRemove_quiet (w : World) (id : ℕ) : Quiet w (gSourceRemove w id) := by
  refine .ite ?_ .none
  rintro _ ⟨rfl⟩
  refine ⟨rfl, rfl, fun id' p hid => ?_⟩
  simp only [Function.update_apply] at hid
  split_ifs at hid
  exact hid

theorem gBusUnwatchName_quiet (w : World) (id : ℕ) : Quiet w (gBusUnwatchName w id) :=
  .ite (.pure rfl rfl rfl) .none

theorem daPeerDispose_quiet (w : World) (p : PeerId) : Quiet w (daPeerDispose w p) := by
  have hlast : ∀ w1, Quiet w1 (do
      let priv ← w1.heap p
      if priv.timeoutId ≠ 0 then do
        let w2 ← gSourceRemove w1 priv.timeoutId
        some (w2.setPeer p { priv with timeoutId := 0 })
      else some w1) := fun _ =>
    .look fun _ => .ite ((gSourceRemove_quiet _ _).bind fun _ => .pure rfl rfl rfl) (.pure rfl rfl rfl)
  refine .look fun priv => .ite ?_ ?_
  · exact (gBusUnwatchName_quiet _ _).bind fun w1 => .bind (.pure rfl rfl rfl) hlast
  · exact .bind (.pure rfl rfl rfl) hlast

theorem daCredPrivCleanup_quiet (w : World) (p : PeerId) : Quiet w (daCredPrivCleanup w p) :=
  .look fun _ => .ite (.ite (.pure rfl rfl rfl) .none) (.pure rfl rfl rfl)

theorem daPeerFinalize_quiet (w : World) (p : PeerId) : Quiet w (daPeerFinalize w p) := by
  refine .look fun priv => ?_
  have hcleanup : ∀ w1, Quiet w1 (daCredPrivCleanup w1 p) := (daCredPrivCleanup_quiet · p)
  have hlast : ∀ w1, Quiet w1 (if priv.timeoutId ≠ 0 then
      gSourceRemove w1 priv.timeoutId >>= fun w2 => daCredPrivCleanup w2 p
      else some w1 >>= fun w2 => daCredPrivCleanup w2 p) := fun _ =>
    .ite ((gSourceRemove_quiet _ _).bind hcleanup) (.bind (.pure rfl rfl rfl) hcleanup)
  refine .after (u := { w with
    finalized := Function.update w.finalized p (w.finalized p + 1) }) (.pure rfl rfl rfl) ?_
  exact .ite ((gBusUnwatchName_quiet _ _).bind hlast) (.bind (.pure rfl rfl rfl) hlast)

theorem daPeerUnref_quiet (w : World) (p : PeerId) : Quiet w (daPeerUnref w p) := by
  refine .look fun priv => .ite ?_ (.pure rfl rfl rfl)
  intro w' hw'
  obtain ⟨w1, h1, h2⟩ := Option.bind_eq_some_iff.1 hw'
  obtain ⟨hb, hr, ht⟩ := daPeerFinalize_quiet _ p w1 h1
  obtain rfl := Option.some.inj h2
  exact ⟨hb, hr, ht⟩

theorem daPeerCleanup_tables (hex : daPeerCleanup w b = some w') :
    (∀ b', w'.table b' = w.table b') ∧ w'.refs = w.refs := by
  obtain ⟨table, htable, hex⟩ := Option.bind_eq_some_iff.1 hex
  have hsame := daPeerCleanup_eq (w := w) (b := b) (by rw [htable]; rfl)
  have hcleanup := samePeers_cleanup w b
  obtain rfl : w.cleanup b = w' := by
    rw [daPeerCleanup, htable] at hsame
    exact Option.some.inj (hsame.symm.trans hex)
  exact ⟨hcleanup.table, hcleanup.refs⟩

theorem Inv.flush_tables (h : Inv w) {type : DABus} (hex : daPeerFlush w type none = some w') :
    (∀ b, w'.table b = if b = type then [] else w.table b) ∧ w'.refs = w.refs := by
  unfold daPeerFlush at hex
  rcases daPeerBus_cases (h.closed type) false ⟨false, none, fun _ => none⟩ with
    ⟨hbus, hc⟩ | ⟨hbus, -, hsame⟩
  · rw [hbus] at hex
    obtain rfl := Option.some.inj hex
    have hnil : w.table type = [] := by
      by_contra hne
      rw [(h.closed type).1.2 hne] at hc
      cases hc
    refine ⟨fun b => ?_, rfl⟩
    split_ifs with hb
    · rw [hb, hnil]
    · rfl
  · rw [hbus, hsame rfl] at hex
    obtain ⟨table, -, hex⟩ := Option.bind_eq_some_iff.1 hex
    obtain ⟨w1, h1, hex⟩ := Option.bind_eq_some_iff.1 hex
    obtain ⟨w2, h2, h3⟩ := Option.bind_eq_some_iff.1 hex
    obtain ⟨table', -, h2⟩ := Option.bind_eq_some_iff.1 h2
    obtain ⟨hbus1, hrefs1, -⟩ := Quiet.foldlM (fun w e => daPeerDispose_quiet w _) table w w1 h1
    obtain ⟨hbus2, hrefs2, -⟩ := Quiet.foldlM (fun w e => daPeerUnref_quiet w _) table' _ w2 h2
    obtain ⟨htable, hrefs⟩ := daPeerCleanup_tables h3
    refine ⟨fun b => ?_, hrefs.trans (hrefs2.trans hrefs1)⟩
    rw [htable, World.table, hbus2]
    change (World.setPeers w1 type []).table b = _
    rw [World.setPeers, table_setBus]
    split_ifs
    · rfl
    · rw [World.table, World.table, hbus1]

theorem Inv.directory_flushAll (h : Inv w) {type : DABus}
    (hex : daPeerFlush w type none = some w') : w'.directory = (w.directory.clear type).collect := by
  obtain ⟨w2, hex2, h'⟩ := h.flush type none
  obtain ⟨-, hframe⟩ := h.toReached.flush hex2
  obtain rfl : w2 = w' := Option.some.inj (hex2.symm.trans hex)
  obtain ⟨htable, hrefs⟩ := h.flush_tables hex
  have hsub : ∀ q, w2.Cached q → w.Cached q := by
    rintro q ⟨b, e, he, rfl⟩
    rw [htable] at he
    split_ifs at he
    · cases he
    · exact ⟨b, e, he, rfl⟩
  refine h.directory_collect h' hframe hsub rfl (fun b name q => ?_) hrefs.symm
  rw [Directory.clear_entry]
  split_ifs with hb
  · subst hb
    refine iff_of_false (fun hq => ?_) fun ⟨hq, hcached⟩ => ?_
    · cases hq
    · -- a peer of this bus is in no other table
      obtain ⟨-, priv, hpriv, rfl, -⟩ := h.core.entry_iff.1 hq
      obtain ⟨priv', hpriv'⟩ := h'.core.live hcached
      have hmem := h'.shape.cached_mem hpriv' hcached
      obtain ⟨priv'', hpriv'', hs⟩ := hframe.heap q priv' hpriv'
      obtain rfl : priv'' = priv := by simpa [hpriv] using hpriv''.symm
      rw [htable, if_pos hs.2.2.1] at hmem
      cases hmem
  · refine ⟨fun hq => ⟨hq, ?_⟩, fun hq => hq.1⟩
    obtain ⟨hcached, priv, hpriv, rfl, -⟩ := h.core.entry_iff.1 hq
    have hmem := h.shape.cached_mem hpriv hcached
    exact ⟨priv.bus, _, by rw [htable, if_neg hb]; exact hmem, rfl⟩

/-! Requests. -/

theorem Outside.answer_iff {peer : DAPeer} {c : Bool} : out.answer c name = some peer ↔
    (c || out.gBusGetSync) = true ∧ ∃ pid data cred credPriv, out.pid = some pid ∧
      out.gFileGetContents (statusFile pid) = some data ∧
      daCredParse .zero ⟨none⟩ data = .ok (true, cred, credPriv) ∧
      peer = ⟨.SYSTEM, name, toInt pid.toNat, cred⟩ := by
  unfold Outside.answer
  split_ifs with hc
  · simp only [hc, true_and, Option.bind_eq_bind, Option.bind_eq_some_iff]
    refine exists_congr fun pid => ?_
    apply Iff.intro
    · rintro ⟨hpid, data, hdata, hmatch⟩
      split at hmatch
      · rename_i cred credPriv hparse
        exact ⟨data, cred, credPriv, hpid, hdata, hparse, (Option.some.inj hmatch).symm⟩
      · cases hmatch
    · rintro ⟨data, cred, credPriv, hpid, hdata, hparse, rfl⟩
      exact ⟨hpid, data, hdata, by rw [hparse]⟩
  · simp [hc]

theorem Outside.tells.answer {pid : UInt32} {data : List UInt8} {cred : DACred}
    {credPriv : DACredPriv} (h : out.tells pid data cred credPriv) :
    out.answer true name = some ⟨.SYSTEM, name, toInt pid.toNat, cred⟩ := by
  obtain ⟨hpid, hdata, hparse⟩ := h
  exact Outside.answer_iff.2 ⟨rfl, pid, data, cred, credPriv, hpid, hdata, hparse, rfl⟩

theorem Outside.answer_none (h : ∀ pid data cred credPriv, ¬ out.tells pid data cred credPriv) :
    out.answer true name = none := by
  rw [Option.eq_none_iff_forall_ne_some]
  intro peer hpeer
  obtain ⟨-, pid, data, cred, credPriv, hpid, hdata, hparse, -⟩ := Outside.answer_iff.1 hpeer
  exact h pid data cred credPriv ⟨hpid, hdata, hparse⟩

/-- What a request for a name that is not in the table finds out. -/
theorem Core.getNew_answer (h : Core w) (ho : BusOpen w b)
    (hname : ∀ e ∈ w.table b, w.nameOf e.value ≠ some name) {r : Option PeerId}
    (hget : daPeerGetNew w b name out = some (w', r)) :
    (r = none ∧ out.answer true name = none ∧ SamePeers w w') ∨
      ∃ w1 priv, r = some w.nextPeer ∧ w' = w.withNew w1 b ∧ Made w w1 priv ∧ priv.bus = b ∧
        priv.name = name ∧ out.answer true name = some priv.pub := by
  have hresult := h.shape.getNew ho name out (h.keys hname)
  rw [hget] at hresult
  cases hresult with
  | refused hnone => exact Or.inl ⟨rfl, Outside.answer_none hnone, samePeers_cleanup w b⟩
  | dropped hm hnone =>
    refine Or.inl ⟨rfl, Outside.answer_none hnone, ?_⟩
    exact (hm.unchanged h.shape).samePeers.trans (samePeers_cleanup _ b)
  | cached hm hbus hpriv hpub htells =>
    refine Or.inr ⟨_, _, rfl, rfl, hm, hbus, hpriv, ?_⟩
    rw [htells.answer, ← hpub]

theorem Core.directory_withNew {w1 : World} (h : Core w) (hm : Made w w1 priv)
    (h' : Core (w.withNew w1 priv.bus)) (hnone : w.directory.entry priv.bus priv.name = none) :
    (w.withNew w1 priv.bus).directory =
      { w.directory.setEntry priv.bus priv.name (some w.nextPeer) with
        peer := Function.update w.directory.peer w.nextPeer (some priv.pub) } := by
  have hheap : ∀ q, (w.withNew w1 priv.bus).heap q =
      if q = w.nextPeer then some priv else w.heap q := by
    intro q
    split_ifs with hq
    · exact hq ▸ hm.self
    · exact hm.other q hq
  refine Directory.ext (funext fun b => funext fun name => Option.ext fun q => ?_)
    (funext fun q => ?_) hm.refs
  · rw [Directory.setEntry_entry, h'.entry_iff, hm.cached_withNew, hheap]
    by_cases hq : q = w.nextPeer
    · subst hq
      have hfree : w.directory.entry b name ≠ some w.nextPeer := fun hentry =>
        h.shape.not_cached_new (h.entry_iff.1 hentry).1
      grind
    · rw [if_neg hq, or_iff_left hq, ← h.entry_iff]
      grind
  · simp only [World.directory, hheap, Function.update_apply]
    split_ifs <;> rfl

theorem Outside.answer_connected {c : Bool} (h : (c || out.gBusGetSync) = true) :
    out.answer c name = out.answer true name := by
  simp [Outside.answer, h]

theorem directory_renew (hp : w.heap p = some priv) :
    (w.renew p priv).directory = w.directory := by
  refine directory_congr w (fun _ => rfl) fun q => ?_
  by_cases hq : q = p <;> simp [World.renew, hq, hp]

/-- What a request for a name that is not in the table does. -/
theorem Core.directory_getNew (h : Core w) (ho : BusOpen w b)
    (hnone : w.directory.entry b name = none) {r : Option PeerId} (h' : Core w')
    (hget : daPeerGetNew w b name out = some (w', r)) :
    r = (out.answer true name).map (fun _ => w.nextPeer) ∧ w'.directory =
      match out.answer true name with
      | some peer => { w.directory.setEntry b name (some w.nextPeer) with
          peer := Function.update w.directory.peer w.nextPeer (some peer) }
      | none => w.directory := by
  rcases h.getNew_answer ho (directory_entry_none.1 hnone) hget with
    ⟨rfl, hanswer, hsame⟩ | ⟨w1, priv, rfl, rfl, hm, rfl, rfl, hanswer⟩
  · rw [hanswer]
    exact ⟨rfl, hsame.directory⟩
  · rw [hanswer]
    exact ⟨rfl, h.directory_withNew hm h' hnone⟩

theorem Inv.after_get (h : Inv w) {type : DABus} {r : Option PeerId}
    (hget : daPeerGet w type (some name) out = some (w', r)) : Inv w' := by
  rcases h.get type name out with ⟨hnone, -⟩ | ⟨w2, r2, hget2, hinv⟩
  · rw [hget] at hnone
    cases hnone
  · rw [hget] at hget2
    obtain ⟨rfl, -⟩ := Prod.mk.inj (Option.some.inj hget2)
    exact hinv

/-- The table has a cached peer under its name, on a bus that is connected. -/
theorem Inv.lookup_found (h : Inv w) (hp : w.heap p = some priv) (hc : w.Cached p) (init : Bool)
    (out : Outside) : daPeerBus w priv.bus init out = (w, some priv.bus) ∧
      gHashTableLookup w priv.bus priv.name = some (some p) := by
  have hopen := h.open_of_mem (h.shape.cached_mem hp hc)
  obtain ⟨-, table, htable, hkeys, hfind⟩ := h.core.find hp hc hopen
  refine ⟨?_, ?_⟩
  · have hself : (⟨some table, true⟩ : DAPeerBus) = w.daBus priv.bus := by
      rw [← htable, ← hopen.1]
    simp [daPeerBus, hopen.1, htable, hself, World.setBus]
  · simp only [gHashTableLookup, htable, Option.bind_eq_bind, Option.bind_some,
      gHashTableFind_eq priv.name hkeys, hfind]
    rfl

/-- The surroundings are not asked for a cached peer. -/
theorem Inv.get_found (h : Inv w) (hp : w.heap p = some priv) (hc : w.Cached p) (out : Outside) :
    daPeerGet w priv.bus (some priv.name) out = some (w.renew p priv, some p) := by
  obtain ⟨hbus, hlookup⟩ := h.lookup_found hp hc true out
  simp [daPeerGet, hbus, hlookup, daPeerResetTimeout_eq hp (h.ordered.inUse hp).1]

theorem Inv.flush_found (h : Inv w) (hp : w.heap p = some priv) (hc : w.Cached p) :
    daPeerFlush w priv.bus (some priv.name) = some (w.evict p priv ⟨p, p⟩) := by
  obtain ⟨hbus, hlookup⟩ := h.lookup_found hp hc false ⟨false, none, fun _ => none⟩
  simp [daPeerFlush, hbus, hlookup, (h.evict hp hc).1]

/-- Where a name is not in the table, the bus is asked when it can be reached. -/
theorem Inv.get_missing (h : Inv w) {type : DABus} {r : Option PeerId}
    (hnone : w.directory.entry type name = none)
    (hget : daPeerGet w type (some name) out = some (w', r)) :
    ((w.daBus type).connection || out.gBusGetSync) = true ∧
        daPeerGetNew (w.connect type) type name out = some (w', r) ∨
      ((w.daBus type).connection || out.gBusGetSync) = false ∧ r = none ∧ w' = w := by
  rcases daPeerBus_cases (h.closed type) true out with ⟨hb, hc⟩ | ⟨hb, hc, -⟩
  · simp only [daPeerGet, hb, Option.some.injEq, Prod.mk.injEq] at hget
    exact Or.inr ⟨hc, hget.2.symm, hget.1.symm⟩
  · refine Or.inl ⟨hc, ?_⟩
    obtain ⟨found, hlookup⟩ := (h.core.connect type).lookup (connect_open w type).2 name
    cases found with
    | none => simpa [daPeerGet, hb, hlookup] using hget
    | some p =>
      -- the name would be in the directory
      obtain ⟨priv, hp, -, rfl, hmem⟩ := (h.core.connect type).shape.lookup hlookup
      rw [connect_table] at hmem
      exact absurd (nameOf_eq hp) (directory_entry_none.1 hnone _ hmem)

/-- A request that does not find its peer puts a new one in front of the table. -/
theorem Inv.get_new (h : Inv w) {type : DABus} (hnone : w.directory.entry type name = none)
    (hget : daPeerGet w type (some name) out = some (w', some p)) :
    p = w.nextPeer ∧ (∀ b, w'.table b = if b = type then ⟨p, p⟩ :: w.table b else w.table b) ∧
      (∀ q, q ≠ p → w'.heap q = w.heap q) ∧ w'.refs = w.refs ∧
      ∃ priv, w'.heap p = some priv ∧ priv.refCount = 1 ∧ priv.bus = type ∧ priv.name = name ∧
        out.answer (w.daBus type).connection name = some priv.pub := by
  rcases h.get_missing hnone hget with ⟨hc, hnew⟩ | ⟨-, hr, -⟩
  · have hname : ∀ e ∈ (w.connect type).table type, w.nameOf e.value ≠ some name := by
      rw [connect_table]
      exact directory_entry_none.1 hnone
    rcases (h.core.connect type).getNew_answer (connect_open w type) hname hnew with
      ⟨hr, -⟩ | ⟨w1, priv, hr, rfl, hm, rfl, rfl, hanswer⟩
    · cases hr
    · obtain rfl := Option.some.inj hr
      refine ⟨rfl, fun b => ?_, hm.other, hm.refs, priv, hm.self, hm.refCount, rfl, rfl, ?_⟩
      · rw [hm.table_withNew, connect_table]
      · rw [Outside.answer_connected hc, hanswer]
  · cases hr

/-- What a request returns, and what it does to the directory. -/
theorem Inv.directory_get (h : Inv w) {type : DABus} {r : Option PeerId}
    (hget : daPeerGet w type (some name) out = some (w', r)) :
    r = w.reply type name out ∧
      (w.request type name out).enabled w.directory ∧
      (w.request type name out).exec w.directory = some w'.directory := by
  unfold World.reply World.request
  cases hentry : w.directory.entry type name with
  | some p =>
    obtain ⟨hcached, priv, hpriv, rfl, rfl⟩ := h.core.entry_iff.1 hentry
    rw [h.get_found hpriv hcached, Option.some.injEq, Prod.mk.injEq] at hget
    obtain ⟨rfl, rfl⟩ := hget
    rw [directory_renew hpriv]
    exact ⟨rfl, hentry, rfl⟩
  | none =>
    have h' := h.after_get hget
    have hfree : w.directory.peer w.nextPeer = none := by
      simp [World.directory, h.ordered.nextPeer]
    rcases h.get_missing hentry hget with ⟨hc, hnew⟩ | ⟨hc, rfl, rfl⟩
    · have hsame := (samePeers_connect w type).directory
      obtain ⟨rfl, hafter⟩ := (h.core.connect type).directory_getNew (connect_open w type)
        (hsame ▸ hentry) h'.core hnew
      rw [Outside.answer_connected hc, hafter, hsame]
      cases out.answer true name with
      | none => exact ⟨rfl, hentry, rfl⟩
      | some peer => exact ⟨rfl, ⟨hentry, hfree⟩, rfl⟩
    · have hanswer : out.answer (w'.daBus type).connection name = none := by
        rw [Outside.answer, if_neg (by simp [hc])]
      rw [hanswer]
      exact ⟨rfl, hentry, rfl⟩

/-! Events. -/

theorem Inv.directory_remove (h : Inv w) (hp : w.heap p = some priv) (hc : w.Cached p)
    (hex : daPeerRemove w p = some w') :
    (Directory.Action.forgot priv.bus priv.name).enabled w.directory ∧
      (Directory.Action.forgot priv.bus priv.name).exec w.directory = some w'.directory := by
  have hremove := (h.evict hp hc).1
  rw [hex] at hremove
  refine ⟨?_, ?_⟩
  · rw [Directory.Action.enabled, h.core.entry_of_cached hp hc]
    rfl
  · rw [Option.some.inj hremove, h.directory_evict hp hc]
    rfl

/-- A name that is not in the table is flushed already. -/
theorem Inv.flush_missing (h : Inv w) {type : DABus} (hnone : w.directory.entry type name = none)
    (hex : daPeerFlush w type (some name) = some w') : w' = w := by
  rcases daPeerBus_cases (h.closed type) false ⟨false, none, fun _ => none⟩ with
    ⟨hb, -⟩ | ⟨hb, -, hsame⟩
  · simp only [daPeerFlush, hb] at hex
    exact (Option.some.inj hex).symm
  · have hpeers : (w.daBus type).peers.isSome = true := by
      rw [← hsame rfl]
      exact (connect_open w type).2
    rw [hsame rfl] at hb
    obtain ⟨found, hlookup⟩ := h.core.lookup hpeers name
    simp only [daPeerFlush, hb, hlookup, Option.bind_eq_bind, Option.bind_some] at hex
    cases found with
    | none => exact (Option.some.inj hex).symm
    | some p =>
      obtain ⟨priv, hp, -, rfl, hmem⟩ := h.shape.lookup hlookup
      exact absurd (nameOf_eq hp) (directory_entry_none.1 hnone _ hmem)

theorem Inv.directory_flush (h : Inv w) {type : DABus}
    (hex : daPeerFlush w type (some name) = some w') :
    ((Event.flush type (some name)).action w).enabled w.directory ∧
      ((Event.flush type (some name)).action w).exec w.directory = some w'.directory := by
  cases hentry : w.directory.entry type name with
  | none =>
    rw [Event.action, hentry, h.flush_missing hentry hex]
    exact ⟨trivial, rfl⟩
  | some p =>
    obtain ⟨hcached, priv, hpriv, rfl, rfl⟩ := h.core.entry_iff.1 hentry
    have hremove := (h.evict hpriv hcached).1
    rw [h.flush_found hpriv hcached] at hex
    rw [Event.action, hentry]
    exact h.directory_remove hpriv hcached (hremove.trans hex)

/-- Every event does one action of the directory. -/
theorem Inv.directory_step (h : Inv w) (hen : e.enabled w) (hex : e.exec w = some w') :
    (e.action w).enabled w.directory ∧ (e.action w).exec w.directory = some w'.directory := by
  cases e with
  | get type name out =>
    cases name with
    | none =>
      obtain rfl := Option.some.inj hex
      exact ⟨trivial, rfl⟩
    | some name =>
      obtain ⟨⟨w2, r⟩, hget, rfl⟩ := Option.map_eq_some_iff.1 hex
      exact (h.directory_get hget).2
  | ref peer =>
    cases peer with
    | none =>
      obtain rfl := Option.some.inj hex
      exact ⟨trivial, rfl⟩
    | some p =>
      refine ⟨?_, ?_⟩
      · simp only [Event.action, Directory.Action.enabled, World.directory, Option.isSome_map]
        exact hen
      · rw [directory_ref hex]
        rfl
  | unref peer =>
    cases peer with
    | none =>
      obtain rfl := Option.some.inj hex
      exact ⟨trivial, rfl⟩
    | some p =>
      obtain ⟨w2, hex2, h'⟩ := h.unref hen
      obtain rfl : w2 = w' := Option.some.inj (hex2.symm.trans hex)
      refine ⟨hen, ?_⟩
      rw [h.directory_unref hen hex h']
      rfl
  | flush type name =>
    cases name with
    | none =>
      refine ⟨trivial, ?_⟩
      rw [h.directory_flushAll hex]
      rfl
    | some name => exact h.directory_flush hex
  | timeout id =>
    obtain ⟨p, hp⟩ := Option.isSome_iff_exists.1 hen
    obtain ⟨hcached, priv, hpriv, rfl⟩ := h.timeout_cached hp
    have hopen := h.open_of_mem (h.shape.cached_mem hpriv hcached)
    obtain ⟨w2, hex2, hw2⟩ := h.core.timeout hpriv hcached hopen
    simp only [Event.exec, hp, hex2, Option.bind_eq_bind, Option.bind_some, hw2] at hex
    have hremove := (h.evict hpriv hcached).1
    rw [hex] at hremove
    simp only [Event.action, hp, Option.bind_some, hpriv]
    exact h.directory_remove hpriv hcached hremove
  | vanished id =>
    obtain ⟨watch, hwatch⟩ := Option.isSome_iff_exists.1 hen
    obtain ⟨p, priv, hcached, hpriv, rfl, rfl⟩ := (h.watches_iff id watch).1 hwatch
    simp only [Event.exec, hwatch, Option.bind_eq_bind, Option.bind_some, daPeerVanished] at hex
    simp only [Event.action, hwatch]
    exact h.directory_remove hpriv hcached hex

/-! Runs. -/

theorem directory_init : World.init.directory = directorySystem.init := rfl

/-- In every run in which no count comes round the cache does what the directory does, event
by event, and a request returns the peer in the directory, without it the peer that the
surroundings tell of. -/
theorem peerCache_refines (acts : List Event) (w : World) (h : Run countedPeers acts w) :
    (∃ steps, Labelled countedPeers (fun w e => e.action w) acts steps ∧
      Run directorySystem steps w.directory) ∧
    ∀ type name out w' r, daPeerGet w type (some name) out = some (w', r) →
      r = w.reply type name out := by
  refine ⟨h.simulate World.directory (fun w e => e.action w) directory_init ?_, ?_⟩
  · intro acts w e w' hrun hen hex
    exact (run_inv hrun).directory_step hen.1 hex
  · intro type name out w' r hget
    exact ((run_inv h).directory_get hget).1

theorem peerCache_refines_timeout : ∃ w,
    Run countedPeers
      [exampleRequest .SYSTEM, .ref (some 0), exampleRequest .SESSION, .timeout 1] w ∧
    (∃ steps, Labelled countedPeers (fun w e => e.action w)
        [exampleRequest .SYSTEM, .ref (some 0), exampleRequest .SESSION, .timeout 1] steps ∧
      Run directorySystem steps w.directory) ∧
    ∀ type name out w' r, daPeerGet w type (some name) out = some (w', r) →
      r = w.reply type name out := by
  obtain ⟨w, hw⟩ := Option.isSome_iff_exists.1 (show (countedPeers.replay .init
    [exampleRequest .SYSTEM, .ref (some 0), exampleRequest .SESSION, .timeout 1]).isSome = true by
      decide +kernel)
  have hrun := Run.nil.replay hw
  exact ⟨w, hrun, peerCache_refines _ w hrun⟩

/-! Requests for the same name. -/

/-- An entry goes in two ways. -/
theorem Directory.Action.lost {a : Directory.Action} (hen : a.enabled d)
    (hex : a.exec d = some d') (h : d.entry b name = some p) (hnot : d'.entry b name ≠ some p) :
    a = .forgot b name ∨ a = .cleared b := by
  cases a with
  | learned bus n q peer =>
    obtain rfl := Option.some.inj hex
    rw [setEntry_entry] at hnot
    split_ifs at hnot with hself
    · obtain ⟨rfl, rfl⟩ := hself
      rw [hen.1] at h
      cases h
    · exact absurd h hnot
  | forgot bus n =>
    obtain rfl := Option.some.inj hex
    change (d.setEntry bus n none).entry b name ≠ _ at hnot
    rw [setEntry_entry] at hnot
    split_ifs at hnot with hself
    · exact Or.inl (hself.1 ▸ hself.2 ▸ rfl)
    · exact absurd h hnot
  | cleared bus =>
    obtain rfl := Option.some.inj hex
    change (d.clear bus).entry b name ≠ _ at hnot
    rw [clear_entry] at hnot
    split_ifs at hnot with hself
    · exact Or.inr (hself ▸ rfl)
    · exact absurd h hnot
  | _ =>
    obtain rfl := Option.some.inj hex
    exact absurd h hnot

/-- Only the events that drop a peer take its entry away. -/
theorem Inv.drops (h : Inv w) (hen : e.enabled w) (hex : e.exec w = some w')
    (hentry : w.directory.entry b name = some p) (hnot : w'.directory.entry b name ≠ some p) :
    e.drops w b name p := by
  obtain ⟨hen', hex'⟩ := h.directory_step hen hex
  have hlost := Directory.Action.lost hen' hex' hentry hnot
  have hself : ∀ q priv, w.heap q = some priv → w.Cached q → priv.bus = b → priv.name = name →
      q = p := by
    rintro q priv hq hc rfl rfl
    exact Option.some.inj ((h.core.entry_of_cached hq hc).symm.trans hentry)
  cases e with
  | get type name =>
    cases name with
    | none => simp [Event.action] at hlost
    | some name =>
      change w.request type name _ = _ ∨ w.request type name _ = _ at hlost
      unfold World.request at hlost
      split at hlost
      · simp at hlost
      · split at hlost <;> simp at hlost
  | ref peer => cases peer <;> simp [Event.action] at hlost
  | unref peer => cases peer <;> simp [Event.action] at hlost
  | flush type name =>
    cases name with
    | none => simpa [Event.action, Event.drops] using hlost
    | some name =>
      simp only [Event.action] at hlost
      split_ifs at hlost
      · simpa [Event.drops] using hlost
      · simp at hlost
  | timeout id =>
    obtain ⟨q, hq⟩ := Option.isSome_iff_exists.1 hen
    obtain ⟨hcached, priv, hpriv, rfl⟩ := h.timeout_cached hq
    simp only [Event.action, hq, Option.bind_some, hpriv, Directory.Action.forgot.injEq,
      reduceCtorEq, or_false] at hlost
    rw [Event.drops, hq, hself q priv hpriv hcached hlost.1 hlost.2]
  | vanished id =>
    obtain ⟨watch, hwatch⟩ := Option.isSome_iff_exists.1 hen
    obtain ⟨q, priv, hcached, hpriv, -, rfl⟩ := (h.watches_iff id watch).1 hwatch
    simp only [Event.action, hwatch, Directory.Action.forgot.injEq, reduceCtorEq,
      or_false] at hlost
    exact ⟨_, hwatch, hself q priv hpriv hcached hlost.1 hlost.2⟩

/-- What a request returned is in the directory. -/
theorem Inv.entry_get (h : Inv w) {type : DABus}
    (hget : daPeerGet w type (some name) out = some (w', some p)) :
    w'.directory.entry type name = some p := by
  obtain ⟨hreply, -, hex⟩ := h.directory_get hget
  unfold World.reply at hreply
  unfold World.request at hex
  cases hentry : w.directory.entry type name with
  | some q =>
    rw [hentry] at hreply hex
    rw [← Option.some.inj hex, hentry, hreply]
    rfl
  | none =>
    rw [hentry] at hreply hex
    cases hanswer : out.answer (w.daBus type).connection name with
    | none => simp [hanswer] at hreply
    | some peer =>
      rw [hanswer] at hreply hex
      rw [← Option.some.inj hex]
      change (w.directory.setEntry type name _).entry type name = _
      rw [Directory.setEntry_entry, if_pos ⟨rfl, rfl⟩, hreply]
      rfl

/-- In every run in which no count comes round a peer that a request returned is what every
later request for the name returns, with the same contents and without asking outside, until
the name or the bus is flushed or the timeout or the watch of the peer strikes. -/
theorem request_repeats (acts acts' : List Event) (w w1 w2 : World) (type : DABus)
    (name : CString) (out : Outside) (p : PeerId) (h : Run countedPeers acts w)
    (hget : daPeerGet w type (some name) out = some (w1, some p))
    (h' : Run countedPeers (acts ++ .get type (some name) out :: acts') w2)
    (hkept : ∀ l e r s, acts' = l ++ e :: r →
      Run countedPeers (acts ++ .get type (some name) out :: l) s → ¬ e.drops s type name p) :
    ∃ w3, (∀ out', daPeerGet w2 type (some name) out' = some (w3, some p)) ∧
      ∃ peer, w1.directory.peer p = some peer ∧ w3.directory.peer p = some peer := by
  have hex : (Event.get type (some name) out).exec w = some w1 := by simp [Event.exec, hget]
  have h1 : Run countedPeers (acts ++ [.get type (some name) out]) w1 :=
    h.snoc ⟨trivial, trivial⟩ hex
  have happend : ∀ l, acts ++ .get type (some name) out :: l =
      (acts ++ [.get type (some name) out]) ++ l := by simp
  rw [happend] at h'
  obtain ⟨priv, hpriv, rfl, rfl⟩ := (run_inv h).toReached.get_peer hget
  have hentry := (run_inv h).entry_get hget
  have hentry2 : w2.directory.entry priv.bus priv.name = some p := by
    by_contra hnot
    obtain ⟨l, e, r, s, s', rfl, hs, hP, hen, hex, hlost⟩ := h1.lost
      (P := fun w => w.directory.entry priv.bus priv.name = some p) hentry h' hnot
    rw [← happend] at hs
    exact hkept l e r s rfl hs ((run_inv hs).drops hen.1 hex hP hlost)
  obtain ⟨hcached, priv2, hpriv2, hbus, hname⟩ := (run_inv h').core.entry_iff.1 hentry2
  rw [← hbus, ← hname]
  refine ⟨w2.renew p priv2, (run_inv h').get_found hpriv2 hcached, priv.pub, ?_, ?_⟩
  · simp [World.directory, hpriv]
  · rw [directory_renew hpriv2]
    simp [World.directory, hpriv2, (run_sameData h1.of_restrict hpriv h'.of_restrict hpriv2).1]

/-- The system bus keeps its peer while the session bus is flushed. -/
theorem request_repeats_flush : ∃ w1 w2,
    daPeerGet .init .SYSTEM (some (str ":1.1")) exampleOutside = some (w1, some 0) ∧
    Run countedPeers [exampleRequest .SYSTEM, exampleRequest .SESSION, .flush .SESSION none] w2 ∧
    ∃ w3, (∀ out', daPeerGet w2 .SYSTEM (some (str ":1.1")) out' = some (w3, some 0)) ∧
      ∃ peer, w1.directory.peer 0 = some peer ∧ w3.directory.peer 0 = some peer := by
  have hsome : ((daPeerGet .init .SYSTEM (some (str ":1.1")) exampleOutside).bind Prod.snd) =
      some 0 := by
    decide +kernel
  obtain ⟨⟨w1, r⟩, hget, rfl⟩ := Option.bind_eq_some_iff.1 hsome
  obtain ⟨w2, hw2⟩ := Option.isSome_iff_exists.1 (show (countedPeers.replay .init
    [exampleRequest .SYSTEM, exampleRequest .SESSION, .flush .SESSION none]).isSome = true by
      decide +kernel)
  have hrun : Run countedPeers ([] ++ [exampleRequest .SYSTEM, exampleRequest .SESSION,
      .flush .SESSION none]) w2 := Run.nil.replay hw2
  refine ⟨w1, w2, hget, hrun, request_repeats [] [exampleRequest .SESSION, .flush .SESSION none] .init
    w1 w2 .SYSTEM (str ":1.1") exampleOutside 0 .nil hget hrun ?_⟩
  rintro l e r s hsplit -
  have he : e ∈ [exampleRequest .SESSION, .flush .SESSION none] := by
    rw [hsplit]
    exact List.mem_append_right l (List.mem_cons_self ..)
  simp only [List.mem_cons, List.not_mem_nil, or_false] at he
  rcases he with rfl | rfl
  · exact id
  · simp [Event.drops]

end DbusAccess
