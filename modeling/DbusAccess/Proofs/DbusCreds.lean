import DbusAccess.Proofs.CredRoundTrip
import DbusAccess.Proofs.Directory
import DbusAccess.Spec.DbusCreds

/-! The tool reads what is there, leaves the library as it found it, and its report says
what it is about. -/

namespace DbusAccess

open Numerals Transition

variable {w w' : World} {p : PeerId} {priv : DAPeerPriv} {out : Outside} {b : DABus}
  {name : CString} {acts : List Event} {peer peer' : DAPeer} {cred cred' : DACred}

/-! Numbers. -/

theorem decimal_digit {n : ℕ} {c : UInt8} (hc : c ∈ decimal n) : isDigitIn 10 c = true :=
  isDecimal_digit (isDecimal_decimal n) hc

theorem numeral_decimal (n : ℕ) : numeral 10 (decimal n) = some n :=
  numeral_eq_some.2 ⟨isDecimal_ne_nil (isDecimal_decimal n), fun _ => decimal_digit, value_decimal n⟩

/-- What `%d` prints can be read. -/
theorem signed_percentD (z : ℤ) : signed (numeral 10) (percentD z) = some z := by
  unfold percentD
  split_ifs with hz
  · have hsign : readSign (ch '-' :: decimal z.natAbs) = (true, decimal z.natAbs) := rfl
    rw [signed_eq_some, hsign]
    refine ⟨z.natAbs, numeral_decimal _, ?_⟩
    simp only [if_true]
    omega
  · obtain ⟨c, t, ht⟩ := List.exists_cons_of_ne_nil (isDecimal_ne_nil (isDecimal_decimal z.natAbs))
    have hc := (digit_not_blank (decimal_digit (n := z.natAbs) (by rw [ht]; exact List.mem_cons_self ..))).2
    have hsign : readSign (decimal z.natAbs) = (false, decimal z.natAbs) := by
      rw [ht, readSign, if_neg hc.1, if_neg hc.2]
    rw [signed_eq_some, hsign]
    refine ⟨z.natAbs, numeral_decimal _, ?_⟩
    simp only [Bool.false_eq_true, if_false]
    omega

theorem percentD_injective {z z' : ℤ} (h : percentD z = percentD z') : z = z' := by
  have hz := signed_percentD z
  rw [h, signed_percentD] at hz
  exact (Option.some.inj hz).symm

theorem percentDId_injective {id id' : UInt32} (h : percentDId id = percentDId id') : id = id' := by
  have hint := congrArg (· % 2 ^ 32) (percentD_injective h)
  have hlt := id.toNat_lt
  have hlt' := id'.toNat_lt
  simp only [toInt_emod] at hint
  exact UInt32.toNat_inj.1 (by omega)

/-- Digits and a sign. -/
theorem percentD_bytes {z : ℤ} {c : UInt8} (hc : c ∈ percentD z) : c ≠ ch '\n' ∧ c ≠ ch ' ' := by
  have hdigit : ∀ n, ∀ c ∈ decimal n, c ≠ ch '\n' ∧ c ≠ ch ' ' := by
    intro n c hc
    have hspace := (digit_not_space (decimal_digit hc)).1
    refine ⟨?_, ?_⟩ <;> rintro rfl <;> revert hspace <;> decide
  unfold percentD at hc
  split_ifs at hc
  · rcases List.mem_cons.1 hc with rfl | hc
    · decide
    · exact hdigit _ c hc
  · exact hdigit _ c hc

theorem percentD_ne_nil (z : ℤ) : percentD z ≠ [] := by
  unfold percentD
  split_ifs
  · exact List.cons_ne_nil _ _
  · exact isDecimal_ne_nil (isDecimal_decimal _)

/-! Groups. -/

theorem intercalate_cons (c : UInt8) (s : CString) (l : List CString) :
    [c].intercalate (s :: l) = s ++ l.flatMap (c :: ·) := by
  induction l generalizing s with
  | nil => simp
  | cons t l ih => rw [List.intercalate_cons_cons, ih, List.flatMap_cons]; simp

/-- With something in the buffer, every item comes behind a separator. -/
theorem join_behind {α : Type} (c : UInt8) (f : α → CString) (l : List α) {buf : CString}
    (h : buf ≠ []) : l.foldl (fun buf a => (if 0 < buf.length then buf ++ [c] else buf) ++ f a) buf =
      buf ++ l.flatMap fun a => c :: f a := by
  induction l generalizing buf with
  | nil => simp
  | cons a l ih =>
    rw [List.foldl_cons, if_pos (List.length_pos_iff.2 h), ih (by simp), List.flatMap_cons]
    simp

theorem join_eq {α : Type} (c : UInt8) (f : α → CString) (hf : ∀ a, f a ≠ []) (l : List α) :
    l.foldl (fun buf a => (if 0 < buf.length then buf ++ [c] else buf) ++ f a) [] =
      [c].intercalate (l.map f) := by
  cases l with
  | nil => rfl
  | cons a l =>
    rw [List.foldl_cons, List.map_cons, intercalate_cons, List.flatMap_map]
    exact join_behind c f l (hf a)

theorem groupsBuf_eq (groups : List UInt32) :
    groupsBuf groups = [ch ' '].intercalate (groups.map percentDId) :=
  join_eq (ch ' ') percentDId (fun _ => percentD_ne_nil _) groups

theorem groupsBuf_injective {groups groups' : List UInt32} (h : groupsBuf groups = groupsBuf groups') :
    groups = groups' := by
  have hwords : ∀ groups : List UInt32, groups ≠ [] →
      (groupsBuf groups).splitOn (ch ' ') = groups.map percentDId := by
    intro groups hne
    rw [groupsBuf_eq]
    refine List.splitOn_intercalate _ (fun l hl hmem => ?_) (by simpa using hne)
    obtain ⟨id, -, rfl⟩ := List.mem_map.1 hl
    exact (percentD_bytes hmem).2 rfl
  have hnil : ∀ groups : List UInt32, groupsBuf groups = [] → groups = [] := by
    intro groups hbuf
    by_contra hne
    have hsplit := hwords groups hne
    obtain ⟨id, rest, rfl⟩ := List.exists_cons_of_ne_nil hne
    rw [hbuf, List.splitOn_nil, List.map_cons] at hsplit
    exact percentD_ne_nil _ (List.cons.inj hsplit).1.symm
  by_cases hne : groups = []
  · subst hne
    exact (hnil groups' h.symm).symm
  · have hne' : groups' ≠ [] := by
      rintro rfl
      exact hne (hnil groups h)
    have hsplit := hwords groups hne
    rw [h, hwords groups' hne'] at hsplit
    exact (List.map_injective_iff.2 (fun _ _ => percentDId_injective) hsplit).symm

theorem groupsBuf_no_newline (groups : List UInt32) : ch '\n' ∉ groupsBuf groups := by
  rw [groupsBuf_eq]
  intro hmem
  cases groups with
  | nil => cases hmem
  | cons id groups =>
    rw [List.map_cons, intercalate_cons, List.mem_append, List.mem_flatMap] at hmem
    rcases hmem with hmem | ⟨l, hl, hmem⟩
    · exact (percentD_bytes hmem).1 rfl
    · obtain ⟨id', -, rfl⟩ := List.mem_map.1 hl
      rcases List.mem_cons.1 hmem with heq | hmem
      · revert heq
        decide
      · exact (percentD_bytes hmem).1 rfl

/-! Reports. -/

/-- The lines of a report. -/
def Reported.lines (r : Reported) : List CString :=
  [str "Pid: " ++ percentD r.pid, str "Uid: " ++ percentDId r.euid,
    str "Gid: " ++ percentDId r.egid] ++
  (r.groups.toList.map fun groups => str "Groups: " ++ groupsBuf groups) ++
  r.caps.toList.map fun caps => str "Caps: 0x" ++ fixedWidth 16 16 caps.toNat

theorem report_eq (peer : DAPeer) : report peer = peer.reported.lines.flatMap (· ++ [ch '\n']) := by
  have hnl : str "\n" = [ch '\n'] := rfl
  unfold report Reported.lines DAPeer.reported printIds printGroups printCaps
  rw [hnl]
  split_ifs <;> simp

theorem fixedWidth_bytes {n : ℕ} {c : UInt8} (hc : c ∈ fixedWidth 16 16 n) : c ≠ ch '\n' := by
  have hspace := (digit_not_space (isDigitIn_fixedWidth (by decide) (by decide) 16 n c hc)).1
  rintro rfl
  revert hspace
  decide

theorem Reported.lines_no_newline (r : Reported) : ∀ line ∈ r.lines, ch '\n' ∉ line := by
  have hkey : ∀ key body : CString, ch '\n' ∉ key → ch '\n' ∉ body → ch '\n' ∉ key ++ body := by
    intro key body hk hb hmem
    exact (List.mem_append.1 hmem).elim hk hb
  have hnum : ∀ z, ch '\n' ∉ percentD z := fun z hmem => (percentD_bytes hmem).1 rfl
  intro line hline
  simp only [Reported.lines, List.mem_append, List.mem_cons, List.not_mem_nil, or_false,
    List.mem_map, Option.mem_toList] at hline
  rcases hline with ((rfl | rfl | rfl) | ⟨groups, -, rfl⟩) | ⟨caps, -, rfl⟩
  · exact hkey _ _ (by decide) (hnum _)
  · exact hkey _ _ (by decide) (hnum _)
  · exact hkey _ _ (by decide) (hnum _)
  · exact hkey _ _ (by decide) (groupsBuf_no_newline groups)
  · exact hkey _ _ (by decide) fun hmem => fixedWidth_bytes hmem rfl

theorem fixedWidth_injective {caps caps' : UInt64}
    (h : fixedWidth 16 16 caps.toNat = fixedWidth 16 16 caps'.toNat) : caps = caps' := by
  have hvalue := congrArg (value 16) h
  have hlt := caps.toNat_lt
  have hlt' := caps'.toNat_lt
  rw [value_fixedWidth (by decide) (by decide), value_fixedWidth (by decide) (by decide)] at hvalue
  exact UInt64.toNat_inj.1 (by omega)

theorem Reported.lines_injective {r r' : Reported} (h : r.lines = r'.lines) : r = r' := by
  obtain ⟨pid, euid, egid, groups, caps⟩ := r
  obtain ⟨pid', euid', egid', groups', caps'⟩ := r'
  simp only [Reported.lines, List.cons_append, List.nil_append, List.cons.injEq,
    List.append_cancel_left_eq] at h
  obtain ⟨hpid, huid, hgid, hrest⟩ := h
  obtain rfl := percentD_injective hpid
  obtain rfl := percentDId_injective huid
  obtain rfl := percentDId_injective hgid
  have hkeys : ∀ x y : CString, str "Groups: " ++ x ≠ str "Caps: 0x" ++ y := by
    intro x y heq
    have hhead : ch 'G' = ch 'C' := (List.cons.inj heq).1
    exact absurd hhead (by decide)
  cases groups <;> cases groups' <;> cases caps <;> cases caps' <;>
    simp only [Option.toList_none, Option.toList_some, List.map_nil, List.map_cons, List.nil_append,
      List.append_nil, List.cons_append, List.cons.injEq, List.append_cancel_left_eq, and_true,
      reduceCtorEq, and_false] at hrest
  · rfl
  · rw [fixedWidth_injective hrest]
  · exact absurd hrest.symm (hkeys _ _)
  · exact absurd hrest (hkeys _ _)
  · rw [groupsBuf_injective hrest]
  · rw [groupsBuf_injective hrest.1, fixedWidth_injective hrest.2]

/-- Two reports are the same only where they are about the same. -/
theorem report_injective (peer peer' : DAPeer) :
    report peer = report peer' ↔ peer.reported = peer'.reported := by
  constructor
  · intro h
    rw [report_eq, report_eq] at h
    have hsplit := splitOn_lines (Reported.lines_no_newline peer.reported)
    rw [h, splitOn_lines (Reported.lines_no_newline peer'.reported)] at hsplit
    exact Reported.lines_injective (List.append_cancel_right hsplit).symm
  · intro h
    rw [report_eq, report_eq, h]

/-! The tool gives back what it takes. -/

/-- Groups are in an allocated array. -/
theorem Known.groups (h : Known acts p priv) (hne : priv.pub.cred.groups ≠ []) :
    priv.cred.groups.isSome = true := by
  obtain ⟨-, -, pid, data, -, -, hparse⟩ := h
  obtain ⟨-, hcred, hpriv⟩ : _ ∧ priv.pub.cred = (Status.ofText data).credWith cutWords ∧
      priv.cred = ⟨(Status.ofText data).groupsWith cutWords⟩ := by
    simpa only [Prod.mk.injEq] using daCredParse_cut hparse
  rw [hcred, Status.credWith] at hne
  rw [hpriv, Status.groupsWith]
  cases hline : (Status.ofText data).groups with
  | none => simp [hline] at hne
  | some value =>
    have hwords : cutWords value ≠ [] := by
      intro hnil
      simp [hline, hnil] at hne
    simp [hwords]

/-- The same cache, but for the timeout of a peer. -/
structure Refreshed (w w' : World) (p : PeerId) (priv : DAPeerPriv) : Prop where
  inv : Inv w'
  heap : ∃ id, w'.heap p = some { priv with timeoutId := id }
  other : ∀ q, q ≠ p → w'.heap q = w.heap q
  table : ∀ b, w'.table b = w.table b
  refs : w'.refs = w.refs

/-- The second request, if any, finds what the first one did. -/
theorem Inv.gAssertSame_eq (h : Inv w) (hp : w.heap p = some priv) (hc : w.Cached p)
    (debug : Bool) (out : Outside) :
    ∃ w', gAssertSame debug w ⟨priv.bus, priv.name⟩ p out = some (w', true) ∧
      Refreshed w w' p priv := by
  cases debug with
  | false => exact ⟨w, rfl, h, ⟨priv.timeoutId, hp⟩, fun _ _ => rfl, fun _ => rfl, rfl⟩
  | true =>
    have hget := h.get_found hp hc out
    refine ⟨w.renew p priv, by simp [gAssertSame, hget], h.after_get hget, ⟨w.nextTimeout, ?_⟩,
      fun q hq => ?_, fun _ => rfl, rfl⟩
    · simp [World.renew]
    · simp [World.renew, hq]

/-! Timeouts, watches, arrays and connections follow from the peers and the tables. -/

theorem Inv.daBus_eq (h : Inv w) (b : DABus) : w.daBus b =
    if w.table b = [] then ⟨none, false⟩ else ⟨some (w.table b), true⟩ := by
  have hclosed := h.closed b
  unfold BusClosed World.table at hclosed
  unfold World.table
  generalize w.daBus b = bus at hclosed ⊢
  obtain ⟨peers, connection⟩ := bus
  obtain ⟨h1, h2⟩ := hclosed
  cases connection with
  | true =>
    obtain ⟨table, rfl⟩ := Option.isSome_iff_exists.1 (h2.2 rfl)
    rw [if_neg (h1.1 rfl)]
    rfl
  | false =>
    obtain rfl : peers = none := by simpa using h2
    rfl

theorem SamePeers.unchanged (h : SamePeers w w') (hw : Inv w) (hw' : Inv w') : w.Unchanged w' where
  heap := h.heap
  refs := h.refs
  daBus := by
    funext b
    rw [hw'.daBus_eq, hw.daBus_eq, h.table]
  timeouts := by
    funext id
    refine Option.ext fun p => ?_
    rw [hw'.timeouts_iff, hw.timeouts_iff, h.heap, cached_congr h.table]
  watches := by
    funext id
    refine Option.ext fun watch => ?_
    simp only [hw'.watches_iff, hw.watches_iff, h.heap, cached_congr h.table]
  groups := by
    funext p
    rw [Bool.eq_iff_iff, hw'.ordered.groups, hw.ordered.groups, h.heap]

/-- When a peer that was just made is flushed, nobody came. -/
theorem Inv.samePeers_evict (h : Inv w) {w1 w2 : World} {type : DABus}
    (hnone : w.directory.entry type name = none)
    (hget : daPeerGet w type (some name) out = some (w1, some p)) (hp : w1.heap p = some priv)
    (hr : Refreshed w1 w2 p priv) (id : ℕ) :
    SamePeers w (w2.evict p { priv with timeoutId := id } ⟨p, p⟩) := by
  obtain ⟨rfl, htable, hheap, hrefs, priv', hpriv', hcount, hbus, -, -⟩ := h.get_new hnone hget
  obtain rfl : priv' = priv := by simpa [hp] using hpriv'.symm
  refine ⟨funext fun q => ?_, fun b => ?_, ?_⟩
  · rw [evict_heap]
    by_cases hq : q = w.nextPeer
    · rw [if_pos hq, if_pos hcount, hq, h.ordered.nextPeer w.nextPeer le_rfl]
    · rw [if_neg hq, hr.other q hq, hheap q hq]
  · rw [evict_table, hr.table, htable, hbus]
    split_ifs
    · exact List.erase_cons_head ..
    · rfl
  · rw [evict_refs, hr.refs, hrefs]

/-- What the tool prints and returns for an answer. -/
def AppResult.expected : Option DAPeer → AppResult
  | some peer => ⟨report peer, RET_OK, true⟩
  | none => ⟨[], RET_NOTFOUND, true⟩

theorem Inv.appRun_found (h : Inv w) {app : App} (debug : Bool) (out' : Outside)
    (hnone : w.directory.entry app.bus app.name = none)
    (hget : daPeerGet w app.bus (some app.name) out = some (w', some p))
    (hp : w'.heap p = some priv)
    (hgroups : priv.pub.cred.groups ≠ [] → priv.cred.groups.isSome = true) :
    ∃ w2, appRun debug w app out out' = some (w2, ⟨report priv.pub, RET_OK, true⟩) ∧ Inv w2 ∧
      SamePeers w w2 := by
  have h' := h.after_get hget
  obtain ⟨-, htable, -, -, priv', hpriv', -, hbus, hname, -⟩ := h.get_new hnone hget
  obtain rfl : priv' = priv := by simpa [hp] using hpriv'.symm
  have hc : w'.Cached p := ⟨app.bus, ⟨p, p⟩, by rw [htable, if_pos rfl]; simp, rfl⟩
  obtain ⟨w2, hagain, hr⟩ := h'.gAssertSame_eq hp hc debug out'
  obtain ⟨id, hp2⟩ := hr.heap
  have hc2 : w2.Cached p := (cached_congr hr.table p).2 hc
  have hflush := hr.inv.flush_found hp2 hc2
  have hread : ¬(priv'.pub.cred.groups ≠ [] ∧ w2.groups p = false) := by
    rintro ⟨hne, hfreed⟩
    rw [hr.inv.ordered.groups_eq hp2, hgroups hne] at hfreed
    cases hfreed
  refine ⟨_, ?_, (hr.inv.evict hp2 hc2).2, h.samePeers_evict hnone hget hp hr id⟩
  rw [hbus, hname] at hagain hflush
  simp only [appRun, hget, Option.bind_eq_bind, Option.bind_some, hp, hagain, hp2, if_neg hread,
    hflush]
  rw [← hbus, ← hname]
  rfl

/-- In every run in which no count comes round, for a name that is not in the cache, the tool
prints what the surroundings told, its assertion holds, and it leaves the library as it was. -/
theorem appRun_restores (debug : Bool) (acts : List Event) (w : World) (app : App)
    (out out' : Outside) (h : Run countedPeers acts w)
    (hnone : w.directory.entry app.bus app.name = none) :
    (appRun debug w app out out' = none ∧ out.faults) ∨
      ∃ w', appRun debug w app out out' = some (w',
          .expected (out.answer (w.daBus app.bus).connection app.name)) ∧
        w.Unchanged w' := by
  have hinv := run_inv h
  rcases hinv.get app.bus app.name out with ⟨hget, hfaults⟩ | ⟨w1, r, hget, -⟩
  · exact Or.inl ⟨by simp [appRun, hget], hfaults⟩
  right
  have hreply := (hinv.directory_get hget).1
  rw [World.reply, hnone] at hreply
  cases r with
  | none =>
    have hanswer : out.answer (w.daBus app.bus).connection app.name = none := by
      simpa using hreply.symm
    refine ⟨w1, ?_, (hinv.toReached.get hget).2.2 rfl⟩
    rw [hanswer]
    simp [appRun, hget, AppResult.expected]
  | some p =>
    obtain ⟨priv, hp, -, -, hknown⟩ := get_known h.of_restrict hget
    obtain ⟨-, -, -, -, priv', hp', -, -, -, hanswer⟩ := hinv.get_new hnone hget
    obtain rfl : priv' = priv := by simpa [hp] using hp'.symm
    obtain ⟨w2, hrun, hinv2, hsame⟩ := hinv.appRun_found debug out' hnone hget hp hknown.groups
    rw [hanswer]
    exact ⟨w2, hrun, hsame.unchanged hinv hinv2⟩

/-- A peer of the other bus is in use. -/
theorem appRun_restores_again : ∃ w w', Run countedPeers [exampleRequest .SYSTEM] w ∧
    appRun true w ⟨.SESSION, str ":1.1"⟩ exampleOutside exampleOutside =
      some (w', ⟨str "Pid: 77\nUid: 2\nGid: 2\nGroups: 5 6\n", RET_OK, true⟩) ∧
    w.Unchanged w' := by
  have hrun : ((countedPeers.replay .init [exampleRequest .SYSTEM]).bind fun w =>
      (appRun true w ⟨.SESSION, str ":1.1"⟩ exampleOutside exampleOutside).map fun r =>
        (w.directory.entry .SESSION (str ":1.1"), r.2)) =
      some (none, ⟨str "Pid: 77\nUid: 2\nGid: 2\nGroups: 5 6\n", RET_OK, true⟩) := by
    decide +kernel
  obtain ⟨w, hw, hrun⟩ := Option.bind_eq_some_iff.1 hrun
  obtain ⟨⟨w', r⟩, hrun, hr⟩ := Option.map_eq_some_iff.1 hrun
  obtain ⟨hnone, rfl⟩ := Prod.mk.inj hr
  rcases appRun_restores true _ w ⟨.SESSION, str ":1.1"⟩ exampleOutside exampleOutside
    (Run.nil.replay hw) hnone with ⟨hfault, -⟩ | ⟨w2, hrun2, hsame⟩
  · rw [hfault] at hrun
    cases hrun
  · rw [hrun] at hrun2
    obtain rfl := (Prod.mk.inj (Option.some.inj hrun2)).1
    exact ⟨w, w', Run.nil.replay hw, hrun, hsame⟩

end DbusAccess
