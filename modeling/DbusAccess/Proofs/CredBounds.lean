import DbusAccess.Proofs.CredMemory

/-! Which accesses of the parser stay within the buffer and the keys. -/

namespace DbusAccess

open Trace

variable {m : Memory} {P : Access → Prop} {key k v : List UInt8} {n ptr start : ℕ} {st : Status}

/-! Zeros in keys and words. -/

def Status.NumbersOk (st : Status) : Prop := ∀ w ∈ st.numberWords, w.head? ≠ some 0

theorem Status.numbersOk_iff (st : Status) :
    st.NumbersOk ↔ (∀ w ∈ st.uidWord, w.head? ≠ some 0) ∧ (∀ w ∈ st.gidWord, w.head? ≠ some 0) ∧
      (∀ w ∈ st.groupWords, w.head? ≠ some 0) ∧ ∀ w ∈ st.capsWord, w.head? ≠ some 0 := by
  simp only [NumbersOk, numberWords, List.forall_mem_append, Option.mem_toList, and_assoc,
    Option.mem_def]

theorem cStr_ne_nil {w : List UInt8} (hw : w ≠ []) : cStr w ≠ [] ↔ w.head? ≠ some 0 := by
  obtain ⟨c, w, rfl⟩ := List.exists_cons_of_ne_nil hw
  by_cases hc : c = 0
  · simp [cStr, hc]
  · simp [cStr_cons hc, hc]

theorem secondOfFour_map (f : CString → CString) (ws : List CString) :
    secondOfFour (ws.map f) = (secondOfFour ws).map f := by
  rcases ws with _ | ⟨_, _ | ⟨_, _ | ⟨_, _ | ⟨_, _ | ⟨_, _⟩⟩⟩⟩⟩ <;> rfl

theorem onlyWord_map (f : CString → CString) (ws : List CString) :
    onlyWord (ws.map f) = (onlyWord ws).map f := by
  rcases ws with _ | ⟨_, _ | ⟨_, _⟩⟩ <;> rfl

/-- A word that is cut to nothing starts with a zero. -/
theorem cut_ne_nil {o : Option CString} (ho : ∀ w ∈ o, w ≠ []) :
    (∀ w ∈ o.map cStr, w ≠ []) ↔ ∀ w ∈ o, w.head? ≠ some 0 := by
  cases o with
  | none => simp
  | some w => simpa using cStr_ne_nil (ho w rfl)

theorem cut_second (v : List UInt8) : (∀ w ∈ secondOfFour (cutWords v), w ≠ []) ↔
    ∀ w ∈ secondOfFour (words v), w.head? ≠ some 0 := by
  rw [cutWords, secondOfFour_map]
  exact cut_ne_nil fun w hw => words_ne_nil (secondOfFour_mem hw)

theorem cut_only (v : List UInt8) : (∀ w ∈ onlyWord (cutWords v), w ≠ []) ↔
    ∀ w ∈ onlyWord (words v), w.head? ≠ some 0 := by
  rw [cutWords, onlyWord_map]
  exact cut_ne_nil fun w hw => words_ne_nil (onlyWord_mem hw)

theorem cut_words (v : List UInt8) : (∀ w ∈ cutWords v, w ≠ []) ↔
    ∀ w ∈ words v, w.head? ≠ some 0 := by
  rw [cutWords, List.forall_mem_map]
  exact forall₂_congr fun w hw => cStr_ne_nil (words_ne_nil hw)

/-! One more line with a key. -/

theorem numbersOk_uid (hnone : st.uid = none) (h : st.NumbersOk) :
    Status.NumbersOk { st with uid := some v } ↔ ∀ w ∈ secondOfFour (cutWords v), w ≠ [] := by
  obtain ⟨uid, gid, groups, capEff⟩ := st
  obtain rfl : uid = none := hnone
  rw [Status.numbersOk_iff] at h ⊢
  rw [cut_second]
  exact ⟨fun hok => hok.1, fun hok => ⟨hok, h.2⟩⟩

theorem numbersOk_gid (hnone : st.gid = none) (h : st.NumbersOk) :
    Status.NumbersOk { st with gid := some v } ↔ ∀ w ∈ secondOfFour (cutWords v), w ≠ [] := by
  obtain ⟨uid, gid, groups, capEff⟩ := st
  obtain rfl : gid = none := hnone
  rw [Status.numbersOk_iff] at h ⊢
  rw [cut_second]
  exact ⟨fun hok => hok.2.1, fun hok => ⟨h.1, hok, h.2.2⟩⟩

theorem numbersOk_groups (hnone : st.groups = none) (h : st.NumbersOk) :
    Status.NumbersOk { st with groups := some v } ↔ ∀ w ∈ cutWords v, w ≠ [] := by
  obtain ⟨uid, gid, groups, capEff⟩ := st
  obtain rfl : groups = none := hnone
  rw [Status.numbersOk_iff] at h ⊢
  rw [cut_words]
  exact ⟨fun hok => hok.2.2.1, fun hok => ⟨h.1, h.2.1, hok, h.2.2.2⟩⟩

theorem numbersOk_capEff (hnone : st.capEff = none) (h : st.NumbersOk) :
    Status.NumbersOk { st with capEff := some v } ↔ ∀ w ∈ onlyWord (cutWords v), w ≠ [] := by
  obtain ⟨uid, gid, groups, capEff⟩ := st
  obtain rfl : capEff = none := hnone
  rw [Status.numbersOk_iff] at h ⊢
  rw [cut_only]
  exact ⟨fun hok => hok.2.2.2, fun hok => ⟨h.1, h.2.1, h.2.2.1, hok⟩⟩

namespace Memory

/-- A key that is sought is read beyond its end where a zero cuts it, and found where it is
the text in front of the colon. -/
theorem tryKey_ok (hstart : m.data.drop start = k ++ v) (hs : start ≤ m.data.length)
    (hk : ∀ c ∈ k, gAsciiIsspace c = false ∧ c ≠ ch ':') (hkey : 0 ∉ key)
    (seen : Option (List UInt8)) (line : List UInt8) :
    (All (Access.Ok m.data.length) (m.tryKey seen.isSome key start k.length) ↔
      (seen = none → ¬ KeyCut key (k ++ ch ':' :: line))) ∧
    ((seen = none → ¬ KeyCut key (k ++ ch ':' :: line)) →
      (m.tryKey seen.isSome key start k.length).value = sought seen key k) := by
  have htake : (m.data.drop start).take k.length = k := by rw [hstart, List.take_left]
  have hlen := congrArg List.length hstart
  rw [List.length_drop, List.length_append] at hlen
  have hle : k.length ≤ (m.data.drop start).length := by rw [List.length_drop]; omega
  rw [keyCut_of_key hk]
  cases seen with
  | some u => simp [tryKey, sought_some]
  | none =>
    have hall := all_daCredMatch (P := Access.Ok m.data.length) (m := m) (fun i hi => hi)
      (fun i hi => hi) hkey (show start + k.length ≤ m.data.length by omega)
    simp only [tryKey, Option.isSome_none, Bool.false_eq_true, if_false, hall, true_imp_iff]
    by_cases h0 : 0 ∈ k
    · rw [strncasecmp_zero (by rwa [htake]) hkey, htake]
      refine ⟨⟨fun h hcut => ?_, fun h hcut => absurd ⟨h0, hcut⟩ h⟩, fun h => ?_⟩
      · have hlt := length_cStr_lt h0
        have heq := congrArg List.length hcut.2
        have hok : k.length ≤ key.length := h hcut.2
        rw [List.length_map, List.length_map] at heq
        omega
      · have hmatch := daCredMatch_zero (n := k.length) (by rwa [htake]) hkey
        rw [htake, if_neg fun hcut => h ⟨h0, hcut⟩] at hmatch
        rw [value_daCredMatch hkey (by omega) hmatch,
          sought_of_ne none (zero_mem_map_toLower h0 hkey)]
    · have hcmp := strncasecmp_eq_zero (n := k.length) (by rwa [htake]) hkey hle
      have hmatch := daCredMatch_eq (n := k.length) (by rwa [htake]) hkey hle
      rw [htake] at hmatch
      refine ⟨⟨fun _ hcut => h0 hcut.1, fun _ hzero => (hcmp.1 hzero).1⟩, fun _ => ?_⟩
      exact value_daCredMatch hkey (by omega) hmatch

/-- What follows when a line has one of the keys. -/
def withValues (m : Memory) (ptr : ℕ) (f : List CString → Trace Access ParseState) :
    Trace Access (ParseState × ℕ) := do
  let (val, ptr) ← m.daCredParseValues ptr
  let s ← f val
  pure (s, ptr)

theorem withValues_spec (f : List CString → Trace Access ParseState)
    (hP : ∀ i < m.data.length, P (.data i)) (h : ptr ≤ m.data.length) :
    ∃ eol, ptr ≤ eol ∧ eol ≤ m.data.length ∧
      m.data.drop eol = (m.data.drop ptr).dropWhile (· ≠ ch '\n') ∧
      (All P (m.withValues ptr f) ↔
        All P (f (cutWords ((m.data.drop ptr).takeWhile (· ≠ ch '\n'))))) ∧
      (m.withValues ptr f).value =
        ((f (cutWords ((m.data.drop ptr).takeWhile (· ≠ ch '\n')))).value, eol) := by
  obtain ⟨hall, eol, hleft, hright, hvalue, hdrop⟩ := daCredParseValues_spec hP h
  refine ⟨eol, hleft, hright, hdrop, ?_, ?_⟩
  · simp only [withValues, all_bind, hall, hvalue, all_pure, and_true, true_and]
  · simp only [withValues, value_bind, hvalue, value_pure]

theorem parseKey_eq (m : Memory) (s : ParseState) (start n ptr : ℕ) :
    m.parseKey s start n ptr = (do
      if ← m.tryKey s.flags.UID (str "Uid") start n then m.withValues ptr (parseUid s)
      else if ← m.tryKey s.flags.GID (str "Gid") start n then m.withValues ptr (parseGid s)
      else if ← m.tryKey s.flags.GROUPS (str "Groups") start n then
        m.withValues ptr (parseGroups s)
      else if ← m.tryKey s.flags.CAP_EFF (str "CapEff") start n then
        m.withValues ptr (parseCapEff s)
      else pure (s, ptr)) := rfl

/-- A key that is cut and looked for is read beyond its end. -/
theorem keysOk_of_all (hstart : m.data.drop start = k ++ ch ':' :: v)
    (hs : start ≤ m.data.length) (hk : ∀ c ∈ k, gAsciiIsspace c = false ∧ c ≠ ch ':')
    {line : List UInt8}
    (h : All (Access.Ok m.data.length) (m.parseKey (st.stateWith cutWords) start k.length ptr)) :
    st.KeysOk (k ++ ch ':' :: line) := by
  by_cases h0 : 0 ∈ k
  · have htry : ∀ key, 0 ∉ key → ∀ seen : Option (List UInt8),
        All (Access.Ok m.data.length) (m.tryKey seen.isSome key start k.length) →
        (seen = none → ¬ KeyCut key (k ++ ch ':' :: line)) ∧
          (m.tryKey seen.isSome key start k.length).value = false := by
      intro key hkey seen hseen
      obtain ⟨hall, hvalue⟩ := tryKey_ok hstart hs hk hkey seen line
      refine ⟨hall.1 hseen, ?_⟩
      rw [hvalue (hall.1 hseen), sought_of_ne seen (zero_mem_map_toLower h0 hkey)]
    simp only [parseKey, Status.stateWith_UID, Status.stateWith_GID, Status.stateWith_GROUPS,
      Status.stateWith_CAP_EFF, all_bind (m.tryKey _ _ _ _)] at h
    obtain ⟨h1, h⟩ := h
    obtain ⟨huid, hvalue⟩ := htry (str "Uid") (by decide) st.uid h1
    rw [hvalue, if_neg Bool.false_ne_true, all_bind] at h
    obtain ⟨h2, h⟩ := h
    obtain ⟨hgid, hvalue⟩ := htry (str "Gid") (by decide) st.gid h2
    rw [hvalue, if_neg Bool.false_ne_true, all_bind] at h
    obtain ⟨h3, h⟩ := h
    obtain ⟨hgroups, hvalue⟩ := htry (str "Groups") (by decide) st.groups h3
    rw [hvalue, if_neg Bool.false_ne_true, all_bind] at h
    obtain ⟨hcapEff, -⟩ := htry (str "CapEff") (by decide) st.capEff h.1
    exact ⟨huid, hgid, hgroups, hcapEff⟩
  · have hno : ∀ key, ¬ KeyCut key (k ++ ch ':' :: line) := by
      intro key hcut
      exact h0 ((keyCut_of_key hk).1 hcut).1
    exact ⟨fun _ => hno _, fun _ => hno _, fun _ => hno _, fun _ => hno _⟩

/-- As long as no key is cut, a line is read as it is without positions. -/
theorem parseKey_ok (hstart : m.data.drop start = k ++ ch ':' :: v) (hs : start ≤ m.data.length)
    (hk : ∀ c ∈ k, gAsciiIsspace c = false ∧ c ≠ ch ':')
    (hkeys : st.KeysOk (k ++ ch ':' :: v.takeWhile (· ≠ ch '\n'))) :
    ∃ q, start + k.length + 1 ≤ q ∧ q ≤ m.data.length ∧
      (m.data.drop q).dropWhile (· ≠ ch '\n') = v.dropWhile (· ≠ ch '\n') ∧
      (m.parseKey (st.stateWith cutWords) start k.length (start + k.length + 1)).value =
        ((st.add (k ++ ch ':' :: v.takeWhile (· ≠ ch '\n'))).stateWith cutWords, q) ∧
      (st.NumbersOk →
        (All (Access.Ok m.data.length)
            (m.parseKey (st.stateWith cutWords) start k.length (start + k.length + 1)) ↔
          (st.add (k ++ ch ':' :: v.takeWhile (· ≠ ch '\n'))).NumbersOk)) := by
  have hlen := congrArg List.length hstart
  rw [List.length_drop, List.length_append, List.length_cons] at hlen
  have hptr : start + k.length + 1 ≤ m.data.length := by omega
  have hv : m.data.drop (start + k.length + 1) = v := by
    rw [Nat.add_assoc, ← List.drop_drop, hstart, ← List.drop_drop, List.drop_left]
    rfl
  have hidem : (v.dropWhile (· ≠ ch '\n')).dropWhile (· ≠ ch '\n') =
      v.dropWhile (· ≠ ch '\n') := List.dropWhile_idempotent _ _
  have hthen := fun f =>
    withValues_spec (m := m) (P := Access.Ok m.data.length) f (fun i hi => hi) hptr
  rw [hv] at hthen
  have htry := fun (key : CString) (hkey : 0 ∉ key) (seen : Option (List UInt8)) =>
    tryKey_ok hstart hs hk hkey seen (v.takeWhile (· ≠ ch '\n'))
  generalize v.takeWhile (· ≠ ch '\n') = line at hkeys hthen htry ⊢
  obtain ⟨a1, v1⟩ := htry (str "Uid") (by decide) st.uid
  obtain ⟨a2, v2⟩ := htry (str "Gid") (by decide) st.gid
  obtain ⟨a3, v3⟩ := htry (str "Groups") (by decide) st.groups
  obtain ⟨a4, v4⟩ := htry (str "CapEff") (by decide) st.capEff
  rw [parseKey_eq]
  simp only [all_bind, value_bind, value_ite, all_ite, Status.stateWith_UID, Status.stateWith_GID,
    Status.stateWith_GROUPS, Status.stateWith_CAP_EFF, a1.2 hkeys.uid, a2.2 hkeys.gid,
    a3.2 hkeys.groups, a4.2 hkeys.capEff, v1 hkeys.uid, v2 hkeys.gid, v3 hkeys.groups,
    v4 hkeys.capEff, true_and]
  rcases st.add_cases (v := line) hk with ⟨h1, hnone, hadd⟩ | ⟨h1, h2, hnone, hadd⟩ |
    ⟨h1, h2, h3, hnone, hadd⟩ | ⟨h1, h2, h3, h4, hnone, hadd⟩ | ⟨h1, h2, h3, h4, hadd⟩
  · obtain ⟨eol, hl, hr, hd, hall, hval⟩ := hthen (parseUid (st.stateWith cutWords))
    simp only [h1, if_true, hadd]
    refine ⟨eol, hl, hr, by rw [hd, hidem], ?_, fun hst => ?_⟩
    · rw [hval, value_parseUid, parseUid_state st line hnone]
    · rw [hall, all_parseUid, numbersOk_uid hnone hst]
      rfl
  · obtain ⟨eol, hl, hr, hd, hall, hval⟩ := hthen (parseGid (st.stateWith cutWords))
    simp only [h1, h2, Bool.false_eq_true, if_false, if_true, hadd]
    refine ⟨eol, hl, hr, by rw [hd, hidem], ?_, fun hst => ?_⟩
    · rw [hval, value_parseGid, parseGid_state st line hnone]
    · rw [hall, all_parseGid, numbersOk_gid hnone hst]
      rfl
  · obtain ⟨eol, hl, hr, hd, hall, hval⟩ := hthen (parseGroups (st.stateWith cutWords))
    have hempty : (st.stateWith cutWords).cred.groups = [] := by
      simp [Status.stateWith, Status.credWith, hnone]
    obtain ⟨hspec, hlist⟩ := parseGroups_spec (P := Access.Ok m.data.length)
      (fun i size hi => hi) _ (cutWords line) hempty
    rw [parseGroups_state st line hnone] at hlist
    simp only [h1, h2, h3, Bool.false_eq_true, if_false, if_true, hadd]
    refine ⟨eol, hl, hr, by rw [hd, hidem], ?_, fun hst => ?_⟩
    · rw [hval, ← Except.ok.inj hlist]
    · rw [hall, hspec, numbersOk_groups hnone hst]
      rfl
  · obtain ⟨eol, hl, hr, hd, hall, hval⟩ := hthen (parseCapEff (st.stateWith cutWords))
    simp only [h1, h2, h3, h4, Bool.false_eq_true, if_false, if_true, hadd]
    refine ⟨eol, hl, hr, by rw [hd, hidem], ?_, fun hst => ?_⟩
    · rw [hval, value_parseCapEff, parseCapEff_state st line hnone]
    · rw [hall, all_parseCapEff, numbersOk_capEff hnone hst]
      rfl
  · simp only [h1, h2, h3, h4, Bool.false_eq_true, if_false, hadd]
    refine ⟨_, le_rfl, hptr, by rw [hv], rfl, fun hst => ?_⟩
    rw [all_pure, true_iff]
    exact hst

/-- The rest of a line, with the end of line. -/
theorem skipLine_spec (h : ptr ≤ m.data.length) :
    ∃ eol, (m.skip (· ≠ ch '\n') (m.data.length - ptr) ptr).value = eol ∧ ptr ≤ eol ∧
      (if eol < m.data.length then eol + 1 else eol) ≤ m.data.length ∧
      m.data.drop (if eol < m.data.length then eol + 1 else eol) =
        ((m.data.drop ptr).dropWhile (· ≠ ch '\n')).tail := by
  have hline := skipped (· ≠ ch '\n') h le_rfl
  generalize (m.skip (· ≠ ch '\n') (m.data.length - ptr) ptr).value = eol at hline
  have hrest := hline.rest
  rw [between_end, between_end] at hrest
  have hright := hline.right
  refine ⟨eol, rfl, hline.left, ?_, ?_⟩
  · split_ifs <;> omega
  · rw [← hrest, List.tail_drop]
    split_ifs with heol
    · rfl
    · rw [List.drop_eq_nil_of_le (by omega), List.drop_eq_nil_of_le (by omega)]

/-- The key of a line, in the text and in the buffer. -/
theorem key_spec (hs : start < m.data.length)
    (hd : (m.data.drop start).dropWhile gAsciiIsspace = m.data.drop start) :
    ∃ k r, m.data.drop start = k ++ r ∧ (∀ c ∈ k, gAsciiIsspace c = false ∧ c ≠ ch ':') ∧
      (m.skip (fun c => !gAsciiIsspace c && c != ch ':') (m.data.length - start) start).value =
        start + k.length ∧
      (r = [] ∨ (∃ v, r = ch ':' :: v) ∨
        k ≠ [] ∧ ∃ c v, r = c :: v ∧ c ≠ ch ':' ∧ gAsciiIsspace c = true) := by
  have hsplit := List.takeWhile_append_dropWhile
    (p := fun c => !gAsciiIsspace c && c != ch ':') (l := m.data.drop start)
  have hstop := List.head?_dropWhile_not (fun c => !gAsciiIsspace c && c != ch ':')
    (m.data.drop start)
  have hvalue := value_skip (p := fun c => !gAsciiIsspace c && c != ch ':') hs.le le_rfl
  rw [between_end] at hvalue
  have hk : ∀ c ∈ (m.data.drop start).takeWhile (fun c => !gAsciiIsspace c && c != ch ':'),
      gAsciiIsspace c = false ∧ c ≠ ch ':' := by
    intro c hc
    simpa using List.mem_takeWhile_imp hc
  generalize (m.data.drop start).takeWhile (fun c => !gAsciiIsspace c && c != ch ':') = k at *
  generalize (m.data.drop start).dropWhile (fun c => !gAsciiIsspace c && c != ch ':') = r at *
  refine ⟨k, r, hsplit.symm, hk, hvalue, ?_⟩
  cases r with
  | nil => exact Or.inl rfl
  | cons c v =>
    right
    by_cases hc : c = ch ':'
    · exact Or.inl ⟨v, by rw [hc]⟩
    · right
      have hsp : gAsciiIsspace c = true := by simpa [hc] using hstop
      refine ⟨?_, c, v, rfl, hc, hsp⟩
      rintro rfl
      rw [← hsplit, List.nil_append, List.dropWhile_cons_of_pos hsp] at hd
      have := congrArg List.length hd
      have := (List.dropWhile_suffix (l := v) gAsciiIsspace).length_le
      simp only [List.length_cons] at *
      omega

theorem not_newline (hk : ∀ c ∈ k, gAsciiIsspace c = false ∧ c ≠ ch ':') :
    ∀ c ∈ k, decide (c ≠ ch '\n') = true := by
  intro c hc
  rw [decide_eq_true_eq]
  rintro rfl
  exact absurd (hk _ hc).1 (by decide)

theorem all_skip_ok (p : UInt8 → Bool) (h : ptr ≤ m.data.length) :
    All (Access.Ok m.data.length) (m.skip p (m.data.length - ptr) ptr) :=
  all_skip (fun i hi => hi) (by omega)

theorem keysOk_of_all_line (hs : start < m.data.length)
    (hd : (m.data.drop start).dropWhile gAsciiIsspace = m.data.drop start)
    (h : All (Access.Ok m.data.length) (m.parseLine (st.stateWith cutWords) start)) :
    st.KeysOk ((m.data.drop start).takeWhile (· ≠ ch '\n')) := by
  obtain ⟨k, r, hr, hk, hvalue, hcases⟩ := key_spec hs hd
  have hlen := congrArg List.length hr
  rw [List.length_drop, List.length_append] at hlen
  rw [hr, List.takeWhile_append_of_pos (not_newline hk)]
  rcases hcases with rfl | ⟨v, rfl⟩ | ⟨hne, c, v, rfl, hc, hsp⟩
  · rw [List.takeWhile_nil, List.append_nil]
    exact Status.keysOk_of_no_split (splitKey_of_no_colon fun h => (hk _ h).2 rfl)
  · rw [List.length_cons] at hlen
    have hlt : start + k.length < m.data.length := by omega
    have hcolon : (m.readData (start + k.length)).value = ch ':' :=
      value_readData (t := v) (by rw [← List.drop_drop, hr, List.drop_left])
    simp only [parseLine, all_bind, hvalue, if_pos hlt, hcolon, if_true,
      Nat.add_sub_cancel_left] at h
    rw [List.takeWhile_cons_of_pos (by decide)]
    exact keysOk_of_all hr hs.le hk h.2.2.1
  · exact Status.keysOk_of_no_split (splitKey_of_space_line hk hne hsp)

/-- One line of the loop is one line of the text. -/
theorem parseLine_ok (hs : start < m.data.length)
    (hd : (m.data.drop start).dropWhile gAsciiIsspace = m.data.drop start)
    (hkeys : st.KeysOk ((m.data.drop start).takeWhile (· ≠ ch '\n'))) :
    ∃ q, start < q ∧ q ≤ m.data.length ∧
      m.data.drop q = ((m.data.drop start).dropWhile (· ≠ ch '\n')).tail ∧
      (m.parseLine (st.stateWith cutWords) start).value =
        ((st.add ((m.data.drop start).takeWhile (· ≠ ch '\n'))).stateWith cutWords, q) ∧
      (st.NumbersOk →
        (All (Access.Ok m.data.length) (m.parseLine (st.stateWith cutWords) start) ↔
          (st.add ((m.data.drop start).takeWhile (· ≠ ch '\n'))).NumbersOk)) := by
  obtain ⟨k, r, hr, hk, hvalue, hcases⟩ := key_spec hs hd
  have hlen := congrArg List.length hr
  rw [List.length_drop, List.length_append] at hlen
  have hfirst := all_skip_ok (fun c => !gAsciiIsspace c && c != ch ':') hs.le
  have hrest : m.data.drop (start + k.length) = r := by
    rw [← List.drop_drop, hr, List.drop_left]
  rw [hr, List.takeWhile_append_of_pos (not_newline hk)] at hkeys
  rw [hr, List.takeWhile_append_of_pos (not_newline hk),
    List.dropWhile_append_of_pos (not_newline hk)]
  rcases hcases with rfl | ⟨v, rfl⟩ | ⟨hne, c, v, rfl, hc, hsp⟩
  · have hadd : st.add k = st :=
      st.add_of_none fun _ => keyValue_of_no_colon fun h => (hk _ h).2 rfl
    rw [List.length_nil] at hlen
    have hge : ¬ start + k.length < m.data.length := by omega
    refine ⟨start + k.length, by omega, by omega, ?_, ?_, fun hst => ?_⟩
    · rw [hrest]
      rfl
    · simp only [parseLine, value_bind, hvalue, if_neg hge, value_pure, List.takeWhile_nil,
        List.append_nil, hadd]
    · simp only [parseLine, all_bind, hfirst, hvalue, if_neg hge, all_pure, List.takeWhile_nil,
        List.append_nil, hadd, hst, and_self]
  · rw [List.length_cons] at hlen
    have hlt : start + k.length < m.data.length := by omega
    have hcolon : (m.readData (start + k.length)).value = ch ':' := value_readData hrest
    rw [List.takeWhile_cons_of_pos (by decide)] at hkeys ⊢
    rw [List.dropWhile_cons_of_pos (by decide)]
    obtain ⟨q, hleft, hright, hq, hval, hall⟩ := parseKey_ok hr hs.le hk hkeys
    obtain ⟨eol, heol, hle, hend, hdrop⟩ := skipLine_spec hright
    have hskip := all_skip_ok (· ≠ ch '\n') hright
    have hread : Access.Ok m.data.length (.data (start + k.length)) := hlt
    rw [hq] at hdrop
    refine ⟨_, ?_, hend, hdrop, ?_, fun hst => ?_⟩
    · split_ifs <;> omega
    · simp only [parseLine, value_bind, hvalue, if_pos hlt, hcolon, if_true,
        Nat.add_sub_cancel_left, hval, heol, value_pure]
    · simp only [parseLine, all_bind, hfirst, hvalue, if_pos hlt, all_readData, hread, hcolon,
        if_true, Nat.add_sub_cancel_left, hval, hall hst, hskip, all_pure, and_true, true_and]
  · rw [List.length_cons] at hlen
    have hlt : start + k.length < m.data.length := by omega
    have hpos := List.length_pos_iff.2 hne
    have hfound : (m.readData (start + k.length)).value = c := value_readData hrest
    have hadd : st.add (k ++ (c :: v).takeWhile (· ≠ ch '\n')) = st :=
      st.add_of_none fun _ => keyValue_of_no_split (splitKey_of_space_line hk hne hsp)
    obtain ⟨eol, heol, hle, hend, hdrop⟩ := skipLine_spec hlt.le
    have hskip := all_skip_ok (· ≠ ch '\n') hlt.le
    have hread : Access.Ok m.data.length (.data (start + k.length)) := hlt
    rw [hrest] at hdrop
    refine ⟨_, ?_, hend, hdrop, ?_, fun hst => ?_⟩
    · split_ifs <;> omega
    · simp only [parseLine, value_bind, hvalue, if_pos hlt, hfound, if_neg hc, value_pure, heol,
        hadd]
    · simp only [parseLine, all_bind, hfirst, hvalue, if_pos hlt, all_readData, hread, hfound,
        if_neg hc, all_pure, value_pure, hskip, hadd, hst, and_self]

end Memory

theorem Status.numbersOk_of_add {line : List UInt8} (h : (st.add line).NumbersOk) :
    st.NumbersOk := by
  have hor : ∀ {o o' : Option (List UInt8)} (pick : List CString → Option CString),
      (∀ w ∈ (o.or o').bind fun v => pick (words v), w.head? ≠ some 0) →
      ∀ w ∈ o.bind fun v => pick (words v), w.head? ≠ some 0 := by
    intro o o' pick ho
    cases o with
    | none => simp
    | some u => exact ho
  have hgroups : (∀ w ∈ (st.add line).groupWords, w.head? ≠ some 0) →
      ∀ w ∈ st.groupWords, w.head? ≠ some 0 := by
    obtain ⟨uid, gid, groups, capEff⟩ := st
    cases groups with
    | none => simp [Status.groupWords]
    | some u => exact id
  rw [Status.numbersOk_iff] at h ⊢
  exact ⟨hor secondOfFour h.1, hor secondOfFour h.2.1, hgroups h.2.2.1, hor onlyWord h.2.2.2⟩

theorem numbersOk_of_foldl {lines : List (List UInt8)}
    (h : (lines.foldl Status.add st).NumbersOk) : st.NumbersOk := by
  induction lines generalizing st with
  | nil => exact h
  | cons line lines ih => exact Status.numbersOk_of_add (ih h)

namespace Memory

/-- Nothing is left to do when the loop ends. -/
theorem loop_end
    (hend : ¬ (ptr < m.data.length ∧ (st.stateWith cutWords).flags.ALL = false)) :
    ((m.data.drop ptr).splitOn (ch '\n')).foldl Status.add st = st ∧
      st.LinesOk ((m.data.drop ptr).splitOn (ch '\n')) := by
  by_cases hall : (st.stateWith cutWords).flags.ALL = true
  · exact foldl_complete st hall _
  · have hptr : ¬ ptr < m.data.length := by simpa [hall] using hend
    rw [List.drop_eq_nil_of_le (Nat.not_lt.1 hptr), List.splitOn_nil]
    exact ⟨st.add_nil, Status.keysOk_of_no_split (splitKey_of_no_colon (by simp)), trivial⟩

/-- Induction on the rounds: every line takes a byte at least, and the accesses are as they
should be until there is a key that is cut or a number without text. -/
theorem parseLoop_ok (st : Status) (h : ptr ≤ m.data.length) (hn : m.data.length - ptr ≤ n) :
    (st.LinesOk ((m.data.drop ptr).splitOn (ch '\n')) →
      (m.parseLoop n (st.stateWith cutWords) ptr).value =
        (((m.data.drop ptr).splitOn (ch '\n')).foldl Status.add st).stateWith cutWords) ∧
    (st.NumbersOk →
      (All (Access.Ok m.data.length) (m.parseLoop n (st.stateWith cutWords) ptr) ↔
        st.LinesOk ((m.data.drop ptr).splitOn (ch '\n')) ∧
          (((m.data.drop ptr).splitOn (ch '\n')).foldl Status.add st).NumbersOk)) := by
  induction n generalizing st ptr with
  | zero =>
    have hend : ¬ (ptr < m.data.length ∧ (st.stateWith cutWords).flags.ALL = false) := by omega
    obtain ⟨hfold, hlines⟩ := loop_end hend
    rw [parseLoop, if_neg hend, hfold]
    exact ⟨fun _ => rfl, fun hst => by simp [hlines, hst]⟩
  | succ n ih =>
    by_cases hend : ¬ (ptr < m.data.length ∧ (st.stateWith cutWords).flags.ALL = false)
    · obtain ⟨hfold, hlines⟩ := loop_end hend
      rw [parseLoop, if_neg hend, hfold]
      exact ⟨fun _ => rfl, fun hst => by simp [hlines, hst]⟩
    rw [not_not] at hend
    have hspace := skipped gAsciiIsspace h le_rfl
    have hskip := all_skip_ok gAsciiIsspace h
    rw [parseLoop, if_pos hend, ← linesOk_dropWhile, ← foldl_dropWhile Status.add_nil
      Status.add_space]
    simp only [all_bind, value_bind, hskip, true_and]
    generalize (m.skip gAsciiIsspace (m.data.length - ptr) ptr).value = start at hspace ⊢
    have hleft := hspace.left
    have hright := hspace.right
    have hrest := hspace.rest
    rw [between_end, between_end] at hrest
    rw [← hrest]
    by_cases hs : start < m.data.length
    · have hd : (m.data.drop start).dropWhile gAsciiIsspace = m.data.drop start := by
        rw [hrest, List.dropWhile_idempotent]
      rw [if_pos hs, all_bind, value_bind, linesOk_line, foldl_line Status.add_nil]
      by_cases hkeys : st.KeysOk ((m.data.drop start).takeWhile (· ≠ ch '\n'))
      · obtain ⟨q, hlt, hq, hdrop, hval, hall⟩ := parseLine_ok hs hd hkeys
        obtain ⟨ihvalue, ihall⟩ := ih (st.add ((m.data.drop start).takeWhile (· ≠ ch '\n'))) hq
          (by omega)
        rw [hdrop] at ihvalue ihall
        rw [hval]
        refine ⟨fun hlines => ihvalue hlines.2, fun hst => ?_⟩
        rw [hall hst]
        constructor
        · rintro ⟨hline, hloop⟩
          obtain ⟨hlines, hfold⟩ := (ihall hline).1 hloop
          exact ⟨⟨hkeys, hlines⟩, hfold⟩
        · rintro ⟨⟨-, hlines⟩, hfold⟩
          have hline := numbersOk_of_foldl hfold
          exact ⟨hline, (ihall hline).2 ⟨hlines, hfold⟩⟩
      · refine ⟨fun hlines => absurd hlines.1 hkeys, fun _ => ?_⟩
        exact iff_of_false (fun hall => hkeys (keysOk_of_all_line hs hd hall.1))
          fun hlines => hkeys hlines.1.1
    · rw [if_neg hs, all_bind, value_bind, all_pure, true_and, value_pure]
      exact ih st hright (by omega)

end Memory

/-! What holds whatever is behind the keys. -/

/-- The array of groups is empty before the line with the groups. -/
def ParseState.Fresh (s : ParseState) : Prop := s.flags.GROUPS = false → s.cred.groups = []

theorem parseUid_fresh {s : ParseState} (h : s.Fresh) (val : List CString) :
    (parseUid s val).Fresh := by
  unfold parseUid
  split
  · split <;> exact h
  · exact h

theorem parseGid_fresh {s : ParseState} (h : s.Fresh) (val : List CString) :
    (parseGid s val).Fresh := by
  unfold parseGid
  split
  · split <;> exact h
  · exact h

theorem parseCapEff_fresh {s : ParseState} (h : s.Fresh) (val : List CString) :
    (parseCapEff s val).Fresh := by
  unfold parseCapEff
  split
  · split <;> exact h
  · exact h

theorem parseGroups_fresh {s s' : ParseState} {val : List CString}
    (h : parseGroups s val = .ok s') : s'.Fresh := by
  have hseen : s'.flags.GROUPS = true := by
    unfold parseGroups at h
    by_cases hval : val.length > 0
    · rw [if_pos hval] at h
      cases hst : storeGroups val.length val s.cred.groups with
      | error e =>
        rw [hst] at h
        cases h
      | ok groups =>
        rw [hst] at h
        exact Except.ok.inj h ▸ rfl
    · rw [if_neg hval] at h
      exact Except.ok.inj h ▸ rfl
  intro hno
  rw [hseen] at hno
  cases hno

namespace Memory

variable {s : ParseState}

theorem safe_data : ∀ i < m.data.length, Access.Safe m.data.length (.data i) := fun _ hi => hi

theorem skip_safe (p : UInt8 → Bool) (h : ptr ≤ m.data.length) :
    Sat (Access.Safe m.data.length) (m.skip p (m.data.length - ptr) ptr)
      fun q => ptr ≤ q ∧ q ≤ m.data.length :=
  ⟨all_skip safe_data (by omega), (skipped p h le_rfl).left, (skipped p h le_rfl).right⟩

theorem tryKey_safe (hkey : 0 ∉ key) (h : start + n ≤ m.data.length) (seen : Bool) :
    Sat (Access.Safe m.data.length) (m.tryKey seen key start n) fun b => b = true → seen = false := by
  cases seen with
  | true => exact Sat.pure fun h => h.symm
  | false => exact ⟨(all_daCredMatch safe_data (fun _ _ => trivial) hkey h).2 fun _ => trivial,
      fun _ => rfl⟩

theorem withValues_safe (f : List CString → Trace Access ParseState) (h : ptr ≤ m.data.length)
    (hf : ∀ val, Sat (Access.Safe m.data.length) (f val) ParseState.Fresh) :
    Sat (Access.Safe m.data.length) (m.withValues ptr f)
      fun r => r.1.Fresh ∧ ptr ≤ r.2 ∧ r.2 ≤ m.data.length := by
  obtain ⟨eol, hleft, hright, -, hall, hvalue⟩ := withValues_spec f safe_data h
  refine ⟨hall.2 (hf _).1, ?_⟩
  rw [hvalue]
  exact ⟨(hf _).2, hleft, hright⟩

theorem parseKey_safe (hs : start + n ≤ m.data.length) (h : ptr ≤ m.data.length)
    (hfresh : s.Fresh) : Sat (Access.Safe m.data.length) (m.parseKey s start n ptr)
      fun r => r.1.Fresh ∧ ptr ≤ r.2 ∧ r.2 ≤ m.data.length := by
  rw [parseKey_eq]
  refine Sat.bind (tryKey_safe (by decide) hs _) fun b _ => Sat.ite (fun _ => ?_) fun _ => ?_
  · exact withValues_safe _ h fun val => ⟨all_parseUid _ _ |>.2 fun _ _ => trivial,
      value_parseUid _ _ ▸ parseUid_fresh hfresh val⟩
  refine Sat.bind (tryKey_safe (by decide) hs _) fun b _ => Sat.ite (fun _ => ?_) fun _ => ?_
  · exact withValues_safe _ h fun val => ⟨all_parseGid _ _ |>.2 fun _ _ => trivial,
      value_parseGid _ _ ▸ parseGid_fresh hfresh val⟩
  refine Sat.bind (tryKey_safe (by decide) hs _) fun b hseen => Sat.ite (fun hb => ?_) fun _ => ?_
  · refine withValues_safe _ h fun val => ?_
    obtain ⟨hall, hvalue⟩ := parseGroups_spec (P := Access.Safe m.data.length)
      (fun _ _ hi => hi) s val (hfresh (hseen hb))
    exact ⟨hall.2 fun _ _ => trivial, parseGroups_fresh hvalue⟩
  refine Sat.bind (tryKey_safe (by decide) hs _) fun b _ => Sat.ite (fun _ => ?_) fun _ => ?_
  · exact withValues_safe _ h fun val => ⟨all_parseCapEff _ _ |>.2 fun _ _ => trivial,
      value_parseCapEff _ _ ▸ parseCapEff_fresh hfresh val⟩
  · exact Sat.pure ⟨hfresh, le_rfl, h⟩

/-- A line takes a byte at least, even when it is not read as it should be. -/
theorem parseLine_safe (hs : start < m.data.length) (hfresh : s.Fresh) :
    Sat (Access.Safe m.data.length) (m.parseLine s start)
      fun r => r.1.Fresh ∧ start < r.2 ∧ r.2 ≤ m.data.length := by
  have hrest : ∀ s' : ParseState, s'.Fresh → ∀ ptr, start ≤ ptr → ptr ≤ m.data.length →
      Sat (Access.Safe m.data.length)
        (do
          let ptr ← m.skip (· ≠ ch '\n') (m.data.length - ptr) ptr
          pure (s', if ptr < m.data.length then ptr + 1 else ptr))
        fun r => r.1.Fresh ∧ start < r.2 ∧ r.2 ≤ m.data.length := by
    intro s' hs' ptr hleft hright
    refine Sat.bind (skip_safe _ hright) fun q hq => Sat.pure ⟨hs', ?_, ?_⟩ <;>
      dsimp only <;> split_ifs <;> omega
  unfold parseLine
  refine Sat.bind (skip_safe _ hs.le) fun ptr hptr => Sat.ite (fun hlt => ?_) fun hge => ?_
  · have hread : Sat (Access.Safe m.data.length) (m.readData ptr) fun _ => True :=
      ⟨all_readData.2 hlt, trivial⟩
    refine Sat.bind hread fun c _ => Sat.ite (fun _ => ?_) fun _ => ?_
    · refine Sat.bind (parseKey_safe (by omega) hlt hfresh) fun r hr => ?_
      exact hrest r.1 hr.1 r.2 (by omega) hr.2.2
    · exact Sat.bind (Sat.pure (Q := fun r => r = (s, ptr)) rfl) fun r hr =>
        hr ▸ hrest s hfresh ptr hptr.1 hptr.2
  · exact Sat.pure ⟨hfresh, by dsimp only; omega, hptr.2⟩

/-- Induction on the rounds, of which there are enough. -/
theorem parseLoop_safe (h : ptr ≤ m.data.length) (hn : m.data.length - ptr ≤ n)
    (hfresh : s.Fresh) : Sat (Access.Safe m.data.length) (m.parseLoop n s ptr) fun _ => True := by
  induction n generalizing s ptr with
  | zero =>
    rw [parseLoop, if_neg (by omega)]
    exact Sat.pure trivial
  | succ n ih =>
    rw [parseLoop]
    refine Sat.ite (fun hlt => ?_) fun _ => Sat.pure trivial
    refine Sat.bind (skip_safe _ h) fun start hstart => Sat.ite (fun hs => ?_) fun hge => ?_
    · refine Sat.bind (parseLine_safe hs hfresh) fun r hr => ?_
      exact ih hr.2.2 (by omega) hr.1
    · refine Sat.bind (Sat.pure (Q := fun r => r = (s, start)) rfl) fun r hr => ?_
      obtain rfl := hr
      exact ih hstart.2 (by omega) hfresh

end Memory

/-! The whole buffer. -/

theorem foldl_ofText (data : List UInt8) :
    (data.splitOn (ch '\n')).foldl Status.add ⟨none, none, none, none⟩ = Status.ofText data := by
  rw [Status.foldl_add]
  simp only [Option.none_or]
  rfl

/-- As long as no key is cut, positions in the buffer make no difference. -/
theorem daCredParse_memory (behind : CString → ℕ → UInt8) {data : List UInt8}
    (h : Status.LinesOk ⟨none, none, none, none⟩ (data.splitOn (ch '\n'))) :
    daCredParse .zero ⟨none⟩ data =
      .ok ((Memory.mk data behind).daCredParse .zero ⟨none⟩).value := by
  have hloop := (parseLoop_ofText (readsWords_cut data)).resolve_right fun hcut => hcut.1 h
  have hvalue := (Memory.parseLoop_ok (m := ⟨data, behind⟩) ⟨none, none, none, none⟩
    (Nat.zero_le _) (Nat.sub_le ..)).1 h
  rw [List.drop_zero, foldl_ofText, ← stateWith_none] at hvalue
  rw [daCredParse, hloop, Memory.daCredParse, value_bind, hvalue]
  rfl

theorem noCuts_iff (data : List UInt8) :
    NoCuts data ↔ Status.LinesOk ⟨none, none, none, none⟩ (data.splitOn (ch '\n')) ∧
      (Status.ofText data).NumbersOk := by
  rw [linesOk_iff]
  constructor
  · intro h
    have hkeys := h.keys
    simp only [List.forall_mem_cons] at hkeys
    exact ⟨⟨fun _ => hkeys.1, fun _ => hkeys.2.1, fun _ => hkeys.2.2.1, fun _ => hkeys.2.2.2.1⟩,
      h.words⟩
  · rintro ⟨⟨huid, hgid, hgroups, hcapEff⟩, hwords⟩
    refine ⟨?_, hwords⟩
    simp only [List.forall_mem_cons]
    exact ⟨huid rfl, hgid rfl, hgroups rfl, hcapEff rfl, by simp⟩

/-- Reads of the buffer and stores to the group array are always in bounds, and the loops
end. Reads of the keys are in bounds as well, and no string that is read as a number is
empty, exactly when no zero cuts a key or such a string. -/
theorem accesses_iff (behind : CString → ℕ → UInt8) (data : List UInt8) :
    (∀ a ∈ ((Memory.mk data behind).daCredParse .zero ⟨none⟩).events, a.Safe data.length) ∧
    ((∀ a ∈ ((Memory.mk data behind).daCredParse .zero ⟨none⟩).events, a.Ok data.length) ↔
      NoCuts data) := by
  have hall : ∀ P, All P ((Memory.mk data behind).daCredParse .zero ⟨none⟩) ↔
      All P ((Memory.mk data behind).parseLoop data.length
        (Status.stateWith cutWords ⟨none, none, none, none⟩) 0) := by
    intro P
    rw [Memory.daCredParse, all_bind, all_pure, and_true, stateWith_none]
  have hnumbers : Status.NumbersOk ⟨none, none, none, none⟩ := by
    simp [Status.numbersOk_iff, Status.uidWord, Status.gidWord, Status.groupWords, Status.capsWord]
  have hloop := (Memory.parseLoop_ok (m := ⟨data, behind⟩) ⟨none, none, none, none⟩
    (Nat.zero_le _) (Nat.sub_le ..)).2 hnumbers
  refine ⟨(hall _).2 (Memory.parseLoop_safe (Nat.zero_le _) (Nat.sub_le ..) fun _ => rfl).1, ?_⟩
  rw [noCuts_iff, ← foldl_ofText]
  exact (hall _).trans hloop

/-- The key of the first text is looked at two bytes behind its end, and the word of the
second is no number at all. -/
theorem accesses_beyond :
    .key (str "Uid") 5 ∈ ((Memory.mk (str "Uid" ++ 0 :: str "x:") fun _ _ => 0).daCredParse .zero
      ⟨none⟩).events ∧ ¬ Access.Ok 6 (.key (str "Uid") 5) ∧
    .number [] ∈ ((Memory.mk (str "Groups:" ++ [0]) fun _ _ => 0).daCredParse .zero
      ⟨none⟩).events ∧ ¬ Access.Ok 8 (.number []) := by
  decide +kernel

end DbusAccess
