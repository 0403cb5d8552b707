import DbusAccess.Proofs.CredParse

/-! Credentials read from a text of the kernel are those it was written for. -/

namespace DbusAccess

open Numerals

variable {key value line text : List UInt8} {c : UInt8} {others lines : List (List UInt8)}

/-! Bytes of the values. -/

theorem digit_not_space {base : ℕ} (hc : isDigitIn base c = true) :
    gAsciiIsspace c = false ∧ c ≠ 0 := by
  have hblank := (digit_not_blank hc).1
  refine ⟨?_, ?_⟩
  · have hspace : ch ' ' = 32 := rfl
    simp only [isBlank, gAsciiIsspace, hspace, Bool.or_eq_false_iff, Bool.and_eq_false_iff,
      beq_eq_false_iff_ne, decide_eq_false_iff_not, UInt8.le_iff_toNat_le, ne_eq,
      ← UInt8.toNat_inj, UInt8.reduceToNat] at *
    omega
  · rintro rfl
    simp [isDigitIn, digitVal] at hc

theorem isDecimal_digit {s : List UInt8} (h : IsDecimal s) (hc : c ∈ s) :
    isDigitIn 10 c = true := by
  rcases h with rfl | h
  · rw [List.mem_singleton] at hc
    subst hc
    decide
  · exact h.2.2 c hc

theorem isDecimal_ne_nil {s : List UInt8} (h : IsDecimal s) : s ≠ [] := by
  rcases h with rfl | h
  · simp
  · exact h.1

/-- A number that fits is read back. -/
theorem daCredParseUint32_decimalId (id : UInt32) : daCredParseUint32 (decimalId id) = some id := by
  have hlt := id.toNat_lt
  have hread : strtoull 0 (decimalId id) = ⟨id.toNat, false, []⟩ := by
    have hmax : ¬ ULLONG_MAX < id.toNat := by
      unfold ULLONG_MAX
      omega
    rw [decimalId, strtoull_decimal (Or.inl rfl) (isDecimal_decimal _), value_decimal, converted,
      if_neg hmax]
    rfl
  simp [daCredParseUint32, hread]

theorem decimalId_ne_nil (id : UInt32) : decimalId id ≠ [] :=
  isDecimal_ne_nil (isDecimal_decimal _)

theorem decimalId_not_space (id : UInt32) : ∀ c ∈ decimalId id, gAsciiIsspace c = false :=
  fun _ hc => (digit_not_space (isDecimal_digit (isDecimal_decimal _) hc)).1

/-! Values. -/

theorem words_blanks {blanks : List UInt8} (h : ∀ c ∈ blanks, gAsciiIsspace c = true) :
    words (blanks ++ value) = words value := by
  induction blanks with
  | nil => rfl
  | cons c blanks ih =>
    rw [List.cons_append, words_space (h c (by simp)), ih fun d hd => h d (by simp [hd])]

theorem words_ids (ids : ProcIds) :
    words ids.text = [decimalId ids.real, decimalId ids.effective, decimalId ids.saved,
      decimalId ids.fs] := by
  have htab : gAsciiIsspace 9 = true := by decide
  have hword := fun id s => words_append (decimalId_ne_nil id) (decimalId_not_space id) htab s
  rw [ProcIds.text, hword, hword, hword, words_word (decimalId_ne_nil _) (decimalId_not_space _)]

theorem words_groupsText (groups : List UInt32) :
    words (groupsText groups) = groups.map decimalId := by
  induction groups with
  | nil => exact words_nil
  | cons id groups ih =>
    rw [groupsText, List.flatMap_cons, List.append_assoc, List.singleton_append,
      words_append (decimalId_ne_nil id) (decimalId_not_space id) (by decide), List.map_cons, ← ih]
    rfl

theorem words_capsText {caps : UInt64} (h : CapsText caps value) : words value = [value] := by
  apply words_word
  · intro hnil
    have hlen := h.length
    rw [hnil] at hlen
    cases hlen
  · exact fun c hc => (digit_not_space (h.isDigit c hc)).1

theorem daCredParseUint64_capsText {caps : UInt64} (h : CapsText caps value) :
    daCredParseUint64 value = some caps := by
  have hne : value ≠ [] := by
    intro hnil
    have hlen := h.length
    rw [hnil] at hlen
    cases hlen
  have hlt := caps.toNat_lt
  have hread : strtoull 16 value = ⟨caps.toNat, false, []⟩ := by
    rw [strtoull_hex hne h.isDigit, h.value]
    rw [h.value]
    unfold ULLONG_MAX
    omega
  simp [daCredParseUint64, hread]

theorem effectiveId_ids (ids : ProcIds) (h : words value = words ids.text) :
    effectiveId value = some ids.effective := by
  simp only [effectiveId, h, words_ids, daCredParseUint32_decimalId]

theorem groupIds_groupsText (groups : List UInt32) (h : words value = words (groupsText groups)) :
    groupIds value = groups := by
  rw [groupIds, h, words_groupsText, List.filterMap_map]
  have hread : daCredParseUint32 ∘ decimalId = some := funext daCredParseUint32_decimalId
  rw [hread, List.filterMap_some]

theorem capabilities_capsText {caps : UInt64} {digits : List UInt8} (hd : CapsText caps digits)
    (h : words value = words digits) : capabilities value = some caps := by
  simp only [capabilities, h, words_capsText hd, daCredParseUint64_capsText hd]

/-! Lines. -/

/-- A line with another key, or without one, has no value. -/
theorem NoKey.keyValue (h : NoKey key line) : keyValue key line = none := by
  have hsplit := List.takeWhile_append_dropWhile (p := (· ≠ ch ':'))
    (l := line.dropWhile gAsciiIsspace)
  have hstop := List.head?_dropWhile_not (· ≠ ch ':') (line.dropWhile gAsciiIsspace)
  simp only [DbusAccess.keyValue]
  generalize (line.dropWhile gAsciiIsspace).takeWhile (· ≠ ch ':') = k at hsplit ⊢
  generalize (line.dropWhile gAsciiIsspace).dropWhile (· ≠ ch ':') = r at hsplit hstop
  rw [← hsplit, List.drop_left]
  cases r with
  | nil => rfl
  | cons c v =>
    obtain rfl : c = ch ':' := by simpa using hstop
    have hne := h k v hsplit.symm
    simp [hne]

theorem noKey_of_head {d : UInt8} (hc : gAsciiIsspace c = false) (hd : toLower c ≠ toLower d) :
    NoKey (d :: key) (c :: line) := by
  intro k v hline hk
  rw [List.dropWhile_cons_of_neg (by simp [hc])] at hline
  cases k with
  | nil => cases hk
  | cons b k =>
    rw [List.cons_append, List.cons.injEq] at hline
    rw [List.map_cons, List.map_cons, List.cons.injEq] at hk
    exact hd (hline.1 ▸ hk.1)

theorem KeyLine.keyValue {key' : List UInt8} (h : KeyLine key value line)
    (hk : ∀ c ∈ key, gAsciiIsspace c = false ∧ c ≠ ch ':')
    (hne : key.map toLower ≠ key'.map toLower) : keyValue key' line = none := by
  obtain ⟨blanks, -, rfl⟩ := h
  rw [keyValue_of_key hk, if_neg hne]

theorem KeyLine.keyValue_self (h : KeyLine key value line)
    (hk : ∀ c ∈ key, gAsciiIsspace c = false ∧ c ≠ ch ':') :
    ∃ v, DbusAccess.keyValue key line = some v ∧ words v = words value := by
  obtain ⟨blanks, hbl, rfl⟩ := h
  refine ⟨blanks ++ value, ?_, words_blanks fun c hc => (hbl c hc).1⟩
  rw [keyValue_of_key hk, if_pos rfl]

theorem splitOn_lines (h : ∀ line ∈ lines, ch '\n' ∉ line) :
    (lines.flatMap (· ++ [ch '\n'])).splitOn (ch '\n') = lines ++ [[]] := by
  induction lines with
  | nil => rfl
  | cons line lines ih =>
    rw [List.forall_mem_cons] at h
    rw [List.flatMap_cons, List.append_assoc, List.singleton_append,
      List.splitOn_append_cons_self_of_not_mem h.1, ih h.2, List.cons_append]

theorem firstValue_lines (h : ∀ line ∈ lines, ch '\n' ∉ line) :
    firstValue key (lines.flatMap (· ++ [ch '\n'])) = lines.findSome? (keyValue key) := by
  have hnil : keyValue key [] = none := keyValue_of_no_colon (by simp)
  rw [firstValue, splitOn_lines h, List.findSome?_append, List.findSome?_singleton, hnil,
    Option.or_none]

/-- In any order, the one line that has a value gives it. -/
theorem firstValue_of_perm {ls : List (List UInt8)} {v : List UInt8}
    (h : ∀ line ∈ lines, ch '\n' ∉ line) (hp : lines.Perm ls) (hline : line ∈ ls)
    (hv : keyValue key line = some v)
    (ho : ∀ line ∈ ls, keyValue key line = none ∨ keyValue key line = some v) :
    firstValue key (lines.flatMap (· ++ [ch '\n'])) = some v := by
  rw [firstValue_lines h]
  cases hs : lines.findSome? (keyValue key) with
  | none =>
    rw [List.findSome?_eq_none_iff.1 hs line (hp.mem_iff.2 hline)] at hv
    cases hv
  | some v' =>
    obtain ⟨line', hline', hv'⟩ := List.exists_of_findSome?_eq_some hs
    rcases ho line' (hp.mem_iff.1 hline') with hn | hn
    · rw [hn] at hv'
      cases hv'
    · exact hv'.symm.trans hn

/-! Texts. -/

/-- No end of a line and no end of a string. -/
def Inner (s : List UInt8) : Prop := ∀ c ∈ s, c ≠ ch '\n' ∧ c ≠ 0

instance (s : List UInt8) : Decidable (Inner s) :=
  inferInstanceAs (Decidable (∀ c ∈ s, c ≠ ch '\n' ∧ c ≠ 0))

theorem Inner.append {s t : List UInt8} (hs : Inner s) (ht : Inner t) : Inner (s ++ t) :=
  List.forall_mem_append.2 ⟨hs, ht⟩

theorem Inner.cons {s : List UInt8} (hc : c ≠ ch '\n' ∧ c ≠ 0) (hs : Inner s) :
    Inner (c :: s) :=
  List.forall_mem_cons.2 ⟨hc, hs⟩

theorem inner_digits {base : ℕ} {s : List UInt8} (h : ∀ c ∈ s, isDigitIn base c = true) :
    Inner s := by
  intro c hc
  obtain ⟨hspace, hzero⟩ := digit_not_space (h c hc)
  refine ⟨?_, hzero⟩
  rintro rfl
  cases hspace

theorem inner_decimalId (id : UInt32) : Inner (decimalId id) :=
  inner_digits fun _ => isDecimal_digit (isDecimal_decimal _)

theorem inner_ids (ids : ProcIds) : Inner ids.text := by
  have htab : (9 : UInt8) ≠ ch '\n' ∧ (9 : UInt8) ≠ 0 := by decide
  have h := inner_decimalId
  exact (h _).append (.cons htab ((h _).append (.cons htab ((h _).append (.cons htab (h _))))))

theorem inner_groupsText (groups : List UInt32) : Inner (groupsText groups) := by
  intro c hc
  obtain ⟨id, -, hc⟩ := List.mem_flatMap.1 hc
  have hspace : Inner [ch ' '] := by decide +kernel
  exact (inner_decimalId id).append hspace c hc

theorem KeyLine.inner (h : KeyLine key value line) (hk : Inner key) (hv : Inner value) :
    Inner line := by
  obtain ⟨blanks, hbl, rfl⟩ := h
  have hblanks : Inner blanks := by
    intro c hc
    refine ⟨(hbl c hc).2, ?_⟩
    rintro rfl
    exact absurd (hbl 0 hc).1 (by decide)
  exact hk.append (.cons (by decide) (hblanks.append hv))

theorem OtherLine.inner (h : OtherLine line) : Inner line := by
  intro c hc
  constructor
  · rintro rfl
    exact h.newline hc
  · rintro rfl
    exact h.zero hc

theorem zero_not_mem_lines (h : ∀ line ∈ lines, Inner line) :
    0 ∉ lines.flatMap (· ++ [ch '\n']) := by
  intro h0
  obtain ⟨line, hline, h0⟩ := List.mem_flatMap.1 h0
  rcases List.mem_append.1 h0 with h0 | h0
  · exact (h line hline 0 h0).2 rfl
  · exact absurd h0 (by decide)

/-- The values are those of the four lines, wherever they stand. -/
theorem StatusText.ofText {s : ProcStatus} (h : StatusText s text) :
    0 ∉ text ∧ ∃ u g r c digits, CapsText s.caps digits ∧
      Status.ofText text = ⟨some u, some g, some r, some c⟩ ∧
      words u = words s.uids.text ∧ words g = words s.gids.text ∧
      words r = words (groupsText s.groups) ∧ words c = words digits := by
  obtain ⟨uid, gid, groups, capEff, digits, lines, others, hu, hg, hr, hc, hd, ho, hp, rfl⟩ := h
  have hinner : ∀ line ∈ lines, Inner line := by
    intro line hline
    have hline := hp.mem_iff.1 hline
    simp only [List.mem_cons] at hline
    rcases hline with rfl | rfl | rfl | rfl | hline
    · exact hu.inner (by decide +kernel) (inner_ids _)
    · exact hg.inner (by decide +kernel) (inner_ids _)
    · exact hr.inner (by decide +kernel) (inner_groupsText _)
    · exact hc.inner (by decide +kernel) (inner_digits hd.isDigit)
    · exact (ho line hline).inner
  have hnl : ∀ line ∈ lines, ch '\n' ∉ line := fun line hl hn => (hinner line hl _ hn).1 rfl
  refine ⟨zero_not_mem_lines hinner, ?_⟩
  have hkU : ∀ c ∈ str "Uid", gAsciiIsspace c = false ∧ c ≠ ch ':' := by decide +kernel
  have hkG : ∀ c ∈ str "Gid", gAsciiIsspace c = false ∧ c ≠ ch ':' := by decide +kernel
  have hkR : ∀ c ∈ str "Groups", gAsciiIsspace c = false ∧ c ≠ ch ':' := by decide +kernel
  have hkC : ∀ c ∈ str "CapEff", gAsciiIsspace c = false ∧ c ≠ ch ':' := by decide +kernel
  obtain ⟨u, hu1, hu2⟩ := hu.keyValue_self hkU
  obtain ⟨g, hg1, hg2⟩ := hg.keyValue_self hkG
  obtain ⟨r, hr1, hr2⟩ := hr.keyValue_self hkR
  obtain ⟨c, hc1, hc2⟩ := hc.keyValue_self hkC
  refine ⟨u, g, r, c, digits, hd, ?_, hu2, hg2, hr2, hc2⟩
  have hU := firstValue_of_perm hnl hp (by simp) hu1 (by
    simp only [List.forall_mem_cons]
    exact ⟨Or.inr hu1, Or.inl (hg.keyValue hkG (by decide)), Or.inl (hr.keyValue hkR (by decide)),
      Or.inl (hc.keyValue hkC (by decide)), fun o hl => Or.inl (ho o hl).uid.keyValue⟩)
  have hG := firstValue_of_perm hnl hp (by simp) hg1 (by
    simp only [List.forall_mem_cons]
    exact ⟨Or.inl (hu.keyValue hkU (by decide)), Or.inr hg1, Or.inl (hr.keyValue hkR (by decide)),
      Or.inl (hc.keyValue hkC (by decide)), fun o hl => Or.inl (ho o hl).gid.keyValue⟩)
  have hR := firstValue_of_perm hnl hp (by simp) hr1 (by
    simp only [List.forall_mem_cons]
    exact ⟨Or.inl (hu.keyValue hkU (by decide)), Or.inl (hg.keyValue hkG (by decide)), Or.inr hr1,
      Or.inl (hc.keyValue hkC (by decide)), fun o hl => Or.inl (ho o hl).groups.keyValue⟩)
  have hC := firstValue_of_perm hnl hp (by simp) hc1 (by
    simp only [List.forall_mem_cons]
    exact ⟨Or.inl (hu.keyValue hkU (by decide)), Or.inl (hg.keyValue hkG (by decide)),
      Or.inl (hr.keyValue hkR (by decide)), Or.inr hc1,
      fun o hl => Or.inl (ho o hl).capEff.keyValue⟩)
  rw [Status.ofText, hU, hG, hR, hC]

theorem StatusText.cred {s : ProcStatus} (h : StatusText s text) :
    0 ∉ text ∧ (Status.ofText text).complete = true ∧ (Status.ofText text).cred = s.cred := by
  obtain ⟨h0, u, g, r, c, digits, hd, hst, hu, hg, hr, hc⟩ := h.ofText
  refine ⟨h0, ?_, ?_⟩
  · simp [hst, Status.complete, effectiveId_ids _ hu, effectiveId_ids _ hg]
  · simp [hst, Status.cred, ProcStatus.cred, effectiveId_ids _ hu, effectiveId_ids _ hg,
      groupIds_groupsText _ hr, capabilities_capsText hd hc]

/-- What the kernel writes for a process is a text for it, whatever its name. -/
theorem statusText_text (s : ProcStatus) (name : List UInt8) (h : Inner name) :
    StatusText s ([str "Name:\t" ++ name, str "Uid:\t" ++ s.uids.text,
      str "Gid:\t" ++ s.gids.text, str "Groups:\t" ++ groupsText s.groups,
      str "CapEff:\t" ++ fixedWidth 16 16 s.caps.toNat].flatMap (· ++ [ch '\n'])) := by
  have hblanks : ∀ c ∈ ([9] : List UInt8), gAsciiIsspace c = true ∧ c ≠ ch '\n' := by decide +kernel
  have hother : OtherLine (str "Name:\t" ++ name) := by
    have hinner : Inner (str "Name:\t" ++ name) := Inner.append (by decide +kernel) h
    refine ⟨fun hn => (hinner _ hn).1 rfl, fun hn => (hinner _ hn).2 rfl, ?_, ?_, ?_, ?_⟩
    all_goals exact noKey_of_head (by decide) (by decide)
  have hcaps : CapsText s.caps (fixedWidth 16 16 s.caps.toNat) := by
    refine ⟨length_fixedWidth .., isDigitIn_fixedWidth (by decide) (by decide) _ _, ?_⟩
    rw [value_fixedWidth (by decide) (by decide)]
    exact Nat.mod_eq_of_lt s.caps.toNat_lt
  refine ⟨_, _, _, _, _, _, [str "Name:\t" ++ name], ⟨[9], hblanks, rfl⟩, ⟨[9], hblanks, rfl⟩,
    ⟨[9], hblanks, rfl⟩, ⟨[9], hblanks, rfl⟩, hcaps, ?_, ?_, rfl⟩
  · simpa using hother
  · exact .symm (List.perm_append_singleton _ [_, _, _, _])

/-- Only the four lines count, and not their order: reading a text of the kernel
gives what it was written for. -/
theorem daCredParse_statusText (s : ProcStatus) (text : List UInt8) (h : StatusText s text) :
    (∃ priv, daCredParse .zero ⟨none⟩ text = .ok (true, s.cred, priv)) ∧
      ∀ text', StatusText s text' →
        (daCredParse .zero ⟨none⟩ text').map (fun r => (r.1, r.2.1)) =
          (daCredParse .zero ⟨none⟩ text).map fun r => (r.1, r.2.1) := by
  obtain ⟨h0, hcomplete, hcred⟩ := h.cred
  refine ⟨?_, ?_⟩
  · exact ⟨_, by rw [daCredParse_eq h0, hcomplete, hcred]⟩
  · intro text' h'
    obtain ⟨h0', hcomplete', hcred'⟩ := h'.cred
    rw [daCredParse_eq h0, daCredParse_eq h0', hcomplete, hcomplete', hcred, hcred']
    rfl

theorem daCredParse_statusText_name :
    let s : ProcStatus := ⟨⟨1, 100000, 3, 4⟩, ⟨5, 6, 7, 8⟩, [0, 4294967295], 0xffffffffffffffff⟩
    let text := str "Name:\tUid: 0 0 0 0\nUid:\t1\t100000\t3\t4\nGid:\t5\t6\t7\t8\n" ++
      str "Groups:\t0 4294967295 \nCapEff:\tffffffffffffffff\n"
    (∃ priv, daCredParse .zero ⟨none⟩ text = .ok (true, s.cred, priv)) ∧
      ∀ text', StatusText s text' →
        (daCredParse .zero ⟨none⟩ text').map (fun r => (r.1, r.2.1)) =
          (daCredParse .zero ⟨none⟩ text).map fun r => (r.1, r.2.1) :=
  daCredParse_statusText _ _ (statusText_text _ (str "Uid: 0 0 0 0") (by decide +kernel))

end DbusAccess
