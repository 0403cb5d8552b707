import DbusAccess.Proofs.CredParse

/-! Which numbers of a status file are stored for what they are. -/

namespace DbusAccess

open Numerals

variable {w : CString} {ws : List CString} {z : ℤ} {id id' : CString → Option UInt32}
  {caps caps' : CString → Option UInt64}

/-! One word. -/

theorem signed_constant : signed constant = signed (unsigned 0) := by
  rw [show constant = unsigned 0 from funext fun t => (unsigned_zero t).symm]

theorem signed_hexadecimal : signed hexadecimal = signed (unsigned 16) := by
  rw [show hexadecimal = unsigned 16 from funext fun t => (unsigned_sixteen t).symm]

theorem strtoull_of_not_signed {base : ℕ} (hw : w ≠ [])
    (h : signed (unsigned base) (w.dropWhile isBlank) = none) : (strtoull base w).rest ≠ [] :=
  strtoull_rest hw (signed_eq_none.1 h)

theorem daCredParseUint32_none (hw : w ≠ [])
    (h : signed constant (w.dropWhile isBlank) = none) : daCredParseUint32 w = none := by
  rw [signed_constant] at h
  simp only [daCredParseUint32, if_neg (strtoull_of_not_signed hw h)]

theorem daCredParseUint32_some (h : signed constant (w.dropWhile isBlank) = some z) :
    daCredParseUint32 w =
      if |z| < 2 ^ 64 ∧ z % 2 ^ 64 < 2 ^ 32 then some (UInt32.ofNat (z % 2 ^ 64).toNat)
      else none := by
  rw [signed_constant] at h
  obtain ⟨hrest, hvalue⟩ := strtoull_of_signed h
  simp only [daCredParseUint32, hrest, if_true, hvalue, UInt32.toNat_ofNat']
  by_cases hz : |z| < 2 ^ 64
  · have hwrap := wrapped_of_lt hz
    by_cases hlow : z % 2 ^ 64 < 2 ^ 32
    · rw [if_pos (by omega), if_pos ⟨hz, hlow⟩, ← hwrap, Int.toNat_natCast]
    · rw [if_neg (by omega), if_neg (not_and_of_not_right _ hlow)]
  · rw [wrapped_of_le (not_lt.1 hz), if_neg (by decide), if_neg (not_and_of_not_left _ hz)]

theorem daCredParseUint64_none (hw : w ≠ [])
    (h : signed hexadecimal (w.dropWhile isBlank) = none) : daCredParseUint64 w = none := by
  rw [signed_hexadecimal] at h
  simp only [daCredParseUint64, if_neg (strtoull_of_not_signed hw h)]

theorem daCredParseUint64_some (h : signed hexadecimal (w.dropWhile isBlank) = some z) :
    daCredParseUint64 w = some (UInt64.ofNat (wrapped z)) := by
  rw [signed_hexadecimal] at h
  obtain ⟨hrest, hvalue⟩ := strtoull_of_signed h
  simp only [daCredParseUint64, hrest, if_true, hvalue]

theorem denotedId_some (h : signed constant w = some z) :
    denotedId w = if 0 ≤ z ∧ z < 2 ^ 32 then some (UInt32.ofNat z.toNat) else none := by
  rw [denotedId, h, Option.bind_some]

theorem denotedId_blank (h : w.dropWhile isBlank ≠ w) : denotedId w = none := by
  obtain hnone | ⟨z, hz⟩ := Option.eq_none_or_eq_some (signed constant w)
  · rw [denotedId, hnone, Option.bind_none]
  · rw [signed_constant] at hz
    exact absurd (dropWhile_of_signed hz) h

/-- An id is stored for what it is, unless the check on its size comes too late. -/
theorem uint32_eq_iff (hw : w ≠ []) : daCredParseUint32 w = denotedId w ↔ ¬ IdMisread w := by
  obtain hnone | ⟨z, hz⟩ := Option.eq_none_or_eq_some (signed constant (w.dropWhile isBlank))
  · have hdenoted : denotedId w = none := by
      by_cases hb : w.dropWhile isBlank = w
      · rw [denotedId, ← hb, hnone, Option.bind_none]
      · exact denotedId_blank hb
    simp [daCredParseUint32_none hw hnone, hdenoted, IdMisread, hnone]
  · have hmis : IdMisread w ↔ (|z| < 2 ^ 64 ∧ z % 2 ^ 64 < 2 ^ 32) ∧
        (z < 0 ∨ w.dropWhile isBlank ≠ w) := by
      simp [IdMisread, hz, and_assoc]
    rw [hmis, daCredParseUint32_some hz]
    by_cases hb : w.dropWhile isBlank = w
    · rw [hb] at hz
      rw [denotedId_some hz]
      by_cases hread : |z| < 2 ^ 64 ∧ z % 2 ^ 64 < 2 ^ 32
      · by_cases hneg : z < 0
        · rw [if_pos hread, if_neg (by omega)]
          exact iff_of_false (Option.some_ne_none _) (not_not.2 ⟨hread, Or.inl hneg⟩)
        · have hmod : z % 2 ^ 64 = z :=
            Int.emod_eq_of_lt (not_lt.1 hneg) (lt_of_abs_lt hread.1)
          rw [hmod] at hread ⊢
          rw [if_pos hread, if_pos ⟨not_lt.1 hneg, hread.2⟩]
          exact iff_of_true rfl fun h => h.2.elim hneg (absurd hb)
      · rw [if_neg hread, if_neg (fun h => hread ?_)]
        · exact iff_of_true rfl fun h => hread h.1
        · have hz64 : z < 2 ^ 64 := h.2.trans (by decide)
          rw [abs_of_nonneg h.1, Int.emod_eq_of_lt h.1 hz64]
          exact ⟨hz64, h.2⟩
    · rw [denotedId_blank hb]
      simp [hb]

/-- An integer in range is stored. -/
theorem denotedId_stored {x : UInt32} (h : denotedId w = some x) : daCredParseUint32 w = some x := by
  obtain ⟨z, hz, hx⟩ := Option.bind_eq_some_iff.1 h
  have hb : w.dropWhile isBlank = w := by
    by_contra hb
    rw [denotedId_blank hb] at h
    cases h
  split_ifs at hx with hfit
  have hz64 : z < 2 ^ 64 := hfit.2.trans (by decide)
  rw [daCredParseUint32_some (by rwa [hb]), abs_of_nonneg hfit.1, Int.emod_eq_of_lt hfit.1 hz64,
    if_pos ⟨hz64, hfit.2⟩, hx]

theorem numeral_hexadecimal {n : ℕ} {s : List UInt8} (h : numeral 16 s = some n) :
    hexadecimal s = some n := by
  obtain ⟨-, hd, -⟩ := numeral_eq_some.1 h
  match s with
  | [] => exact h
  | [c] => exact h
  | c :: x :: s =>
    have hx : ¬ (x = 120 ∨ x = 88) := by
      have hx := hd x (by simp)
      rintro (rfl | rfl) <;> exact absurd hx (by decide)
    rw [hexadecimal, if_neg (not_and_of_not_right _ hx), h]

theorem signed_numeral (h : signed (numeral 16) w = some z) :
    signed hexadecimal (w.dropWhile isBlank) = some z := by
  obtain ⟨n, hn, hz⟩ := signed_eq_some.1 h
  have hhex : signed hexadecimal w = some z := signed_eq_some.2 ⟨n, numeral_hexadecimal hn, hz⟩
  rw [signed_hexadecimal] at hhex ⊢
  rwa [dropWhile_of_signed hhex]

/-- There is no check on the size of capabilities. -/
theorem uint64_eq_iff (hw : w ≠ []) : daCredParseUint64 w = denotedCaps w ↔ ¬ CapsMisread w := by
  obtain hnone | ⟨z, hz⟩ := Option.eq_none_or_eq_some (signed hexadecimal (w.dropWhile isBlank))
  · have hdenoted : denotedCaps w = none := by
      obtain hd | ⟨z, hd⟩ := Option.eq_none_or_eq_some (signed (numeral 16) w)
      · rw [denotedCaps, hd, Option.bind_none]
      · rw [signed_numeral hd] at hnone
        cases hnone
    simp [daCredParseUint64_none hw hnone, hdenoted, CapsMisread, hnone]
  · have hmis : CapsMisread w ↔ z < 0 ∨ 2 ^ 64 ≤ z ∨ signed (numeral 16) w = none := by
      simp [CapsMisread, hz]
    rw [hmis, daCredParseUint64_some hz]
    obtain hd | ⟨z', hd⟩ := Option.eq_none_or_eq_some (signed (numeral 16) w)
    · rw [denotedCaps, hd, Option.bind_none]
      simp
    · obtain rfl : z = z' := Option.some.inj (hz.symm.trans (signed_numeral hd))
      rw [denotedCaps, hd, Option.bind_some]
      by_cases hfit : 0 ≤ z ∧ z < 2 ^ 64
      · have hwrap : wrapped z = z.toNat := by
          have := wrapped_of_nonneg hfit.1 hfit.2
          omega
        rw [if_pos hfit, hwrap]
        refine iff_of_true rfl ?_
        rintro (h | h | h)
        · exact absurd h (not_lt.2 hfit.1)
        · exact absurd h (not_le.2 hfit.2)
        · cases h
      · rw [if_neg hfit]
        simp only [reduceCtorEq, false_iff, not_not]
        omega

/-! The whole text. -/

theorem idAmong_eq (ws : List CString) : idAmong ws = (secondOfFour ws).bind daCredParseUint32 := by
  unfold idAmong secondOfFour
  split <;> rfl

theorem capsAmong_eq (ws : List CString) : capsAmong ws = (onlyWord ws).bind daCredParseUint64 := by
  unfold capsAmong onlyWord
  split <;> rfl

/-- The parser is a reading of the words. -/
theorem Status.stateWith_words (st : Status) :
    st.stateWith words = st.read daCredParseUint32 daCredParseUint64 := by
  obtain ⟨uid, gid, groups, capEff⟩ := st
  have hid : ∀ o : Option (List UInt8), (o.bind fun v => idAmong (words v)) =
      (o.bind fun v => secondOfFour (words v)).bind daCredParseUint32 := by
    intro o
    simp only [idAmong_eq, Option.bind_assoc]
  have hcaps : (capEff.bind fun v => capsAmong (words v)) =
      (capEff.bind fun v => onlyWord (words v)).bind daCredParseUint64 := by
    simp only [capsAmong_eq, Option.bind_assoc]
  simp only [stateWith, credWith, groupsWith, Status.read, uidWord, gidWord, groupWords, capsWord,
    hid, hcaps]
  cases groups <;> rfl

theorem picked_ne_nil {o : Option (List UInt8)} {pick : List CString → Option CString}
    (hpick : ∀ {ws w}, w ∈ pick ws → w ∈ ws) (h : w ∈ o.bind fun v => pick (words v)) :
    w ≠ [] := by
  obtain ⟨v, -, hv⟩ := Option.bind_eq_some_iff.1 h
  exact words_ne_nil (hpick hv)

theorem Status.groupWords_ne_nil (st : Status) (h : w ∈ st.groupWords) : w ≠ [] := by
  unfold groupWords at h
  obtain hnone | ⟨v, hv⟩ := Option.eq_none_or_eq_some st.groups
  · rw [hnone] at h
    cases h
  · rw [hv] at h
    exact words_ne_nil h

theorem bind_eq_iff {α : Type} {o : Option CString} {f g : CString → Option α} :
    o.bind f = o.bind g ↔ ∀ w ∈ o, f w = g w := by
  cases o <;> simp

/-- When `g` gives no other values than `f`, its list is the same only if it gives them all. -/
theorem filterMap_eq_iff {α : Type} {f g : CString → Option α}
    (h : ∀ w x, g w = some x → f w = some x) :
    ws.filterMap f = ws.filterMap g ↔ ∀ w ∈ ws, f w = g w := by
  have hlen : ∀ ws : List CString, (ws.filterMap g).length ≤ (ws.filterMap f).length := by
    intro ws
    induction ws with
    | nil => simp
    | cons w ws ih =>
      cases hg : g w with
      | none =>
        rw [List.filterMap_cons_none hg]
        exact ih.trans ((List.suffix_cons w ws).sublist.filterMap f).length_le
      | some x =>
        rw [List.filterMap_cons_some hg, List.filterMap_cons_some (h w x hg)]
        exact Nat.succ_le_succ ih
  refine ⟨fun heq => ?_, fun heq => List.filterMap_congr heq⟩
  induction ws with
  | nil => simp
  | cons w ws ih =>
    rw [List.forall_mem_cons]
    cases hg : g w with
    | none =>
      rw [List.filterMap_cons_none hg] at heq
      cases hf : f w with
      | none =>
        rw [List.filterMap_cons_none hf] at heq
        exact ⟨rfl, ih heq⟩
      | some x =>
        rw [List.filterMap_cons_some hf] at heq
        have := congrArg List.length heq
        have := hlen ws
        simp only [List.length_cons] at *
        omega
    | some x =>
      rw [List.filterMap_cons_some hg, List.filterMap_cons_some (h w x hg)] at heq
      exact ⟨h w x hg, ih (List.cons.inj heq).2⟩

theorem option_eq_iff {α : Type} {o o' : Option α} {d : α} :
    o = o' ↔ o.isSome = o'.isSome ∧ o.getD d = o'.getD d := by
  cases o <;> cases o' <;> simp

/-- Two readings store the same, exactly when they agree on the words. -/
theorem Status.read_eq_iff (st : Status) (h : ∀ w x, id' w = some x → id w = some x) :
    st.read id caps = st.read id' caps' ↔
      (∀ w ∈ st.uidWord, id w = id' w) ∧ (∀ w ∈ st.gidWord, id w = id' w) ∧
      (∀ w ∈ st.groupWords, id w = id' w) ∧ (∀ w ∈ st.capsWord, caps w = caps' w) := by
  have hbit : ∀ g b b' : Bool,
      (if g then DBUSACCESS_CRED_GROUPS else 0) ||| (if b then DBUSACCESS_CRED_CAPS else 0) =
        (if g then DBUSACCESS_CRED_GROUPS else 0) ||| (if b' then DBUSACCESS_CRED_CAPS else 0) ↔
      b = b' := by
    decide
  rw [← bind_eq_iff, ← bind_eq_iff, ← bind_eq_iff, ← filterMap_eq_iff h]
  rw [option_eq_iff (o := st.uidWord.bind id) (d := 0),
    option_eq_iff (o := st.gidWord.bind id) (d := 0),
    option_eq_iff (o := st.capsWord.bind caps) (d := 0)]
  simp only [Status.read, ParseState.mk.injEq, ProcParse.mk.injEq, DACred.mk.injEq,
    DACredPriv.mk.injEq, hbit, true_and]
  apply Iff.intro
  · rintro ⟨⟨hu, hg⟩, ⟨hu', hg', hr, hc, hc'⟩, -⟩
    exact ⟨⟨hu, hu'⟩, ⟨hg, hg'⟩, hr, hc', hc⟩
  · rintro ⟨⟨hu, hu'⟩, ⟨hg, hg'⟩, hr, hc', hc⟩
    refine ⟨⟨hu, hg⟩, ⟨hu', hg', hr, hc, hc'⟩, ?_⟩
    rw [hr]

theorem Status.wellRead_iff (st : Status) :
    st.read daCredParseUint32 daCredParseUint64 = st.read denotedId denotedCaps ↔ st.WellRead := by
  have huid : (∀ w ∈ st.uidWord, daCredParseUint32 w = denotedId w) ↔
      ∀ w ∈ st.uidWord, ¬ IdMisread w :=
    forall₂_congr fun w hw => uint32_eq_iff (picked_ne_nil secondOfFour_mem hw)
  have hgid : (∀ w ∈ st.gidWord, daCredParseUint32 w = denotedId w) ↔
      ∀ w ∈ st.gidWord, ¬ IdMisread w :=
    forall₂_congr fun w hw => uint32_eq_iff (picked_ne_nil secondOfFour_mem hw)
  have hgroups : (∀ w ∈ st.groupWords, daCredParseUint32 w = denotedId w) ↔
      ∀ w ∈ st.groupWords, ¬ IdMisread w :=
    forall₂_congr fun w hw => uint32_eq_iff (st.groupWords_ne_nil hw)
  have hcaps : (∀ w ∈ st.capsWord, daCredParseUint64 w = denotedCaps w) ↔
      ∀ w ∈ st.capsWord, ¬ CapsMisread w :=
    forall₂_congr fun w hw => uint64_eq_iff (picked_ne_nil onlyWord_mem hw)
  rw [st.read_eq_iff fun w x => denotedId_stored, huid, hgid, hgroups, hcaps]
  exact ⟨fun ⟨h1, h2, h3, h4⟩ => ⟨h1, h2, h3, h4⟩, fun h => ⟨h.uid, h.gid, h.groups, h.caps⟩⟩

/-- The integers that the words are written for are stored, exactly when no word is
misread. -/
theorem stored_numbers_iff (data : List UInt8) (h0 : 0 ∉ data) :
    ∃ s, parseLoop data.length ⟨⟨false, false, false, false, false, false⟩, .zero, ⟨none⟩⟩ data =
        .ok s ∧
      daCredParse .zero ⟨none⟩ data = .ok (s.flags.UID_OK && s.flags.GID_OK, s.cred, s.priv) ∧
      (s = (Status.ofText data).read denotedId denotedCaps ↔ (Status.ofText data).WellRead) := by
  have hloop := (parseLoop_ofText (readsWords_text h0)).resolve_right fun h =>
    h.1 (linesOk_of_no_zero _ h0)
  rw [Status.stateWith_words] at hloop
  refine ⟨_, hloop, ?_, (Status.ofText data).wellRead_iff⟩
  rw [daCredParse, hloop]
  rfl

theorem stored_numbers_iff_overflow :
    ∃ s, parseLoop 30 ⟨⟨false, false, false, false, false, false⟩, .zero, ⟨none⟩⟩
        (str "Groups:\t4294967295 4294967296") = .ok s ∧
      daCredParse .zero ⟨none⟩ (str "Groups:\t4294967295 4294967296") =
        .ok (s.flags.UID_OK && s.flags.GID_OK, s.cred, s.priv) ∧
      (s = (Status.ofText (str "Groups:\t4294967295 4294967296")).read denotedId denotedCaps ↔
        (Status.ofText (str "Groups:\t4294967295 4294967296")).WellRead) :=
  stored_numbers_iff (str "Groups:\t4294967295 4294967296") (by decide)

/-- A negative user id becomes 1, and the capability set -1 is full. -/
theorem wrapped_numbers_stored :
    daCredParse .zero ⟨none⟩ (str "Uid:\t0 -18446744073709551615 0 0\nCapEff:\t-1") =
        .ok (false, ⟨1, 0, [], 0xffffffffffffffff, DBUSACCESS_CRED_CAPS⟩, ⟨none⟩) ∧
      ((Status.ofText (str "Uid:\t0 -18446744073709551615 0 0\nCapEff:\t-1")).read denotedId
        denotedCaps).cred = .zero := by
  decide +kernel

end DbusAccess
