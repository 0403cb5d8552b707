import DbusAccess.Proofs.CredLines
import Mathlib.Data.List.DropRight

/-! The pointer scan over a status file reads it line by line. -/

namespace DbusAccess

open Numerals

variable {key line data s w : List UInt8} {c : UInt8} {n : ℕ} {ws : List UInt8 → List CString}

/-! Keys. -/

theorem strncasecmp_eq_zero (hs : 0 ∉ s.take n) (hkey : 0 ∉ key) (hn : n ≤ s.length) :
    gAsciiStrncasecmp key s n = 0 ↔
      n ≤ key.length ∧ (s.take n).map toLower = (key.take n).map toLower := by
  induction n generalizing s key with
  | zero => simp [gAsciiStrncasecmp]
  | succ n ih =>
    obtain ⟨c2, s, rfl⟩ : ∃ c2 s', s = c2 :: s' := by
      cases s with
      | nil => simp at hn
      | cons c2 s => exact ⟨c2, s, rfl⟩
    simp only [List.take_succ_cons, List.mem_cons, not_or, List.length_cons] at hs hn
    cases key with
    | nil =>
      have hc : (c2.toNat : ℤ) ≠ 0 := by
        intro h
        exact hs.1 (UInt8.toNat_inj.1 (Int.natCast_inj.1 h.symm))
      simp only [gAsciiStrncasecmp, List.head?_cons, Option.getD_some, List.length_nil]
      omega
    | cons c1 key =>
      simp only [List.mem_cons, not_or] at hkey
      simp only [gAsciiStrncasecmp, List.length_cons, List.take_succ_cons,
        List.map_cons, List.cons.injEq, Ne.symm hs.1, Ne.symm hkey.1, or_self, if_false]
      by_cases hl : toLower c1 = toLower c2
      · rw [if_neg (not_not.2 hl), ih hs.2 hkey.2 (by omega)]
        simp [hl]
      · rw [if_pos hl]
        have hne : ((toLower c1).toNat : ℤ) - (toLower c2).toNat ≠ 0 := by
          intro h
          exact hl (UInt8.toNat_inj.1 (by omega))
        simp [hne, Ne.symm hl]

theorem cStr_cons (hc : c ≠ 0) (s : List UInt8) : cStr (c :: s) = c :: cStr s :=
  List.takeWhile_cons_of_pos (by simpa using hc)

/-- A zero ends the comparison, and the two are the same if the key ends there as well. -/
theorem strncasecmp_zero (hs : 0 ∈ s.take n) (hkey : 0 ∉ key) :
    gAsciiStrncasecmp key s n = 0 ↔ (cStr (s.take n)).map toLower = key.map toLower := by
  induction n generalizing s key with
  | zero => simp at hs
  | succ n ih =>
    obtain ⟨c2, s, rfl⟩ : ∃ c2 s', s = c2 :: s' := by
      cases s with
      | nil => simp at hs
      | cons c2 s => exact ⟨c2, s, rfl⟩
    rw [List.take_succ_cons] at hs ⊢
    by_cases h0 : c2 = 0
    · have hcut : cStr (c2 :: s.take n) = [] := by simp [cStr, h0]
      rw [hcut, List.map_nil, eq_comm (a := []), List.map_eq_nil_iff]
      cases key with
      | nil => simp [gAsciiStrncasecmp, h0]
      | cons c1 key =>
        have hc1 : (c1.toNat : ℤ) ≠ 0 := by
          intro h
          obtain rfl : c1 = 0 := UInt8.toNat_inj.1 (Int.natCast_inj.1 h)
          exact hkey (List.mem_cons_self ..)
        simpa [gAsciiStrncasecmp, h0] using hc1
    · rw [cStr_cons h0]
      have hs' : 0 ∈ s.take n := (List.mem_cons.1 hs).resolve_left (Ne.symm h0)
      cases key with
      | nil =>
        have hc2 : (c2.toNat : ℤ) ≠ 0 := by
          intro h
          exact h0 (UInt8.toNat_inj.1 (Int.natCast_inj.1 h))
        simp only [gAsciiStrncasecmp, List.head?_cons, Option.getD_some, List.map_cons,
          List.map_nil, reduceCtorEq, iff_false]
        omega
      | cons c1 key =>
        simp only [List.mem_cons, not_or] at hkey
        simp only [gAsciiStrncasecmp, Ne.symm hkey.1, h0, or_self, if_false, List.map_cons,
          List.cons.injEq]
        by_cases hl : toLower c1 = toLower c2
        · rw [if_neg (not_not.2 hl), ih hs' hkey.2]
          simp [hl]
        · rw [if_pos hl]
          have hne : ((toLower c1).toNat : ℤ) - (toLower c2).toNat ≠ 0 := by
            intro h
            exact hl (UInt8.toNat_inj.1 (by omega))
          simp [hne, Ne.symm hl]

theorem length_cStr_lt (h : 0 ∈ s) : (cStr s).length < s.length := by
  refine lt_of_le_of_ne (List.takeWhile_prefix _).length_le fun heq => ?_
  have hself := (List.takeWhile_prefix (l := s) (· ≠ 0)).eq_of_length heq
  exact absurd (List.takeWhile_eq_self_iff.1 hself 0 h) (by simp)

/-- Without zeros in the text the key is never left. -/
theorem daCredMatch_eq (hs : 0 ∉ s.take n) (hkey : 0 ∉ key) (hn : n ≤ s.length) :
    daCredMatch key s n = .ok ((s.take n).map toLower == key.map toLower) := by
  unfold daCredMatch
  have hlen : ((s.take n).map toLower).length = n := by simp [hn]
  by_cases hcmp : gAsciiStrncasecmp key s n = 0
  · rw [if_pos hcmp]
    obtain ⟨hle, hmap⟩ := (strncasecmp_eq_zero hs hkey hn).1 hcmp
    rcases hle.lt_or_eq with hlt | rfl
    · have hget : (key ++ [0])[n]? = some key[n] := by
        rw [List.getElem?_append_left hlt, List.getElem?_eq_getElem hlt]
      have hne : key[n] ≠ 0 := fun h => hkey (h ▸ List.getElem_mem hlt)
      have hmap' : (s.take n).map toLower ≠ key.map toLower := by
        intro h
        have := congrArg List.length h
        rw [hlen, List.length_map] at this
        omega
      simp only [hget]
      rw [beq_false_of_ne hne, beq_false_of_ne hmap']
    · rw [List.take_length] at hmap
      simp [hmap]
  · rw [if_neg hcmp]
    have hmap : (s.take n).map toLower ≠ key.map toLower := by
      intro h
      have hn' : n = key.length := by
        have := congrArg List.length h
        rwa [hlen, List.length_map] at this
      refine hcmp ((strncasecmp_eq_zero hs hkey hn).2 ⟨hn'.le, ?_⟩)
      rw [h, hn', List.take_length]
    rw [beq_false_of_ne hmap]

/-- A text with a zero is no key. Where it is one up to the zero, its end is looked for
behind the key. -/
theorem daCredMatch_zero (hs : 0 ∈ s.take n) (hkey : 0 ∉ key) :
    daCredMatch key s n =
      if (cStr (s.take n)).map toLower = key.map toLower then .error .keyRead else .ok false := by
  unfold daCredMatch
  by_cases hcut : (cStr (s.take n)).map toLower = key.map toLower
  · rw [if_pos hcut, if_pos ((strncasecmp_zero hs hkey).2 hcut)]
    have hlt : key.length < n := by
      have hlen := congrArg List.length hcut
      rw [List.length_map, List.length_map] at hlen
      exact hlen ▸ (length_cStr_lt hs).trans_le (List.length_take_le ..)
    have hget : (key ++ [0])[n]? = none := by
      rw [List.getElem?_eq_none_iff, List.length_append, List.length_singleton]
      exact hlt
    simp only [hget]
  · rw [if_neg hcut, if_neg (mt (strncasecmp_zero hs hkey).1 hcut)]

/-! Words. -/

theorem words_nil : words [] = [] := by
  simp [words]

theorem words_space (hc : gAsciiIsspace c = true) (s : List UInt8) : words (c :: s) = words s := by
  simp [words, List.splitOnP_cons_eq_if_modifyHead, hc]

theorem words_dropWhile (s : List UInt8) : words (s.dropWhile gAsciiIsspace) = words s := by
  induction s with
  | nil => rfl
  | cons c s ih =>
    by_cases hc : gAsciiIsspace c = true
    · rw [List.dropWhile_cons_of_pos hc, ih, words_space hc]
    · rw [List.dropWhile_cons_of_neg hc]

theorem words_word (hw : w ≠ []) (hsp : ∀ c ∈ w, gAsciiIsspace c = false) : words w = [w] := by
  simp [words, List.splitOnP_eq_singleton hsp, hw]

theorem words_append (hw : w ≠ []) (hsp : ∀ c ∈ w, gAsciiIsspace c = false)
    (hc : gAsciiIsspace c = true) (s : List UInt8) : words (w ++ c :: s) = w :: words s := by
  simp [words, List.splitOnP_append_cons_of_forall_mem hsp c hc, hw]

theorem secondOfFour_mem {l : List CString} (h : w ∈ secondOfFour l) : w ∈ l := by
  unfold secondOfFour at h
  split at h
  · obtain rfl := Option.some.inj h
    simp
  · cases h

theorem onlyWord_mem {l : List CString} (h : w ∈ onlyWord l) : w ∈ l := by
  unfold onlyWord at h
  split at h
  · obtain rfl := Option.some.inj h
    simp
  · cases h

theorem words_ne_nil {v : List UInt8} (h : w ∈ words v) : w ≠ [] := by
  simpa using List.of_mem_filter h

theorem cStr_eq (h : 0 ∉ s) : cStr s = s := by
  refine List.takeWhile_eq_self_iff.2 fun c hc => ?_
  rw [decide_eq_true_eq]
  rintro rfl
  exact h hc

/-- Induction on the length; each round takes a word and the spaces behind it. -/
theorem parseWords_eq (hs : s.length ≤ n) (hd : s.dropWhile gAsciiIsspace = s) :
    parseWords n s = cutWords s := by
  induction n generalizing s with
  | zero =>
    obtain rfl := List.length_eq_zero_iff.1 (Nat.le_zero.1 hs)
    rw [cutWords, words_nil]
    rfl
  | succ n ih =>
    cases s with
    | nil =>
      rw [cutWords, words_nil]
      rfl
    | cons c t =>
      have hc : gAsciiIsspace c = false := by
        by_contra hc
        rw [List.dropWhile_cons_of_pos (by simpa using hc)] at hd
        have := congrArg List.length hd
        have := (List.dropWhile_suffix (l := t) gAsciiIsspace).length_le
        simp only [List.length_cons] at *
        omega
      rw [parseWords]
      have hsplit := List.takeWhile_append_dropWhile (p := (!gAsciiIsspace ·)) (l := c :: t)
      have hw : (c :: t).takeWhile (!gAsciiIsspace ·) ≠ [] := by
        rw [List.takeWhile_cons_of_pos (by simp [hc])]
        simp
      have hsp : ∀ d ∈ (c :: t).takeWhile (!gAsciiIsspace ·), gAsciiIsspace d = false := by
        intro d hd
        simpa using List.mem_takeWhile_imp hd
      have hspace := List.head?_dropWhile_not (!gAsciiIsspace ·) (c :: t)
      generalize (c :: t).takeWhile (!gAsciiIsspace ·) = w at hsplit hw hsp ⊢
      generalize (c :: t).dropWhile (!gAsciiIsspace ·) = r at hsplit hspace ⊢
      rw [← hsplit] at hs ⊢
      rw [List.length_append] at hs
      have hpos := List.length_pos_iff.2 hw
      have hlen : (r.dropWhile gAsciiIsspace).length ≤ n := by
        have := (List.dropWhile_suffix (l := r) gAsciiIsspace).length_le
        omega
      have hidem : (r.dropWhile gAsciiIsspace).dropWhile gAsciiIsspace =
          r.dropWhile gAsciiIsspace := List.dropWhile_idempotent _ _
      rw [ih hlen hidem, cutWords, cutWords, words_dropWhile]
      cases r with
      | nil => rw [List.append_nil, words_nil, words_word hw hsp, List.map_singleton, List.map_nil]
      | cons d r =>
        have hd : gAsciiIsspace d = true := by simpa using hspace
        rw [words_append hw hsp hd, words_space hd, List.map_cons]

theorem daCredParseValues_eq (data : List UInt8) :
    daCredParseValues data =
      (cutWords (data.takeWhile (· ≠ ch '\n')), data.dropWhile (· ≠ ch '\n')) := by
  have hlen := (List.dropWhile_suffix (l := data.takeWhile (· ≠ ch '\n')) gAsciiIsspace).length_le
  simp only [daCredParseValues]
  rw [parseWords_eq hlen (List.dropWhile_idempotent _ _), cutWords, words_dropWhile, cutWords]

theorem words_subset (hw : w ∈ words s) : w ⊆ s :=
  splitOnP_subset (List.mem_of_mem_filter hw)

theorem cutWords_eq (h0 : 0 ∉ s) : cutWords s = words s := by
  unfold cutWords
  conv_rhs => rw [← List.map_id (words s)]
  exact List.map_congr_left fun w hw => cStr_eq fun h => h0 (words_subset hw h)

/-! The loop computes the first value of each key. -/

/-- The variables of the loop when these values have been seen. -/
def Status.state (st : Status) : ParseState where
  flags := {
    UID := st.uid.isSome
    GID := st.gid.isSome
    GROUPS := st.groups.isSome
    CAP_EFF := st.capEff.isSome
    UID_OK := (st.uid.bind effectiveId).isSome
    GID_OK := (st.gid.bind effectiveId).isSome }
  cred := st.cred
  priv := ⟨st.groups.bind fun v => if words v = [] then none else some (groupIds v)⟩

/-- The same for the words that `ws` gives. -/
def Status.stateWith (ws : List UInt8 → List CString) (st : Status) : ParseState where
  flags := {
    UID := st.uid.isSome
    GID := st.gid.isSome
    GROUPS := st.groups.isSome
    CAP_EFF := st.capEff.isSome
    UID_OK := (st.uid.bind fun v => idAmong (ws v)).isSome
    GID_OK := (st.gid.bind fun v => idAmong (ws v)).isSome }
  cred := st.credWith ws
  priv := ⟨st.groupsWith ws⟩

@[simp] theorem Status.stateWith_UID (st : Status) :
    (st.stateWith ws).flags.UID = st.uid.isSome := rfl
@[simp] theorem Status.stateWith_GID (st : Status) :
    (st.stateWith ws).flags.GID = st.gid.isSome := rfl
@[simp] theorem Status.stateWith_GROUPS (st : Status) :
    (st.stateWith ws).flags.GROUPS = st.groups.isSome := rfl
@[simp] theorem Status.stateWith_CAP_EFF (st : Status) :
    (st.stateWith ws).flags.CAP_EFF = st.capEff.isSome := rfl

theorem storeGroups_eq (ws : List (List UInt8)) (groups : List UInt32) {size : ℕ}
    (h : groups.length + ws.length ≤ size) :
    storeGroups size ws groups = .ok (groups ++ ws.filterMap daCredParseUint32) := by
  induction ws generalizing groups with
  | nil => simp [storeGroups]
  | cons w ws ih =>
    simp only [List.length_cons] at h
    rw [storeGroups]
    cases hp : daCredParseUint32 w with
    | none =>
      simp only [List.filterMap_cons, hp]
      exact ih groups (by omega)
    | some id =>
      simp only [List.filterMap_cons, hp]
      rw [if_pos (by omega), ih _ (by simp only [List.length_append, List.length_singleton]; omega)]
      simp

theorem parseUid_state (st : Status) (v : List UInt8) (h : st.uid = none) :
    parseUid (st.stateWith ws) (ws v) = Status.stateWith ws { st with uid := some v } := by
  obtain ⟨uid, gid, groups, capEff⟩ := st
  obtain rfl : uid = none := h
  simp only [parseUid, Status.stateWith, Status.credWith, Status.groupsWith, idAmong,
    Option.bind_some]
  split
  · split <;> simp [*]
  · simp

theorem parseGid_state (st : Status) (v : List UInt8) (h : st.gid = none) :
    parseGid (st.stateWith ws) (ws v) = Status.stateWith ws { st with gid := some v } := by
  obtain ⟨uid, gid, groups, capEff⟩ := st
  obtain rfl : gid = none := h
  simp only [parseGid, Status.stateWith, Status.credWith, Status.groupsWith, idAmong,
    Option.bind_some]
  split
  · split <;> simp [*]
  · simp

theorem parseCapEff_eq (s : ParseState) (val : List CString) :
    parseCapEff s val = match capsAmong val with
      | some caps => { s with
          flags.CAP_EFF := true
          cred.caps := caps
          cred.flags := s.cred.flags ||| DBUSACCESS_CRED_CAPS }
      | none => { s with flags.CAP_EFF := true } := by
  rcases val with _ | ⟨w, _ | ⟨w', val⟩⟩
  · rfl
  · cases hcaps : daCredParseUint64 w <;> simp only [parseCapEff, capsAmong, hcaps]
  · rfl

theorem parseCapEff_state (st : Status) (v : List UInt8) (h : st.capEff = none) :
    parseCapEff (st.stateWith ws) (ws v) = Status.stateWith ws { st with capEff := some v } := by
  obtain ⟨uid, gid, groups, capEff⟩ := st
  obtain rfl : capEff = none := h
  rw [parseCapEff_eq]
  simp only [Status.stateWith, Status.credWith, Status.groupsWith, Option.bind_some]
  obtain hnone | ⟨caps, hcaps⟩ := Option.eq_none_or_eq_some (capsAmong (ws v))
  · simp [hnone]
  · simp [hcaps]

theorem parseGroups_state (st : Status) (v : List UInt8) (h : st.groups = none) :
    parseGroups (st.stateWith ws) (ws v) =
      .ok (Status.stateWith ws { st with groups := some v }) := by
  obtain ⟨uid, gid, groups, capEff⟩ := st
  obtain rfl : groups = none := h
  have hflags : ∀ b : Bool, (0 ||| (if b = true then DBUSACCESS_CRED_CAPS else 0)) |||
      DBUSACCESS_CRED_GROUPS =
        DBUSACCESS_CRED_GROUPS ||| (if b = true then DBUSACCESS_CRED_CAPS else 0) := by
    decide
  have hstore : storeGroups (ws v).length (ws v) [] =
      .ok ([] ++ (ws v).filterMap daCredParseUint32) := storeGroups_eq (ws v) [] (by simp)
  rw [List.nil_append] at hstore
  simp only [parseGroups, Status.stateWith, Status.credWith, Status.groupsWith,
    Option.isSome_none, Option.map_none, Option.getD_none, Option.bind_none, Bool.false_eq_true,
    if_false, hflags, hstore]
  by_cases hw : ws v = []
  · simp [hw]
  · rw [if_pos (List.length_pos_iff.2 hw)]
    simp [hw, bind, Except.bind]

/-- `ws` gives the words of every line of the text. -/
def ReadsWords (ws : List UInt8 → List CString) (data : List UInt8) : Prop :=
  ∀ v, v <:+ data → daCredParseValues v =
    (ws (v.takeWhile (· ≠ ch '\n')), v.dropWhile (· ≠ ch '\n'))

theorem ReadsWords.of_suffix {data' : List UInt8} (h : ReadsWords ws data) (hs : data' <:+ data) :
    ReadsWords ws data' :=
  fun v hv => h v (hv.trans hs)

theorem readsWords_cut (data : List UInt8) : ReadsWords cutWords data :=
  fun v _ => daCredParseValues_eq v

theorem readsWords_text (h0 : 0 ∉ data) : ReadsWords words data := by
  intro v hv
  rw [daCredParseValues_eq, cutWords_eq]
  exact fun h => h0 (hv.subset ((List.takeWhile_prefix _).subset h))

/-- A key with a zero is none of the four, but it may lead out of one that is looked for. -/
theorem parseKey_zero (ws : List UInt8 → List CString) (st : Status) {k v start : List UInt8}
    (h0 : 0 ∈ k) (hstart : start = k ++ ch ':' :: v) (hk : ∀ c ∈ k, gAsciiIsspace c = false ∧ c ≠ ch ':') :
    parseKey (st.stateWith ws) start k.length v = .ok (st.stateWith ws, v) ∨
      ¬ st.KeysOk (k ++ ch ':' :: line) ∧
        parseKey (st.stateWith ws) start k.length v = .error .keyRead := by
  have htake : start.take k.length = k := by rw [hstart, List.take_left]
  have hmatch : ∀ (o : Option (List UInt8)) (seen : Bool) (key : CString), seen = o.isSome →
      0 ∉ key →
      (if seen = true then Except.ok false else daCredMatch key start k.length) = .ok false ∨
      (o = none ∧ KeyCut key (k ++ ch ':' :: line)) ∧
        (if seen = true then Except.ok false else daCredMatch key start k.length) =
          .error .keyRead := by
    rintro o seen key rfl hkey
    cases o with
    | some u => exact Or.inl rfl
    | none =>
      rw [Option.isSome_none, if_neg Bool.false_ne_true,
        daCredMatch_zero (by rwa [htake]) hkey, htake, keyCut_of_key hk]
      split_ifs with hcut
      · exact Or.inr ⟨⟨rfl, h0, hcut⟩, rfl⟩
      · exact Or.inl rfl
  unfold parseKey
  rcases hmatch st.uid _ (str "Uid") (st.stateWith_UID) (by decide) with h1 | ⟨hcut, h1⟩
  · rcases hmatch st.gid _ (str "Gid") (st.stateWith_GID) (by decide) with h2 | ⟨hcut, h2⟩
    · rcases hmatch st.groups _ (str "Groups") (st.stateWith_GROUPS) (by decide) with
        h3 | ⟨hcut, h3⟩
      · rcases hmatch st.capEff _ (str "CapEff") (st.stateWith_CAP_EFF) (by decide) with
          h4 | ⟨hcut, h4⟩
        · left
          rw [h1, h2, h3, h4]
          rfl
        · refine Or.inr ⟨fun hok => hok.capEff hcut.1 hcut.2, ?_⟩
          rw [h1, h2, h3, h4]
          rfl
      · refine Or.inr ⟨fun hok => hok.groups hcut.1 hcut.2, ?_⟩
        rw [h1, h2, h3]
        rfl
    · refine Or.inr ⟨fun hok => hok.gid hcut.1 hcut.2, ?_⟩
      rw [h1, h2]
      rfl
  · refine Or.inr ⟨fun hok => hok.uid hcut.1 hcut.2, ?_⟩
    rw [h1]
    rfl

/-- The key of at most one of the four is that of the line. -/
theorem parseKey_state (st : Status) {k v start : List UInt8} (hws : ReadsWords ws start)
    (h0 : 0 ∉ k) (hstart : start = k ++ ch ':' :: v)
    (hk : ∀ c ∈ k, gAsciiIsspace c = false ∧ c ≠ ch ':') :
    ∃ ptr, parseKey (st.stateWith ws) start k.length v =
        .ok ((st.add (k ++ ch ':' :: v.takeWhile (· ≠ ch '\n'))).stateWith ws, ptr) ∧
      ptr.dropWhile (· ≠ ch '\n') = v.dropWhile (· ≠ ch '\n') := by
  have hv : v <:+ start := ⟨k ++ [ch ':'], by rw [hstart]; simp⟩
  have hlen : k.length ≤ start.length := by rw [hstart, List.length_append]; omega
  have htake : start.take k.length = k := by rw [hstart, List.take_left]
  have hmatch : ∀ (o : Option (List UInt8)) (seen : Bool) (key : CString), seen = o.isSome →
      0 ∉ key → (if seen = true then Except.ok false else daCredMatch key start k.length) =
        .ok (sought o key k) := by
    rintro o seen key rfl hkey
    rw [daCredMatch_eq (by rwa [htake]) hkey hlen, htake]
    cases o <;> rfl
  have hidem : (v.dropWhile (· ≠ ch '\n')).dropWhile (· ≠ ch '\n') =
      v.dropWhile (· ≠ ch '\n') := List.dropWhile_idempotent _ _
  rw [parseKey, hmatch st.uid _ (str "Uid") st.stateWith_UID (by decide),
    hmatch st.gid _ (str "Gid") st.stateWith_GID (by decide),
    hmatch st.groups _ (str "Groups") st.stateWith_GROUPS (by decide),
    hmatch st.capEff _ (str "CapEff") st.stateWith_CAP_EFF (by decide), hws v hv]
  rcases st.add_cases (v := v.takeWhile (· ≠ ch '\n')) hk with ⟨h1, hnone, hadd⟩ |
    ⟨h1, h2, hnone, hadd⟩ | ⟨h1, h2, h3, hnone, hadd⟩ | ⟨h1, h2, h3, h4, hnone, hadd⟩ |
    ⟨h1, h2, h3, h4, hadd⟩
  · refine ⟨v.dropWhile (· ≠ ch '\n'), ?_, hidem⟩
    rw [h1, hadd, ← parseUid_state st _ hnone]
    rfl
  · refine ⟨v.dropWhile (· ≠ ch '\n'), ?_, hidem⟩
    rw [h1, h2, hadd, ← parseGid_state st _ hnone]
    rfl
  · refine ⟨v.dropWhile (· ≠ ch '\n'), ?_, hidem⟩
    have hgroups : parseGroups (st.stateWith ws) _ = .ok _ :=
      parseGroups_state st (v.takeWhile (· ≠ ch '\n')) hnone
    rw [h1, h2, h3, hadd]
    exact congrArg (·.bind fun s => .ok (s, v.dropWhile (· ≠ ch '\n'))) hgroups
  · refine ⟨v.dropWhile (· ≠ ch '\n'), ?_, hidem⟩
    rw [h1, h2, h3, h4, hadd, ← parseCapEff_state st _ hnone]
    rfl
  · refine ⟨v, ?_, rfl⟩
    rw [h1, h2, h3, h4, hadd]
    rfl

/-- One line of the loop is one line of the text, unless a zero cuts its key. -/
theorem parseLine_state (st : Status) {start : List UInt8} (hws : ReadsWords ws start)
    (hne : start ≠ []) (hd : start.dropWhile gAsciiIsspace = start) :
    parseLine (st.stateWith ws) start =
        .ok ((st.add (start.takeWhile (· ≠ ch '\n'))).stateWith ws,
          (start.dropWhile (· ≠ ch '\n')).tail) ∨
      ¬ st.KeysOk (start.takeWhile (· ≠ ch '\n')) ∧
        parseLine (st.stateWith ws) start = .error .keyRead := by
  have hsplit := List.takeWhile_append_dropWhile
    (p := fun c => !gAsciiIsspace c && c != ch ':') (l := start)
  have hk : ∀ c ∈ start.takeWhile (fun c => !gAsciiIsspace c && c != ch ':'),
      gAsciiIsspace c = false ∧ c ≠ ch ':' := by
    intro c hc
    simpa using List.mem_takeWhile_imp hc
  have hstop := List.head?_dropWhile_not (fun c => !gAsciiIsspace c && c != ch ':') start
  unfold parseLine
  generalize start.takeWhile (fun c => !gAsciiIsspace c && c != ch ':') = k at hsplit hk ⊢
  generalize start.dropWhile (fun c => !gAsciiIsspace c && c != ch ':') = r at hsplit hstop
  have hnl : ∀ c ∈ k, decide (c ≠ ch '\n') = true := by
    intro c hc
    rw [decide_eq_true_eq]
    rintro rfl
    exact absurd (hk _ hc).1 (by decide)
  subst hsplit
  simp only [List.drop_left]
  cases r with
  | nil =>
    left
    have hadd : st.add k = st :=
      st.add_of_none fun _ => keyValue_of_no_colon fun h => (hk _ h).2 rfl
    have htake : (k ++ []).takeWhile (· ≠ ch '\n') = k := by
      rw [List.append_nil]
      exact List.takeWhile_eq_self_iff.2 hnl
    have hdrop : (k ++ []).dropWhile (· ≠ ch '\n') = [] := by
      rw [List.append_nil]
      exact List.dropWhile_eq_nil_iff.2 hnl
    rw [htake, hdrop, hadd]
    rfl
  | cons c ptr =>
    rw [List.takeWhile_append_of_pos hnl, List.dropWhile_append_of_pos hnl]
    by_cases hc : c = ch ':'
    · subst hc
      have htake : (ch ':' :: ptr).takeWhile (· ≠ ch '\n') =
          ch ':' :: ptr.takeWhile (· ≠ ch '\n') := List.takeWhile_cons_of_pos (by decide)
      have hdrop : (ch ':' :: ptr).dropWhile (· ≠ ch '\n') = ptr.dropWhile (· ≠ ch '\n') :=
        List.dropWhile_cons_of_pos (by decide)
      rw [htake, hdrop]
      by_cases h0 : 0 ∈ k
      · have hadd : st.add (k ++ ch ':' :: ptr.takeWhile (· ≠ ch '\n')) = st := by
          simp only [Status.add, keyValue_of_key hk]
          rw [if_neg (zero_mem_map_toLower h0 (by decide)),
            if_neg (zero_mem_map_toLower h0 (by decide)),
            if_neg (zero_mem_map_toLower h0 (by decide)),
            if_neg (zero_mem_map_toLower h0 (by decide))]
          simp only [Option.or_none]
        rcases parseKey_zero ws (v := ptr) st h0 rfl hk with hkey | ⟨hcut, hkey⟩
        · left
          simp only [if_true, hkey, bind, Except.bind, hadd]
        · refine Or.inr ⟨hcut, ?_⟩
          simp only [if_true, hkey, bind, Except.bind]
      · left
        obtain ⟨ptr', hkey, hptr⟩ := parseKey_state st hws h0 rfl hk
        rw [← hptr]
        simp only [if_true, hkey, bind, Except.bind]
    · left
      have hsp : gAsciiIsspace c = true := by simpa [hc] using hstop
      have hkne : k ≠ [] := by
        rintro rfl
        rw [List.nil_append, List.dropWhile_cons_of_pos hsp] at hd
        have := congrArg List.length hd
        have := (List.dropWhile_suffix (l := ptr) gAsciiIsspace).length_le
        simp only [List.length_cons] at *
        omega
      have hadd : st.add (k ++ (c :: ptr).takeWhile (· ≠ ch '\n')) = st :=
        st.add_of_none fun _ => keyValue_of_no_split (splitKey_of_space_line hk hkne hsp)
      simp only [hadd, hc, if_false, bind, Except.bind]

/-- With all four values there is nothing left to read, and no key is looked for. -/
theorem foldl_complete (st : Status) (h : (st.stateWith ws).flags.ALL = true)
    (lines : List (List UInt8)) : lines.foldl Status.add st = st ∧ st.LinesOk lines := by
  obtain ⟨uid, gid, groups, capEff⟩ := st
  simp only [ProcParse.ALL, Bool.and_eq_true, Status.stateWith_UID, Status.stateWith_GID,
    Status.stateWith_GROUPS, Status.stateWith_CAP_EFF, Option.isSome_iff_exists] at h
  obtain ⟨⟨⟨⟨u, rfl⟩, ⟨g, rfl⟩⟩, ⟨r, rfl⟩⟩, ⟨c, rfl⟩⟩ := h
  rw [Status.foldl_add, linesOk_iff]
  have hseen : ∀ v : List UInt8, some v ≠ none := fun v => Option.some_ne_none v
  exact ⟨rfl, fun h => absurd h (hseen u), fun h => absurd h (hseen g),
    fun h => absurd h (hseen r), fun h => absurd h (hseen c)⟩

/-- Induction on the length of the text: the loop adds its lines one by one, and
may stop early. -/
theorem parseLoop_state (st : Status) (hws : ReadsWords ws data) (hn : data.length ≤ n) :
    parseLoop n (st.stateWith ws) data =
        .ok (((data.splitOn (ch '\n')).foldl Status.add st).stateWith ws) ∨
      ¬ st.LinesOk (data.splitOn (ch '\n')) ∧
        parseLoop n (st.stateWith ws) data = .error .keyRead := by
  induction n generalizing st data with
  | zero =>
    obtain rfl := List.length_eq_zero_iff.1 (Nat.le_zero.1 hn)
    simp [parseLoop]
  | succ n ih =>
    cases data with
    | nil =>
      simp [parseLoop]
    | cons c ptr =>
      rw [parseLoop]
      by_cases hall : (st.stateWith ws).flags.ALL = true
      · rw [if_pos hall, (foldl_complete st hall _).1]
        exact Or.inl rfl
      rw [if_neg hall, ← foldl_dropWhile Status.add_nil Status.add_space, ← linesOk_dropWhile]
      have hsuffix := List.dropWhile_suffix (l := c :: ptr) gAsciiIsspace
      have hd : ((c :: ptr).dropWhile gAsciiIsspace).dropWhile gAsciiIsspace =
          (c :: ptr).dropWhile gAsciiIsspace := List.dropWhile_idempotent _ _
      generalize (c :: ptr).dropWhile gAsciiIsspace = start at hsuffix hd ⊢
      have hlen := hsuffix.length_le
      cases start with
      | nil => simp
      | cons d t =>
        have hrest : ((d :: t).dropWhile (· ≠ ch '\n')).tail <:+ d :: t :=
          (List.tail_suffix _).trans (List.dropWhile_suffix _)
        have hlen' : ((d :: t).dropWhile (· ≠ ch '\n')).tail.length ≤ n := by
          have := (List.dropWhile_suffix (l := d :: t) (· ≠ ch '\n')).length_le
          rw [List.length_tail]
          omega
        rw [linesOk_line]
        rcases parseLine_state st (hws.of_suffix hsuffix) (by simp) hd with hline | ⟨hcut, hline⟩
        · simp only [hline, bind, Except.bind]
          rw [foldl_line Status.add_nil st (d :: t)]
          refine (ih _ (hws.of_suffix (hrest.trans hsuffix)) hlen').imp_right ?_
          exact And.imp_left fun hlines hok => hlines hok.2
        · refine Or.inr ⟨fun hok => hcut hok.1, ?_⟩
          simp only [hline, bind, Except.bind]

theorem stateWith_none (ws : List UInt8 → List CString) :
    (⟨⟨false, false, false, false, false, false⟩, .zero, ⟨none⟩⟩ : ParseState) =
      Status.stateWith ws ⟨none, none, none, none⟩ := by
  simp [Status.stateWith, Status.credWith, Status.groupsWith, DACred.zero]

theorem parseLoop_ofText (hws : ReadsWords ws data) :
    parseLoop data.length ⟨⟨false, false, false, false, false, false⟩, .zero, ⟨none⟩⟩ data =
        .ok ((Status.ofText data).stateWith ws) ∨
      ¬ Status.LinesOk ⟨none, none, none, none⟩ (data.splitOn (ch '\n')) ∧
        parseLoop data.length ⟨⟨false, false, false, false, false, false⟩, .zero, ⟨none⟩⟩ data =
          .error .keyRead := by
  have hloop := parseLoop_state ⟨none, none, none, none⟩ hws le_rfl
  rw [Status.foldl_add] at hloop
  simp only [Option.none_or] at hloop
  rw [stateWith_none ws]
  exact hloop

/-- For every text, the result is that of reading it line by line, unless a key with a
zero leads the parser out of its bounds. -/
theorem daCredParse_cases (hws : ReadsWords ws data) :
    daCredParse .zero ⟨none⟩ data = .ok ((Status.ofText data).completeWith ws,
        (Status.ofText data).credWith ws, ⟨(Status.ofText data).groupsWith ws⟩) ∨
      ¬ Status.LinesOk ⟨none, none, none, none⟩ (data.splitOn (ch '\n')) ∧
        daCredParse .zero ⟨none⟩ data = .error .keyRead := by
  rw [daCredParse]
  refine (parseLoop_ofText hws).imp (fun hloop => ?_) (And.imp_right fun hloop => ?_)
  · rw [hloop]
    rfl
  · rw [hloop]
    rfl

theorem daCredParse_eq (h0 : 0 ∉ data) :
    daCredParse .zero ⟨none⟩ data = .ok ((Status.ofText data).complete, (Status.ofText data).cred,
      (Status.ofText data).state.priv) :=
  (daCredParse_cases (readsWords_text h0)).resolve_right fun h => h.1 (linesOk_of_no_zero _ h0)

/-- What the parser returned, zeros or not. -/
theorem daCredParse_cut {r : Bool × DACred × DACredPriv}
    (h : daCredParse .zero ⟨none⟩ data = .ok r) :
    r = ((Status.ofText data).completeWith cutWords, (Status.ofText data).credWith cutWords,
      ⟨(Status.ofText data).groupsWith cutWords⟩) := by
  rcases daCredParse_cases (readsWords_cut data) with hok | ⟨-, herror⟩
  · rw [h] at hok
    exact Except.ok.inj hok
  · rw [h] at herror
    cases herror

/-- For a text without zeros the result is that of reading it line by line. -/
theorem daCredParse_line_by_line (data : List UInt8) (h0 : 0 ∉ data) :
    ∃ priv, daCredParse .zero ⟨none⟩ data =
      .ok ((Status.ofText data).complete, (Status.ofText data).cred, priv) :=
  ⟨_, daCredParse_eq h0⟩

theorem daCredParse_line_by_line_garbage :
    ∃ priv, daCredParse .zero ⟨none⟩ (str "Uid\nUid:\t1 2 3 4\nuid:\t5 6 7 8\nGid:\t1\nGroups:") =
      .ok ((Status.ofText (str "Uid\nUid:\t1 2 3 4\nuid:\t5 6 7 8\nGid:\t1\nGroups:")).complete,
        (Status.ofText (str "Uid\nUid:\t1 2 3 4\nuid:\t5 6 7 8\nGid:\t1\nGroups:")).cred, priv) :=
  daCredParse_line_by_line _ (by decide)

end DbusAccess
