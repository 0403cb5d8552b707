import DbusAccess.Spec.Status

/-! The lines of a status file. -/

namespace DbusAccess

variable {key line data s w k v : List UInt8} {c : UInt8} {st : Status}

/-- No letter is a zero in the other case. -/
theorem toLower_ne_zero (hc : c ≠ 0) : toLower c ≠ 0 := by
  unfold toLower
  split_ifs with hcap
  · simp only [UInt8.le_iff_toNat_le, ne_eq, ← UInt8.toNat_inj, UInt8.toNat_add,
      UInt8.reduceToNat] at *
    have hA : (ch 'A').toNat = 65 := rfl
    have hZ : (ch 'Z').toNat = 90 := rfl
    omega
  · exact hc

theorem zero_mem_map_toLower (h0 : 0 ∈ k) (hkey : 0 ∉ key) :
    k.map toLower ≠ key.map toLower := by
  intro h
  have hmem : 0 ∈ key.map toLower := h ▸ List.mem_map.2 ⟨0, h0, rfl⟩
  obtain ⟨c, hc, hlow⟩ := List.mem_map.1 hmem
  exact toLower_ne_zero (fun h => hkey (h ▸ hc)) hlow

theorem splitOnP_subset {p : UInt8 → Bool} (hw : w ∈ s.splitOnP p) : w ⊆ s := by
  induction s generalizing w with
  | nil => simp_all
  | cons c s ih =>
    rw [List.splitOnP_cons_eq_if_modifyHead] at hw
    obtain ⟨l, ls, hl⟩ := List.exists_cons_of_ne_nil (List.splitOnP_ne_nil p s)
    rw [hl] at hw ih
    split_ifs at hw
    · rcases List.mem_cons.1 hw with rfl | hw
      · exact List.nil_subset _
      · exact fun x hx => List.mem_cons_of_mem c (ih hw hx)
    · rw [List.modifyHead_cons] at hw
      rcases List.mem_cons.1 hw with rfl | hw
      · exact List.cons_subset_cons c (ih (List.mem_cons_self ..))
      · exact fun x hx => List.mem_cons_of_mem c (ih (List.mem_cons_of_mem l hw) hx)

/-! The key of a line. -/

theorem splitKey_of_key (hk : ∀ c ∈ k, gAsciiIsspace c = false ∧ c ≠ ch ':') :
    splitKey (k ++ ch ':' :: v) = some (k, v) := by
  have hdrop : (k ++ ch ':' :: v).dropWhile gAsciiIsspace = k ++ ch ':' :: v := by
    cases k with
    | nil => rfl
    | cons c k =>
      rw [List.cons_append, List.dropWhile_cons_of_neg]
      simp [(hk c (List.mem_cons_self ..)).1]
  have htake : (k ++ ch ':' :: v).takeWhile (· ≠ ch ':') = k := by
    rw [List.takeWhile_append_of_pos]
    · simp
    · intro c hc
      simpa using (hk c hc).2
  have hany : k.any gAsciiIsspace = false := by
    rw [List.any_eq_false]
    intro c hc
    simp [(hk c hc).1]
  simp only [splitKey, hdrop, htake, List.drop_left, hany]
  simp

/-- A line with white space before its first colon has no key. -/
theorem splitKey_of_space (hk : ∀ c ∈ k, gAsciiIsspace c = false ∧ c ≠ ch ':')
    (hne : k ≠ []) (hc : gAsciiIsspace c = true) : splitKey (k ++ c :: v) = none := by
  obtain ⟨d, k, rfl⟩ := List.exists_cons_of_ne_nil hne
  have hcolon : c ≠ ch ':' := by
    rintro rfl
    cases hc
  have hdrop : (d :: k ++ c :: v).dropWhile gAsciiIsspace = d :: k ++ c :: v := by
    rw [List.cons_append, List.dropWhile_cons_of_neg]
    simp [(hk d (List.mem_cons_self ..)).1]
  have hany : ((d :: k ++ c :: v).takeWhile (· ≠ ch ':')).any gAsciiIsspace = true := by
    rw [List.takeWhile_append_of_pos, List.takeWhile_cons_of_pos (by simpa using hcolon)]
    · simp [hc]
    · intro e he
      simpa using (hk e he).2
  simp only [splitKey, hdrop, hany]
  split <;> simp

theorem splitKey_of_no_colon (hk : ch ':' ∉ line) : splitKey line = none := by
  have htake : (line.dropWhile gAsciiIsspace).takeWhile (· ≠ ch ':') =
      line.dropWhile gAsciiIsspace := by
    refine List.takeWhile_eq_self_iff.2 fun c hc => ?_
    rw [decide_eq_true_eq]
    rintro rfl
    exact hk ((List.dropWhile_suffix _).subset hc)
  simp only [splitKey, htake, List.drop_length]

/-- The same, up to the end of the line. -/
theorem splitKey_of_space_line {ptr : List UInt8}
    (hk : ∀ c ∈ k, gAsciiIsspace c = false ∧ c ≠ ch ':') (hne : k ≠ [])
    (hc : gAsciiIsspace c = true) :
    splitKey (k ++ (c :: ptr).takeWhile (· ≠ ch '\n')) = none := by
  by_cases hn : c = ch '\n'
  · rw [List.takeWhile_cons_of_neg (by simpa using hn), List.append_nil]
    exact splitKey_of_no_colon fun h => (hk _ h).2 rfl
  · rw [List.takeWhile_cons_of_pos (by simpa using hn)]
    exact splitKey_of_space hk hne hc

theorem splitKey_space (hc : gAsciiIsspace c = true) (line : List UInt8) :
    splitKey (c :: line) = splitKey line := by
  simp only [splitKey, List.dropWhile_cons_of_pos hc]

theorem keyValue_eq (key line : List UInt8) :
    keyValue key line = (splitKey line).bind fun p =>
      if p.1.map toLower = key.map toLower then some p.2 else none := by
  unfold keyValue splitKey
  simp only
  split
  · rfl
  · cases (((line.dropWhile gAsciiIsspace).takeWhile (· ≠ ch ':')).any gAsciiIsspace) <;> simp

theorem keyValue_of_key (hk : ∀ c ∈ k, gAsciiIsspace c = false ∧ c ≠ ch ':') :
    keyValue key (k ++ ch ':' :: v) =
      if k.map toLower = key.map toLower then some v else none := by
  rw [keyValue_eq, splitKey_of_key hk, Option.bind_some]

theorem keyValue_of_no_split (h : splitKey line = none) : keyValue key line = none := by
  rw [keyValue_eq, h, Option.bind_none]

theorem keyValue_of_no_colon (hk : ch ':' ∉ line) : keyValue key line = none :=
  keyValue_of_no_split (splitKey_of_no_colon hk)

theorem keyValue_space (hc : gAsciiIsspace c = true) (line : List UInt8) :
    keyValue key (c :: line) = keyValue key line := by
  rw [keyValue_eq, splitKey_space hc, ← keyValue_eq]

/-! The first value of each key. -/

/-- One more line. -/
def Status.add (st : Status) (line : List UInt8) : Status where
  uid := st.uid.or (keyValue (str "Uid") line)
  gid := st.gid.or (keyValue (str "Gid") line)
  groups := st.groups.or (keyValue (str "Groups") line)
  capEff := st.capEff.or (keyValue (str "CapEff") line)

theorem Status.add_of_none (st : Status) (h : ∀ key, keyValue key line = none) :
    st.add line = st := by
  simp only [Status.add, h, Option.or_none]

@[simp] theorem Status.add_nil (st : Status) : st.add [] = st :=
  st.add_of_none fun _ => keyValue_of_no_colon (by simp)

theorem Status.foldl_add (st : Status) (lines : List (List UInt8)) :
    lines.foldl Status.add st =
      ⟨st.uid.or (lines.findSome? (keyValue (str "Uid"))),
        st.gid.or (lines.findSome? (keyValue (str "Gid"))),
        st.groups.or (lines.findSome? (keyValue (str "Groups"))),
        st.capEff.or (lines.findSome? (keyValue (str "CapEff")))⟩ := by
  induction lines generalizing st with
  | nil => simp
  | cons line lines ih =>
    have hcons : ∀ key, (line :: lines).findSome? (keyValue key) =
        (keyValue key line).or (lines.findSome? (keyValue key)) := by
      intro key
      rw [List.findSome?_cons]
      cases keyValue key line <;> rfl
    rw [List.foldl_cons, ih]
    simp only [Status.add, hcons, Option.or_assoc]

/-! Spaces in front of a line do not count, and neither do empty lines. -/

section lines

variable {σ : Type} {f : σ → List UInt8 → σ} (hnil : ∀ s, f s [] = s)
  (hspace : ∀ s c line, gAsciiIsspace c = true → f s (c :: line) = f s line)

include hnil hspace in
theorem foldl_space (s : σ) (hc : gAsciiIsspace c = true) (data : List UInt8) :
    ((c :: data).splitOn (ch '\n')).foldl f s = (data.splitOn (ch '\n')).foldl f s := by
  by_cases hn : c = ch '\n'
  · subst hn
    rw [show (ch '\n' :: data).splitOn (ch '\n') = [] :: data.splitOn (ch '\n') from
      List.splitOn_append_cons_self_of_not_mem List.not_mem_nil data, List.foldl_cons, hnil]
  · rw [List.splitOn_cons_eq_if_modifyHead, if_neg (by simpa using hn)]
    obtain ⟨line, lines, hl⟩ := List.exists_cons_of_ne_nil (List.splitOn_ne_nil (ch '\n') data)
    rw [hl, List.modifyHead_cons, List.foldl_cons, List.foldl_cons, hspace s c line hc]

include hnil hspace in
theorem foldl_dropWhile (s : σ) (data : List UInt8) :
    ((data.dropWhile gAsciiIsspace).splitOn (ch '\n')).foldl f s =
      (data.splitOn (ch '\n')).foldl f s := by
  induction data with
  | nil => rfl
  | cons c data ih =>
    by_cases hc : gAsciiIsspace c = true
    · rw [List.dropWhile_cons_of_pos hc, ih, foldl_space hnil hspace s hc]
    · rw [List.dropWhile_cons_of_neg hc]

include hnil in
/-- The first line, and the lines behind it. -/
theorem foldl_line (s : σ) (data : List UInt8) :
    (data.splitOn (ch '\n')).foldl f s =
      ((data.dropWhile (· ≠ ch '\n')).tail.splitOn (ch '\n')).foldl f
        (f s (data.takeWhile (· ≠ ch '\n'))) := by
  have hsplit := List.takeWhile_append_dropWhile (p := (· ≠ ch '\n')) (l := data)
  have hline : ch '\n' ∉ data.takeWhile (· ≠ ch '\n') := by
    intro h
    simpa using List.mem_takeWhile_imp h
  have hstop := List.head?_dropWhile_not (· ≠ ch '\n') data
  generalize data.takeWhile (· ≠ ch '\n') = line at hsplit hline ⊢
  generalize data.dropWhile (· ≠ ch '\n') = r at hsplit hstop ⊢
  subst hsplit
  cases r with
  | nil =>
    rw [List.append_nil, List.splitOn_eq_singleton hline, List.tail_nil, List.splitOn_nil,
      List.foldl_cons, List.foldl_cons, hnil]
  | cons c r =>
    obtain rfl : c = ch '\n' := by simpa using hstop
    rw [List.splitOn_append_cons_self_of_not_mem hline, List.foldl_cons, List.tail_cons]

end lines

theorem Status.add_space (st : Status) (c : UInt8) (line : List UInt8)
    (hc : gAsciiIsspace c = true) : st.add (c :: line) = st.add line := by
  simp only [Status.add, keyValue_space hc]

/-- What is in front of the colon is this key, and there has been no line with it. -/
def sought (seen : Option (List UInt8)) (key k : List UInt8) : Bool :=
  !seen.isSome && (k.map toLower == key.map toLower)

theorem sought_some (key k : List UInt8) : sought (some v) key k = false := rfl

theorem sought_none : sought none key k = true ↔ k.map toLower = key.map toLower := by
  simp [sought]

theorem sought_of_ne (seen : Option (List UInt8)) (h : k.map toLower ≠ key.map toLower) :
    sought seen key k = false := by
  rw [sought, beq_false_of_ne h, Bool.and_false]

/-- What a line with something in front of a colon adds: it has one of the four keys, or
none that is sought. -/
theorem Status.add_cases (st : Status) (hk : ∀ c ∈ k, gAsciiIsspace c = false ∧ c ≠ ch ':') :
    (sought st.uid (str "Uid") k = true ∧ st.uid = none ∧
      st.add (k ++ ch ':' :: v) = { st with uid := some v }) ∨
    (sought st.uid (str "Uid") k = false ∧ sought st.gid (str "Gid") k = true ∧ st.gid = none ∧
      st.add (k ++ ch ':' :: v) = { st with gid := some v }) ∨
    (sought st.uid (str "Uid") k = false ∧ sought st.gid (str "Gid") k = false ∧
      sought st.groups (str "Groups") k = true ∧ st.groups = none ∧
      st.add (k ++ ch ':' :: v) = { st with groups := some v }) ∨
    (sought st.uid (str "Uid") k = false ∧ sought st.gid (str "Gid") k = false ∧
      sought st.groups (str "Groups") k = false ∧ sought st.capEff (str "CapEff") k = true ∧
      st.capEff = none ∧ st.add (k ++ ch ':' :: v) = { st with capEff := some v }) ∨
    (sought st.uid (str "Uid") k = false ∧ sought st.gid (str "Gid") k = false ∧
      sought st.groups (str "Groups") k = false ∧ sought st.capEff (str "CapEff") k = false ∧
      st.add (k ++ ch ':' :: v) = st) := by
  have hsame : ∀ key seen, sought seen key k = false →
      seen.or (keyValue key (k ++ ch ':' :: v)) = seen := by
    intro key seen h
    cases seen with
    | some u => rfl
    | none =>
      have hne : ¬ k.map toLower = key.map toLower := fun heq =>
        Bool.false_ne_true (h.symm.trans (sought_none.2 heq))
      rw [keyValue_of_key hk, if_neg hne, Option.none_or]
  have hfound : ∀ key seen, sought seen key k = true →
      seen = none ∧ seen.or (keyValue key (k ++ ch ':' :: v)) = some v := by
    intro key seen h
    cases seen with
    | some u => cases h
    | none => exact ⟨rfl, by rw [keyValue_of_key hk, if_pos (sought_none.1 h), Option.none_or]⟩
  -- a key that is sought is none of those that follow
  have hother : ∀ key key' seen seen', sought seen key k = true →
      key.map toLower ≠ key'.map toLower → sought seen' key' k = false := by
    intro key key' seen seen' h hne
    obtain rfl := (hfound key seen h).1
    exact sought_of_ne seen' (sought_none.1 h ▸ hne)
  simp only [Status.add]
  cases h1 : sought st.uid (str "Uid") k with
  | true =>
    have hg := hother _ (str "Gid") _ st.gid h1 (by decide)
    have hr := hother _ (str "Groups") _ st.groups h1 (by decide)
    have hc := hother _ (str "CapEff") _ st.capEff h1 (by decide)
    obtain ⟨hnone, hval⟩ := hfound _ _ h1
    rw [hval, hsame _ _ hg, hsame _ _ hr, hsame _ _ hc]
    exact Or.inl ⟨rfl, hnone, rfl⟩
  | false =>
    right
    rw [hsame _ _ h1]
    cases h2 : sought st.gid (str "Gid") k with
    | true =>
      have hr := hother _ (str "Groups") _ st.groups h2 (by decide)
      have hc := hother _ (str "CapEff") _ st.capEff h2 (by decide)
      obtain ⟨hnone, hval⟩ := hfound _ _ h2
      rw [hval, hsame _ _ hr, hsame _ _ hc]
      exact Or.inl ⟨rfl, rfl, hnone, rfl⟩
    | false =>
      right
      rw [hsame _ _ h2]
      cases h3 : sought st.groups (str "Groups") k with
      | true =>
        have hc := hother _ (str "CapEff") _ st.capEff h3 (by decide)
        obtain ⟨hnone, hval⟩ := hfound _ _ h3
        rw [hval, hsame _ _ hc]
        exact Or.inl ⟨rfl, rfl, rfl, hnone, rfl⟩
      | false =>
        right
        rw [hsame _ _ h3]
        cases h4 : sought st.capEff (str "CapEff") k with
        | true =>
          obtain ⟨hnone, hval⟩ := hfound _ _ h4
          rw [hval]
          exact Or.inl ⟨rfl, rfl, rfl, rfl, hnone, rfl⟩
        | false =>
          rw [hsame _ _ h4]
          exact Or.inr ⟨rfl, rfl, rfl, rfl, rfl⟩

/-! Keys that a zero cuts. -/

/-- On a line with a key, no zero may cut it to a key that is still looked for. -/
structure Status.KeysOk (st : Status) (line : List UInt8) : Prop where
  uid : st.uid = none → ¬ KeyCut (str "Uid") line
  gid : st.gid = none → ¬ KeyCut (str "Gid") line
  groups : st.groups = none → ¬ KeyCut (str "Groups") line
  capEff : st.capEff = none → ¬ KeyCut (str "CapEff") line

theorem keyCut_of_key (hk : ∀ c ∈ k, gAsciiIsspace c = false ∧ c ≠ ch ':') :
    KeyCut key (k ++ ch ':' :: v) ↔ 0 ∈ k ∧ (cStr k).map toLower = key.map toLower := by
  simp [KeyCut, splitKey_of_key hk]

theorem Status.keysOk_of_no_split (h : splitKey line = none) :
    st.KeysOk line := by
  have hno : ∀ key, ¬ KeyCut key line := by
    rintro key ⟨k, v, hsplit, -⟩
    rw [h] at hsplit
    cases hsplit
  exact ⟨fun _ => hno _, fun _ => hno _, fun _ => hno _, fun _ => hno _⟩

def Status.LinesOk : Status → List (List UInt8) → Prop
  | _, [] => True
  | st, line :: lines => st.KeysOk line ∧ (st.add line).LinesOk lines

/-- One more line, with what has to be so of it. -/
def Status.addOk (p : Status × Prop) (line : List UInt8) : Status × Prop :=
  (p.1.add line, p.2 ∧ p.1.KeysOk line)

theorem foldl_addOk (st : Status) (ok : Prop) (lines : List (List UInt8)) :
    lines.foldl Status.addOk (st, ok) = (lines.foldl Status.add st, ok ∧ st.LinesOk lines) := by
  induction lines generalizing st ok with
  | nil => simp [Status.LinesOk]
  | cons line lines ih =>
    rw [List.foldl_cons, List.foldl_cons, Status.addOk, ih, Status.LinesOk, and_assoc]

theorem addOk_nil (p : Status × Prop) : Status.addOk p [] = p := by
  have hok : p.1.KeysOk [] := Status.keysOk_of_no_split (splitKey_of_no_colon (by simp))
  simp [Status.addOk, hok]

theorem addOk_space (p : Status × Prop) (c : UInt8) (line : List UInt8)
    (hc : gAsciiIsspace c = true) : Status.addOk p (c :: line) = Status.addOk p line := by
  have hcut : ∀ key, KeyCut key (c :: line) ↔ KeyCut key line := by
    intro key
    rw [KeyCut, splitKey_space hc, ← KeyCut]
  have hok : p.1.KeysOk (c :: line) ↔ p.1.KeysOk line := by
    constructor
    · intro h
      exact ⟨by simpa [hcut] using h.uid, by simpa [hcut] using h.gid,
        by simpa [hcut] using h.groups, by simpa [hcut] using h.capEff⟩
    · intro h
      exact ⟨by simpa [hcut] using h.uid, by simpa [hcut] using h.gid,
        by simpa [hcut] using h.groups, by simpa [hcut] using h.capEff⟩
  rw [Status.addOk, Status.addOk, p.1.add_space c line hc, hok]

theorem linesOk_dropWhile (st : Status) (data : List UInt8) :
    st.LinesOk ((data.dropWhile gAsciiIsspace).splitOn (ch '\n')) ↔
      st.LinesOk (data.splitOn (ch '\n')) := by
  have h := congrArg Prod.snd (foldl_dropWhile addOk_nil addOk_space (st, True) data)
  rw [foldl_addOk, foldl_addOk] at h
  simpa using h

theorem linesOk_line (st : Status) (data : List UInt8) :
    st.LinesOk (data.splitOn (ch '\n')) ↔
      st.KeysOk (data.takeWhile (· ≠ ch '\n')) ∧ (st.add (data.takeWhile (· ≠ ch '\n'))).LinesOk
        ((data.dropWhile (· ≠ ch '\n')).tail.splitOn (ch '\n')) := by
  have h := congrArg Prod.snd (foldl_line addOk_nil (st, True) data)
  rw [Status.addOk, foldl_addOk, foldl_addOk] at h
  simpa using h

/-- No key is cut before there has been a line with it. -/
def Uncut (seen : Option (List UInt8)) (key : CString) (lines : List (List UInt8)) : Prop :=
  seen = none → ∀ line ∈ lines.takeWhile fun line => (keyValue key line).isNone, ¬ KeyCut key line

theorem keyValue_of_keyCut (hkey : 0 ∉ key) (h : KeyCut key line) :
    keyValue key line = none := by
  obtain ⟨k, v, hsplit, h0, -⟩ := h
  rw [keyValue_eq, hsplit, Option.bind_some, if_neg (zero_mem_map_toLower h0 hkey)]

theorem uncut_cons (hkey : 0 ∉ key) (seen : Option (List UInt8)) (line : List UInt8)
    (lines : List (List UInt8)) :
    Uncut seen key (line :: lines) ↔
      (seen = none → ¬ KeyCut key line) ∧ Uncut (seen.or (keyValue key line)) key lines := by
  unfold Uncut
  cases seen with
  | some u => simp
  | none =>
    obtain hnone | ⟨u, hu⟩ := Option.eq_none_or_eq_some (keyValue key line)
    · rw [List.takeWhile_cons_of_pos (by simp [hnone]), List.forall_mem_cons, Option.none_or]
      simp [hnone]
    · have hcut : ¬ KeyCut key line := by
        intro hcut
        rw [keyValue_of_keyCut hkey hcut] at hu
        cases hu
      rw [List.takeWhile_cons_of_neg (by simp [hu])]
      simp [hu, hcut]

theorem linesOk_iff (st : Status) (lines : List (List UInt8)) :
    st.LinesOk lines ↔ Uncut st.uid (str "Uid") lines ∧ Uncut st.gid (str "Gid") lines ∧
      Uncut st.groups (str "Groups") lines ∧ Uncut st.capEff (str "CapEff") lines := by
  induction lines generalizing st with
  | nil => simp [Status.LinesOk, Uncut]
  | cons line lines ih =>
    rw [Status.LinesOk, ih, uncut_cons (by decide), uncut_cons (by decide), uncut_cons (by decide),
      uncut_cons (by decide)]
    constructor
    · rintro ⟨hok, h1, h2, h3, h4⟩
      exact ⟨⟨hok.uid, h1⟩, ⟨hok.gid, h2⟩, ⟨hok.groups, h3⟩, hok.capEff, h4⟩
    · rintro ⟨⟨k1, h1⟩, ⟨k2, h2⟩, ⟨k3, h3⟩, k4, h4⟩
      exact ⟨⟨k1, k2, k3, k4⟩, h1, h2, h3, h4⟩

theorem zero_of_keyCut (h : KeyCut key line) : 0 ∈ line := by
  obtain ⟨k, v, hsplit, h0, -⟩ := h
  unfold splitKey at hsplit
  simp only at hsplit
  split at hsplit
  · cases hsplit
  · split_ifs at hsplit
    obtain rfl := (Prod.mk.inj (Option.some.inj hsplit)).1
    exact (List.dropWhile_suffix _).subset ((List.takeWhile_prefix _).subset h0)

theorem linesOk_of_no_zero (st : Status) (h0 : 0 ∉ data) :
    st.LinesOk (data.splitOn (ch '\n')) := by
  have hun : ∀ seen key, Uncut seen key (data.splitOn (ch '\n')) := by
    intro seen key _ line hline hcut
    have hmem := (List.takeWhile_prefix _).subset hline
    exact h0 (splitOnP_subset hmem (zero_of_keyCut hcut))
  rw [linesOk_iff]
  exact ⟨hun _ _, hun _ _, hun _ _, hun _ _⟩

end DbusAccess
