import DbusAccess.Proofs.CredParse
import DbusAccess.Spec.CredMemory

/-! What the loops over bytes and words access, and what they compute. -/

namespace DbusAccess

open Trace

variable {m : Memory} {P : Access → Prop} {p : UInt8 → Bool} {key : List UInt8}
  {n i ptr eol start : ℕ}

namespace Memory

/-! Bytes. -/

@[simp] theorem all_readData : All P (m.readData i) ↔ P (.data i) := by
  simp [readData]

@[simp] theorem all_readKey : All P (m.readKey key i) ↔ P (.key key i) := by
  simp [readKey]

/-- The bytes from a position up to another. -/
def between (m : Memory) (ptr eol : ℕ) : List UInt8 := (m.data.drop ptr).take (eol - ptr)

theorem between_end (m : Memory) (ptr : ℕ) : m.between ptr m.data.length = m.data.drop ptr := by
  rw [between, List.take_of_length_le (by rw [List.length_drop])]

theorem between_self (m : Memory) (ptr : ℕ) : m.between ptr ptr = [] := by
  rw [between, Nat.sub_self, List.take_zero]

theorem length_between (he : eol ≤ m.data.length) : (m.between ptr eol).length = eol - ptr := by
  rw [between, List.length_take, List.length_drop]
  omega

theorem between_add (m : Memory) (ptr n eol : ℕ) :
    m.between (ptr + n) eol = (m.between ptr eol).drop n := by
  rw [between, between, List.drop_take, List.drop_drop, Nat.sub_sub]

theorem between_take (m : Memory) (eol : ℕ) (h : n ≤ eol - ptr) :
    m.between ptr (ptr + n) = (m.between ptr eol).take n := by
  rw [between, between, List.take_take, Nat.add_sub_cancel_left, min_eq_left h]

theorem between_cons (h : ptr < eol) (he : eol ≤ m.data.length) :
    m.between ptr eol = (m.readData ptr).value :: m.between (ptr + 1) eol := by
  have hptr : ptr < m.data.length := h.trans_le he
  have hvalue : (m.readData ptr).value = m.data[ptr] := by
    simp [readData, hptr]
  rw [between, between, hvalue, List.drop_eq_getElem_cons hptr,
    show eol - ptr = (eol - (ptr + 1)) + 1 by omega, List.take_succ_cons]

/-! Loops over bytes. -/

theorem all_skip (hP : ∀ i < m.data.length, P (.data i)) (h : ptr + n ≤ m.data.length) :
    All P (m.skip p n ptr) := by
  induction n generalizing ptr with
  | zero => simp [skip]
  | succ n ih =>
    have hih : All P (m.skip p n (ptr + 1)) := ih (by omega)
    simp only [skip, all_bind, all_readData, all_ite, all_pure]
    refine ⟨hP ptr (by omega), ?_⟩
    split_ifs
    exact hih

theorem value_skip (h : ptr ≤ eol) (he : eol ≤ m.data.length) :
    (m.skip p (eol - ptr) ptr).value = ptr + ((m.between ptr eol).takeWhile p).length := by
  obtain ⟨n, rfl⟩ := Nat.exists_eq_add_of_le h
  rw [Nat.add_sub_cancel_left]
  induction n generalizing ptr with
  | zero => simp [skip, between_self]
  | succ n ih =>
    have hih : (m.skip p n (ptr + 1)).value =
        ptr + 1 + ((m.between (ptr + 1) (ptr + 1 + n)).takeWhile p).length :=
      ih (by omega) (by omega)
    rw [between_cons (by omega) he]
    simp only [skip, value_bind, value_ite, value_pure]
    rw [show ptr + 1 + n = ptr + (n + 1) by omega] at hih
    split_ifs with hc
    · rw [hih, List.takeWhile_cons_of_pos hc, List.length_cons]
      omega
    · rw [List.takeWhile_cons_of_neg hc, List.length_nil, Nat.add_zero]

/-- Where the loop stops. -/
structure Skipped (m : Memory) (p : UInt8 → Bool) (ptr eol stop : ℕ) : Prop where
  left : ptr ≤ stop
  right : stop ≤ eol
  skipped : m.between ptr stop = (m.between ptr eol).takeWhile p
  rest : m.between stop eol = (m.between ptr eol).dropWhile p

theorem skipped (p : UInt8 → Bool) (h : ptr ≤ eol) (he : eol ≤ m.data.length) :
    Skipped m p ptr eol (m.skip p (eol - ptr) ptr).value := by
  have hsplit := List.takeWhile_append_dropWhile (p := p) (l := m.between ptr eol)
  have hlen := congrArg List.length hsplit
  rw [List.length_append, length_between he] at hlen
  rw [value_skip h he]
  refine ⟨by omega, by omega, ?_, ?_⟩
  · rw [between_take m eol (by omega)]
    exact (congrArg (List.take _) hsplit).symm.trans List.take_left
  · rw [between_add]
    exact (congrArg (List.drop _) hsplit).symm.trans List.drop_left

theorem all_gStrndup (hP : ∀ i < m.data.length, P (.data i)) (h : ptr + n ≤ m.data.length) :
    All P (m.gStrndup ptr n) := by
  induction n generalizing ptr with
  | zero => simp [gStrndup]
  | succ n ih =>
    have hih : All P (m.gStrndup (ptr + 1) n) := ih (by omega)
    simp only [gStrndup, all_bind, all_readData, all_ite, all_pure]
    refine ⟨hP ptr (by omega), ?_⟩
    split_ifs
    exact ⟨hih, trivial⟩

theorem value_gStrndup (h : ptr ≤ eol) (he : eol ≤ m.data.length) :
    (m.gStrndup ptr (eol - ptr)).value = cStr (m.between ptr eol) := by
  obtain ⟨n, rfl⟩ := Nat.exists_eq_add_of_le h
  rw [Nat.add_sub_cancel_left]
  induction n generalizing ptr with
  | zero => simp [gStrndup, between_self, cStr]
  | succ n ih =>
    have hih : (m.gStrndup (ptr + 1) n).value = cStr (m.between (ptr + 1) (ptr + 1 + n)) :=
      ih (by omega) (by omega)
    rw [between_cons (by omega) he]
    simp only [gStrndup, value_bind, value_ite, value_pure]
    rw [show ptr + 1 + n = ptr + (n + 1) by omega] at hih
    split_ifs with hc
    · simp [cStr, hc]
    · rw [hih]
      simp [cStr, hc]

/-! Words. -/

/-- Every round takes a byte at least, so the loop is not cut off. -/
theorem all_parseWords (hP : ∀ i < m.data.length, P (.data i)) (he : eol ≤ m.data.length)
    (h : ptr ≤ eol) (hn : eol - ptr ≤ n)
    (hword : (m.between ptr eol).dropWhile gAsciiIsspace = m.between ptr eol) :
    All P (m.parseWords eol n ptr) ∧
      (m.parseWords eol n ptr).value = (DbusAccess.parseWords n (m.between ptr eol), eol) := by
  induction n generalizing ptr with
  | zero =>
    obtain rfl : ptr = eol := by omega
    simp [parseWords, DbusAccess.parseWords]
  | succ n ih =>
    rcases h.eq_or_lt with rfl | hlt
    · simp [parseWords, between_self, DbusAccess.parseWords]
    have hstop := skipped (!gAsciiIsspace ·) h he
    generalize hq : (m.skip (!gAsciiIsspace ·) (eol - ptr) ptr).value = stop at hstop
    have hnext := skipped gAsciiIsspace hstop.right he
    generalize hq' : (m.skip gAsciiIsspace (eol - stop) stop).value = next at hnext
    have hcons := between_cons hlt he
    -- the first byte is none of the spaces
    have hadv : ptr < stop := by
      refine lt_of_le_of_ne hstop.left fun heq => ?_
      subst heq
      have hnil := hstop.skipped
      rw [between_self, hcons] at hnil
      rw [hcons] at hword
      by_cases hc : gAsciiIsspace (m.readData ptr).value = true
      · rw [List.dropWhile_cons_of_pos hc] at hword
        have := congrArg List.length hword
        have := (List.dropWhile_suffix (l := m.between (ptr + 1) eol) gAsciiIsspace).length_le
        simp only [List.length_cons] at *
        omega
      · rw [List.takeWhile_cons_of_pos (by simpa using hc)] at hnil
        cases hnil
    have hnext' := hnext.left
    obtain ⟨hall, hvalue⟩ := ih hnext.right (by omega)
      (by rw [hnext.rest, List.dropWhile_idempotent])
    have hskip : All P (m.skip (!gAsciiIsspace ·) (eol - ptr) ptr) := all_skip hP (by omega)
    have hskip' : All P (m.skip gAsciiIsspace (eol - stop) stop) :=
      all_skip hP (by have := hstop.right; omega)
    have hdup : All P (m.gStrndup ptr (stop - ptr)) :=
      all_gStrndup hP (by have := hstop.right; omega)
    have hword := value_gStrndup hstop.left (hstop.right.trans he)
    rw [parseWords, if_pos hlt]
    refine ⟨?_, ?_⟩
    · simp only [all_bind, all_pure, hq, hq', hskip, hskip', hdup, hall, and_self]
    · simp only [value_bind, value_pure, hq, hq', hvalue, hword, hstop.skipped, hnext.rest,
        hstop.rest]
      rw [hcons, DbusAccess.parseWords]

/-- The words of the line, and its end. -/
theorem daCredParseValues_spec (hP : ∀ i < m.data.length, P (.data i)) (h : ptr ≤ m.data.length) :
    All P (m.daCredParseValues ptr) ∧ ∃ eol, ptr ≤ eol ∧ eol ≤ m.data.length ∧
      (m.daCredParseValues ptr).value =
        (cutWords ((m.data.drop ptr).takeWhile (· ≠ ch '\n')), eol) ∧
      m.data.drop eol = (m.data.drop ptr).dropWhile (· ≠ ch '\n') := by
  have hline := skipped (· ≠ ch '\n') h le_rfl
  generalize hq : (m.skip (· ≠ ch '\n') (m.data.length - ptr) ptr).value = eol at hline
  have hfirst := skipped gAsciiIsspace hline.left hline.right
  generalize hq' : (m.skip gAsciiIsspace (eol - ptr) ptr).value = first at hfirst
  have hskip : All P (m.skip (· ≠ ch '\n') (m.data.length - ptr) ptr) := all_skip hP (by omega)
  have hskip' : All P (m.skip gAsciiIsspace (eol - ptr) ptr) :=
    all_skip hP (by have := hline.left; have := hline.right; omega)
  have hidem : (m.between first eol).dropWhile gAsciiIsspace = m.between first eol := by
    rw [hfirst.rest, List.dropWhile_idempotent]
  obtain ⟨hall, hvalue⟩ := all_parseWords hP hline.right hfirst.right le_rfl hidem
  have hlen : (m.between first eol).length = eol - first := length_between hline.right
  refine ⟨?_, eol, hline.left, hline.right, ?_, ?_⟩
  · simp only [daCredParseValues, all_bind, hq, hq', hskip, hskip', hall, and_self]
  · simp only [daCredParseValues, value_bind, hq, hq', hvalue]
    rw [parseWords_eq hlen.le hidem, hfirst.rest, cutWords, words_dropWhile, ← cutWords,
      hline.skipped, between_end]
  · rw [← between_end, hline.rest, between_end]

/-! Keys. -/

theorem value_readKey_lt (h : i < key.length) : (m.readKey key i).value = key[i] := by
  simp [readKey, List.getElem?_append_left h, h]

theorem value_readKey_length : (m.readKey key key.length).value = 0 := by
  simp [readKey]

theorem value_readData {c : UInt8} {t : List UInt8} (h : m.data.drop i = c :: t) :
    (m.readData i).value = c := by
  have hget : m.data[i]? = some c := by
    rw [← List.head?_drop, h, List.head?_cons]
  simp [readData, hget]

/-- The comparison ends at the end of the key. -/
theorem strncasecmp_spec (hP : ∀ i < m.data.length, P (.data i))
    (hK : ∀ i ≤ key.length, P (.key key i)) (hkey : 0 ∉ key) (hi : i ≤ key.length)
    (h : start + n ≤ m.data.length) :
    All P (m.gAsciiStrncasecmp key i start n) ∧ (m.gAsciiStrncasecmp key i start n).value =
      DbusAccess.gAsciiStrncasecmp (key.drop i) (m.data.drop start) n := by
  induction n generalizing i start with
  | zero => simp [gAsciiStrncasecmp, DbusAccess.gAsciiStrncasecmp]
  | succ n ih =>
    have hstart : start < m.data.length := by omega
    have hdrop : m.data.drop start = m.data[start] :: m.data.drop (start + 1) :=
      List.drop_eq_getElem_cons hstart
    have hdata := hP start hstart
    simp only [gAsciiStrncasecmp, all_bind, all_readKey, all_readData, hK i hi, hdata, true_and,
      value_bind, value_readData hdrop, hdrop]
    rcases hi.eq_or_lt with rfl | hlt
    · simp [value_readKey_length, DbusAccess.gAsciiStrncasecmp, hstart]
    · have hih : All P (m.gAsciiStrncasecmp key (i + 1) (start + 1) n) ∧
          (m.gAsciiStrncasecmp key (i + 1) (start + 1) n).value =
            DbusAccess.gAsciiStrncasecmp (key.drop (i + 1)) (m.data.drop (start + 1)) n :=
        ih hlt (by omega)
      have hne : key[i] ≠ 0 := fun h => hkey (h ▸ List.getElem_mem hlt)
      rw [List.drop_eq_getElem_cons hlt, value_readKey_lt hlt, DbusAccess.gAsciiStrncasecmp]
      by_cases h0 : key[i] = 0 ∨ m.data[start] = 0
      · rw [if_pos h0, if_pos h0]
        simp
      rw [if_neg h0, if_neg h0]
      by_cases hl : toLower key[i] ≠ toLower m.data[start]
      · rw [if_pos hl, if_pos hl]
        simp
      · rw [if_neg hl, if_neg hl]
        exact hih

/-- Only the read behind the comparison may leave the key. -/
theorem all_daCredMatch (hP : ∀ i < m.data.length, P (.data i))
    (hK : ∀ i ≤ key.length, P (.key key i)) (hkey : 0 ∉ key) (h : start + n ≤ m.data.length) :
    All P (m.daCredMatch key start n) ↔
      (DbusAccess.gAsciiStrncasecmp key (m.data.drop start) n = 0 → P (.key key n)) := by
  obtain ⟨hall, hvalue⟩ := strncasecmp_spec hP hK hkey (Nat.zero_le _) h
  rw [List.drop_zero] at hvalue
  simp [daCredMatch, hall, hvalue]

theorem value_daCredMatch (hkey : 0 ∉ key) (h : start + n ≤ m.data.length) {b : Bool}
    (hb : DbusAccess.daCredMatch key (m.data.drop start) n = .ok b) :
    (m.daCredMatch key start n).value = b := by
  obtain ⟨-, hvalue⟩ := strncasecmp_spec (P := fun _ => True) (fun _ _ => trivial)
    (fun _ _ => trivial) hkey (Nat.zero_le _) h
  rw [List.drop_zero] at hvalue
  unfold DbusAccess.daCredMatch at hb
  simp only [daCredMatch, value_bind, hvalue, value_ite, value_pure]
  split_ifs at hb ⊢ with h0
  · cases hget : (key ++ [0])[n]? with
    | none =>
      rw [hget] at hb
      cases hb
    | some c =>
      rw [hget] at hb
      simpa [readKey, hget] using hb
  · simpa using hb

/-! Numbers. -/

@[simp] theorem all_uint32 {w : CString} : All P (daCredParseUint32 w) ↔ P (.number w) := by
  simp [daCredParseUint32]

@[simp] theorem value_uint32 {w : CString} :
    (daCredParseUint32 w).value = DbusAccess.daCredParseUint32 w := rfl

@[simp] theorem all_uint64 {w : CString} : All P (daCredParseUint64 w) ↔ P (.number w) := by
  simp [daCredParseUint64]

@[simp] theorem value_uint64 {w : CString} :
    (daCredParseUint64 w).value = DbusAccess.daCredParseUint64 w := rfl

theorem all_parseUid (s : ParseState) (val : List CString) :
    All P (parseUid s val) ↔ ∀ w ∈ secondOfFour val, P (.number w) := by
  unfold parseUid secondOfFour
  split
  · rename_i w _ _
    simp only [all_bind, all_uint32, value_uint32]
    cases DbusAccess.daCredParseUint32 w <;> simp
  · simp

theorem value_parseUid (s : ParseState) (val : List CString) :
    (parseUid s val).value = DbusAccess.parseUid s val := by
  unfold parseUid DbusAccess.parseUid
  split
  · rename_i w _ _
    simp only [value_bind, value_uint32]
    cases DbusAccess.daCredParseUint32 w <;> rfl
  · simp

theorem all_parseGid (s : ParseState) (val : List CString) :
    All P (parseGid s val) ↔ ∀ w ∈ secondOfFour val, P (.number w) := by
  unfold parseGid secondOfFour
  split
  · rename_i w _ _
    simp only [all_bind, all_uint32, value_uint32]
    cases DbusAccess.daCredParseUint32 w <;> simp
  · simp

theorem value_parseGid (s : ParseState) (val : List CString) :
    (parseGid s val).value = DbusAccess.parseGid s val := by
  unfold parseGid DbusAccess.parseGid
  split
  · rename_i w _ _
    simp only [value_bind, value_uint32]
    cases DbusAccess.daCredParseUint32 w <;> rfl
  · simp

theorem all_parseCapEff (s : ParseState) (val : List CString) :
    All P (parseCapEff s val) ↔ ∀ w ∈ onlyWord val, P (.number w) := by
  unfold parseCapEff onlyWord
  split
  · rename_i w
    simp only [all_bind, all_uint64, value_uint64]
    cases DbusAccess.daCredParseUint64 w <;> simp
  · simp

theorem value_parseCapEff (s : ParseState) (val : List CString) :
    (parseCapEff s val).value = DbusAccess.parseCapEff s val := by
  unfold parseCapEff DbusAccess.parseCapEff
  split
  · rename_i w
    simp only [value_bind, value_uint64]
    cases DbusAccess.daCredParseUint64 w <;> rfl
  · simp

/-- No more groups are stored than there are words. -/
theorem storeGroups_spec {size : ℕ} (hS : ∀ i < size, P (.store i size)) (ws : List CString)
    (groups : List UInt32) (h : groups.length + ws.length ≤ size) :
    (All P (storeGroups size ws groups) ↔ ∀ w ∈ ws, P (.number w)) ∧
      (storeGroups size ws groups).value =
        groups ++ ws.filterMap DbusAccess.daCredParseUint32 := by
  induction ws generalizing groups with
  | nil => simp [storeGroups]
  | cons w ws ih =>
    rw [List.length_cons] at h
    simp only [storeGroups, all_bind, all_uint32, value_bind, value_uint32, List.forall_mem_cons]
    cases hw : DbusAccess.daCredParseUint32 w with
    | none =>
      obtain ⟨hall, hvalue⟩ := ih groups (by omega)
      simp only [hall, hvalue, List.filterMap_cons_none hw, and_self]
    | some g =>
      have hlen : (groups ++ [g]).length + ws.length ≤ size := by
        rw [List.length_append, List.length_singleton]
        omega
      obtain ⟨hall, hvalue⟩ := ih (groups ++ [g]) hlen
      have hstore := hS groups.length (by omega)
      simp only [all_bind, all_emit, value_bind, hall, hvalue, List.filterMap_cons_some hw, hstore,
        true_and, List.append_assoc, List.singleton_append, and_self]

theorem parseGroups_spec (hS : ∀ i size, i < size → P (.store i size)) (s : ParseState)
    (val : List CString) (hs : s.cred.groups = []) :
    (All P (parseGroups s val) ↔ ∀ w ∈ val, P (.number w)) ∧
      DbusAccess.parseGroups s val = .ok (parseGroups s val).value := by
  obtain ⟨hall, hvalue⟩ := storeGroups_spec (hS · val.length) val s.cred.groups (by simp [hs])
  have hlist : DbusAccess.storeGroups val.length val s.cred.groups =
      .ok (s.cred.groups ++ val.filterMap DbusAccess.daCredParseUint32) :=
    storeGroups_eq val s.cred.groups (by simp [hs])
  unfold parseGroups DbusAccess.parseGroups
  by_cases hval : val.length > 0
  · simp only [if_pos hval, all_bind, hall, all_pure, and_true, value_bind, value_pure, hvalue,
      hlist]
    exact ⟨trivial, rfl⟩
  · obtain rfl : val = [] := List.length_eq_zero_iff.1 (Nat.eq_zero_of_not_pos hval)
    simp

end Memory

end DbusAccess
