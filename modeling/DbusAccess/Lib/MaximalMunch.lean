import Mathlib.Data.List.Basic
import Mathlib.Data.List.TakeWhile

/-! Scanners in the style of lex: in each state an ordered list of rules, of
which the one with the longest match is applied, the first of them on a tie.
Nothing here depends on the alphabet, the states or the tokens. -/

namespace MaximalMunch

variable {α S τ : Type}

private theorem take_takeWhile (p : α → Bool) (s : List α) :
    s.take (s.takeWhile p).length = s.takeWhile p :=
  List.prefix_iff_eq_take.1 (List.takeWhile_prefix p) |>.symm

private theorem length_le_takeWhile {p : α → Bool} {u s : List α} (hu : u <+: s)
    (hp : ∀ c ∈ u, p c) : u.length ≤ (s.takeWhile p).length := by
  obtain ⟨t, rfl⟩ := hu
  rw [List.takeWhile_append_of_pos hp, List.length_append]
  omega

theorem takeWhile_append_cons {p : α → Bool} {c : α} (x y : List α) (hc : p c = false) :
    (x ++ c :: y).takeWhile p = x.takeWhile p := by
  induction x with
  | nil => simp [hc]
  | cons d x ih => by_cases hd : p d <;> simp [hd, ih]

/-- The shapes of regular expression a rule is written with. -/
inductive Pattern (α : Type) where
  | lit (w : List α)
  | one (p : α → Bool)
  | many (p : α → Bool)
  | word (p q : α → Bool)

/-- The language of a pattern. -/
def Pattern.Matches : Pattern α → List α → Prop
  | .lit w, u => u = w
  | .one p, u => ∃ c, u = [c] ∧ p c
  | .many p, u => u ≠ [] ∧ ∀ c ∈ u, p c
  | .word p q, u => ∃ c v, u = c :: v ∧ p c ∧ ∀ d ∈ v, q d

variable [DecidableEq α]

/-- Length of the longest prefix in the language, zero when there is none. -/
def Pattern.longest : Pattern α → List α → ℕ
  | .lit w, s => if w <+: s then w.length else 0
  | .one p, c :: _ => if p c then 1 else 0
  | .one _, [] => 0
  | .many p, s => (s.takeWhile p).length
  | .word p q, c :: t => if p c then (t.takeWhile q).length + 1 else 0
  | .word _ _, [] => 0

theorem Pattern.longest_le (r : Pattern α) (s : List α) : r.longest s ≤ s.length := by
  cases r with
  | lit w =>
    simp only [Pattern.longest]
    split_ifs with h
    · exact h.length_le
    · exact Nat.zero_le _
  | one p => cases s <;> simp [Pattern.longest]; split_ifs <;> omega
  | many p => exact (List.takeWhile_prefix p).length_le
  | word p q =>
    cases s with
    | nil => simp [Pattern.longest]
    | cons c t =>
      have := (List.takeWhile_prefix (l := t) q).length_le
      simp only [Pattern.longest, List.length_cons]
      split_ifs <;> omega

/-- A positive length is that of a word of the language. -/
theorem Pattern.longest_matches (r : Pattern α) (s : List α) (h : 0 < r.longest s) :
    r.Matches (s.take (r.longest s)) := by
  cases r with
  | lit w =>
    simp only [Pattern.longest] at h ⊢
    split_ifs at h ⊢ with hw
    · exact (List.prefix_iff_eq_take.1 hw).symm
    · omega
  | one p =>
    cases s with
    | nil => simp [Pattern.longest] at h
    | cons c t =>
      by_cases hc : p c <;> simp [Pattern.longest, Pattern.Matches, hc] at h ⊢
  | many p =>
    simp only [Pattern.longest, Pattern.Matches, take_takeWhile] at h ⊢
    exact ⟨List.ne_nil_of_length_pos h, fun c hc => List.mem_takeWhile_imp hc⟩
  | word p q =>
    cases s with
    | nil => simp [Pattern.longest] at h
    | cons c t =>
      by_cases hc : p c
      · simp only [Pattern.longest, Pattern.Matches, hc, if_true, List.take_succ_cons,
          take_takeWhile]
        exact ⟨c, _, rfl, hc, fun d hd => List.mem_takeWhile_imp hd⟩
      · simp [Pattern.longest, hc] at h

/-- No prefix in the language is longer. -/
theorem Pattern.longest_max (r : Pattern α) {u s : List α} (hu : u <+: s) (hm : r.Matches u) :
    u.length ≤ r.longest s := by
  cases r with
  | lit w => subst hm; simp [Pattern.longest, hu]
  | one p =>
    obtain ⟨c, rfl, hc⟩ := hm
    obtain ⟨t, rfl⟩ := hu
    simp [Pattern.longest, hc]
  | many p => exact length_le_takeWhile hu hm.2
  | word p q =>
    obtain ⟨c, v, rfl, hc, hv⟩ := hm
    obtain ⟨t, rfl⟩ := hu
    simpa [Pattern.longest, hc] using length_le_takeWhile (List.prefix_append v t) hv

/-- With more text there is no shorter match. -/
theorem Pattern.longest_mono (r : Pattern α) (s t : List α) :
    r.longest s ≤ r.longest (s ++ t) := by
  rcases Nat.eq_zero_or_pos (r.longest s) with h | h
  · omega
  · have hmax := r.longest_max ((List.take_prefix _ _).trans (List.prefix_append s t))
      (r.longest_matches s h)
    rwa [List.length_take_of_le (r.longest_le s)] at hmax

/-- A match that ends within the text is found without what follows. -/
theorem Pattern.longest_left (r : Pattern α) {s t : List α}
    (h : r.longest (s ++ t) ≤ s.length) : r.longest s = r.longest (s ++ t) := by
  refine (r.longest_mono s t).antisymm ?_
  rcases Nat.eq_zero_or_pos (r.longest (s ++ t)) with h0 | h0
  · omega
  · have hmatch := r.longest_matches (s ++ t) h0
    rw [List.take_append_of_le_length h] at hmatch
    have hmax := r.longest_max (List.take_prefix _ s) hmatch
    rwa [List.length_take_of_le h] at hmax

/-- No match of the pattern runs past its first symbol into a `c`. -/
def Pattern.StopsAt (c : α) : Pattern α → Prop
  | .lit w => c ∉ w.tail
  | .one _ => True
  | .many p => p c = false
  | .word _ q => q c = false

/-- What follows a delimiter does not change a match that starts before it. -/
theorem Pattern.longest_append {r : Pattern α} {c : α} {x : List α} (y : List α)
    (hx : x ≠ []) (hr : r.StopsAt c) : r.longest (x ++ c :: y) = r.longest x := by
  obtain ⟨d, x, rfl⟩ := List.exists_cons_of_ne_nil hx
  cases r with
  | lit w =>
    have : w <+: d :: x ++ c :: y ↔ w <+: d :: x := by
      refine ⟨fun h => ?_, fun h => h.trans (List.prefix_append _ _)⟩
      rcases List.prefix_or_prefix_of_prefix h (List.prefix_append (d :: x) (c :: y)) with h' | h'
      · exact h'
      · obtain ⟨z, rfl⟩ := h'
        rw [List.prefix_append_right_inj] at h
        cases z with
        | nil => simp
        | cons e z =>
          obtain ⟨rfl, -⟩ := List.cons_prefix_cons.1 h
          simp [Pattern.StopsAt] at hr
    simp only [Pattern.longest, this]
  | one p => rfl
  | many p => simp only [Pattern.longest, takeWhile_append_cons _ _ hr]
  | word p q =>
    simp only [Pattern.longest, List.cons_append, takeWhile_append_cons _ _ hr]

/-- A rule: what it matches, and what it does to the state and emits. -/
structure Rule (α S τ : Type) where
  pat : Pattern α
  act : S → List α → S × Option τ

/-- Longest match, and the first rule that has it. -/
def select : List (Rule α S τ) → List α → Option (ℕ × Rule α S τ)
  | [], _ => none
  | r :: rs, s =>
    match select rs s with
    | some (m, r') => if m ≤ r.pat.longest s then some (r.pat.longest s, r) else some (m, r')
    | none => if 0 < r.pat.longest s then some (r.pat.longest s, r) else none

theorem select_congr {rs : List (Rule α S τ)} {s t : List α}
    (h : ∀ r ∈ rs, r.pat.longest s = r.pat.longest t) : select rs s = select rs t := by
  induction rs with
  | nil => rfl
  | cons r rs ih =>
    simp only [List.forall_mem_cons] at h
    simp only [select, ih h.2, h.1]

/-- The selected length is positive, is that of a rule of the list, and no rule
of the list has a longer match. -/
theorem select_spec {rs : List (Rule α S τ)} {s : List α} {m : ℕ} {r : Rule α S τ}
    (h : select rs s = some (m, r)) :
    0 < m ∧ r ∈ rs ∧ m = r.pat.longest s ∧ ∀ r' ∈ rs, r'.pat.longest s ≤ m := by
  induction rs generalizing m r with
  | nil => simp [select] at h
  | cons a rs ih =>
    rw [select] at h
    cases hs : select rs s with
    | none =>
      have hz : ∀ r' ∈ rs, r'.pat.longest s = 0 := by
        clear ih h
        induction rs with
        | nil => simp
        | cons b rs ihb =>
          rw [select] at hs
          cases hb : select rs s with
          | some v => simp only [hb] at hs; split_ifs at hs
          | none =>
            simp only [hb] at hs
            split_ifs at hs with hp
            simp only [List.forall_mem_cons]
            exact ⟨by omega, ihb hb⟩
      simp only [hs] at h
      split_ifs at h with hp
      obtain ⟨rfl, rfl⟩ := Prod.mk.inj (Option.some.inj h)
      refine ⟨hp, by simp, rfl, ?_⟩
      simp only [List.forall_mem_cons]
      exact ⟨le_rfl, fun r' hr' => by rw [hz r' hr']; omega⟩
    | some v =>
      obtain ⟨m', r'⟩ := v
      obtain ⟨hp, hm, he, hmax⟩ := ih hs
      simp only [hs] at h
      split_ifs at h with hle
      · obtain ⟨rfl, rfl⟩ := Prod.mk.inj (Option.some.inj h)
        refine ⟨by omega, by simp, rfl, ?_⟩
        simp only [List.forall_mem_cons]
        exact ⟨le_rfl, fun r'' hr'' => (hmax r'' hr'').trans hle⟩
      · obtain ⟨rfl, rfl⟩ := Prod.mk.inj (Option.some.inj h)
        refine ⟨hp, by simp [hm], he, ?_⟩
        simp only [List.forall_mem_cons]
        exact ⟨by omega, hmax⟩

/-- A rule whose match ends within the text is selected without what follows. -/
theorem select_left {rs : List (Rule α S τ)} {s t : List α} {m : ℕ} {r : Rule α S τ}
    (h : select rs (s ++ t) = some (m, r)) (hm : m ≤ s.length) :
    select rs s = some (m, r) := by
  rw [← h]
  refine select_congr fun r' hr' => r'.pat.longest_left ?_
  exact ((select_spec h).2.2.2 r' hr').trans hm

/-- The match selected is a word of its rule, and no rule of the list matches more. -/
theorem select_longest {rs : List (Rule α S τ)} {s : List α} {m : ℕ} {r : Rule α S τ}
    (h : select rs s = some (m, r)) :
    r.pat.Matches (s.take m) ∧
      ∀ r' ∈ rs, ∀ u, u <+: s → r'.pat.Matches u → u.length ≤ m := by
  obtain ⟨hm, -, rfl, hmax⟩ := select_spec h
  refine ⟨r.pat.longest_matches s hm, ?_⟩
  intro r' hr' u hu hmatch
  exact (r'.pat.longest_max hu hmatch).trans (hmax r' hr')

/-- A rule that matches makes the selection succeed. -/
theorem select_isSome {rs : List (Rule α S τ)} {s : List α} {r : Rule α S τ} (hr : r ∈ rs)
    (h : 0 < r.pat.longest s) : (select rs s).isSome := by
  induction rs with
  | nil => simp at hr
  | cons a rs ih =>
    rw [select]
    rcases List.mem_cons.1 hr with rfl | hr
    · cases select rs s with
      | none => simp [h]
      | some v => simp only; split_ifs <;> rfl
    · obtain ⟨v, hv⟩ := Option.isSome_iff_exists.1 (ih hr)
      simp only [hv]
      split_ifs <;> rfl

/-- The rule selected is the first one with the longest match. -/
theorem select_eq {rs rs' : List (Rule α S τ)} {r : Rule α S τ} {s : List α} {m : ℕ}
    (h0 : 0 < m) (hm : r.pat.longest s = m) (hrs : ∀ r' ∈ rs, r'.pat.longest s < m)
    (hrs' : ∀ r' ∈ rs', r'.pat.longest s ≤ m) : select (rs ++ r :: rs') s = some (m, r) := by
  induction rs with
  | nil =>
    rw [List.nil_append, select]
    cases hs : select rs' s with
    | none => simp only [hm, h0, if_true]
    | some v =>
      obtain ⟨m', r'⟩ := v
      obtain ⟨-, hr', rfl, -⟩ := select_spec hs
      simp only [hm, hrs' r' hr', if_true]
  | cons a rs ih =>
    rw [List.forall_mem_cons] at hrs
    have ha : ¬ m ≤ a.pat.longest s := Nat.not_le.2 hrs.1
    rw [List.cons_append, select, ih hrs.2]
    simp only [ha, if_false]

/-- The scanning loop, for at most `n` matches. It stops where no rule matches. -/
def scanN (rules : S → List (Rule α S τ)) : ℕ → S → List α → List τ × S
  | 0, st, _ => ([], st)
  | _ + 1, st, [] => ([], st)
  | n + 1, st, c :: s =>
    match select (rules st) (c :: s) with
    | none => ([], st)
    | some (k, r) =>
      let out := r.act st ((c :: s).take k)
      let rest := scanN rules n out.1 ((c :: s).drop k)
      (out.2.toList ++ rest.1, rest.2)

/-- Every match is nonempty, so the length of the input bounds their number. -/
def scan (rules : S → List (Rule α S τ)) (st : S) (s : List α) : List τ × S :=
  scanN rules s.length st s

variable {rules : S → List (Rule α S τ)}

theorem scanN_of_le (n : ℕ) (st : S) (s : List α) (h : s.length ≤ n) :
    scanN rules n st s = scan rules st s := by
  induction n using Nat.strong_induction_on generalizing st s with
  | _ n ih =>
    cases s with
    | nil => cases n <;> rfl
    | cons c s =>
      obtain ⟨n, rfl⟩ : ∃ m, n = m + 1 := ⟨n - 1, by simp at h; omega⟩
      simp only [List.length_cons] at h
      rw [scan, List.length_cons, scanN, scanN]
      cases hs : select (rules st) (c :: s) with
      | none => rfl
      | some v =>
        obtain ⟨k, r⟩ := v
        have hk := (select_spec hs).1
        have hl : ((c :: s).drop k).length ≤ s.length := by simp; omega
        simp only
        rw [ih n (by omega) _ _ (by omega), ih s.length (by omega) _ _ hl]

@[simp] theorem scan_nil (st : S) : scan rules st [] = ([], st) := rfl

/-- One round of the loop. -/
theorem scan_step {st : S} {s : List α} {k : ℕ} {r : Rule α S τ}
    (h : select (rules st) s = some (k, r)) :
    scan rules st s =
      ((r.act st (s.take k)).2.toList ++ (scan rules (r.act st (s.take k)).1 (s.drop k)).1,
        (scan rules (r.act st (s.take k)).1 (s.drop k)).2) := by
  obtain ⟨hk, -, hm, -⟩ := select_spec h
  cases s with
  | nil => have := r.pat.longest_le []; simp at this; omega
  | cons c s =>
    rw [scan, List.length_cons, scanN, h]
    simp only
    rw [scanN_of_le _ _ _ (by simp; omega)]

/-- The loop comes from one place in a text to another and has given these tokens. -/
inductive Scans (rules : S → List (Rule α S τ)) : S → List α → List τ → S → List α → Prop
  | refl (st : S) (s : List α) : Scans rules st s [] st s
  | step {st st' : S} {s s' : List α} {k : ℕ} {r : Rule α S τ} {ts : List τ}
    (h : select (rules st) s = some (k, r))
    (hs : Scans rules (r.act st (s.take k)).1 (s.drop k) ts st' s') :
    Scans rules st s ((r.act st (s.take k)).2.toList ++ ts) st' s'

variable {st st' st'' : S} {s s' s'' : List α} {ts ts' : List τ}

/-- A match that gives no token. -/
theorem Scans.skip {k : ℕ} {r : Rule α S τ} (h : select (rules st) s = some (k, r))
    (hr : r.act st (s.take k) = (st', none)) (hs : Scans rules st' (s.drop k) ts st'' s'') :
    Scans rules st s ts st'' s'' := by
  have hs' : Scans rules (r.act st (s.take k)).1 (s.drop k) ts st'' s'' := by rwa [hr]
  have hstep := Scans.step h hs'
  rwa [hr] at hstep

theorem Scans.trans (h : Scans rules st s ts st' s') (h' : Scans rules st' s' ts' st'' s'') :
    Scans rules st s (ts ++ ts') st'' s'' := by
  induction h with
  | refl => exact h'
  | step h _ ih =>
    rw [List.append_assoc]
    exact .step h (ih h')

theorem Scans.length_le (h : Scans rules st s ts st' s') : s'.length ≤ s.length := by
  induction h with
  | refl => exact le_rfl
  | step _ _ ih =>
    refine ih.trans ?_
    rw [List.length_drop]
    exact Nat.sub_le ..

/-- The rest of the tokens are those of the rest of the text. -/
theorem Scans.scan_eq (h : Scans rules st s ts st' s') :
    scan rules st s = (ts ++ (scan rules st' s').1, (scan rules st' s').2) := by
  induction h with
  | refl => rfl
  | step h _ ih => rw [scan_step h, ih, List.append_assoc]

/-- Where a symbol stands that no match runs into, the loop gets there whatever follows. -/
theorem Scans.replace {c : α} {pre : List α} (h : Scans rules st s ts st' s')
    (hs : s = pre ++ s') (hc : ∀ st, ∀ r ∈ rules st, r.pat.StopsAt c) (t : List α) :
    Scans rules st (pre ++ c :: t) ts st' (c :: t) := by
  induction h generalizing pre with
  | refl st s =>
    obtain rfl : pre = [] := by simpa using hs
    exact .refl st _
  | @step st st' s s' k r ts h hrest ih =>
    subst hs
    obtain ⟨hpos, hr, hk, -⟩ := select_spec h
    have hlen : k ≤ pre.length := by
      have hle := hrest.length_le
      have hmax := r.pat.longest_le (pre ++ s')
      simp only [List.length_drop, List.length_append] at hle hmax
      omega
    have hne : pre ≠ [] := by
      rintro rfl
      simp only [List.length_nil] at hlen
      omega
    have hsel : select (rules st) (pre ++ c :: t) = some (k, r) := by
      rw [select_congr fun r' hr' => Pattern.longest_append t hne (hc st r' hr')]
      exact select_left h hlen
    have hdrop : (pre ++ s').drop k = pre.drop k ++ s' := List.drop_append_of_le_length hlen
    have htake : (pre ++ s').take k = (pre ++ c :: t).take k := by
      rw [List.take_append_of_le_length hlen, List.take_append_of_le_length hlen]
    have hrest' := ih hdrop
    rw [← List.drop_append_of_le_length hlen, htake] at hrest'
    rw [htake]
    exact .step hsel hrest'

/-- What holds of the tokens of every rule, for the words it matches, holds of all the
tokens. -/
theorem scan_forall {P : τ → Prop}
    (h : ∀ st, ∀ r ∈ rules st, ∀ u t, r.pat.Matches u → (r.act st u).2 = some t → P t)
    (st : S) (s : List α) :
    ∀ t ∈ (scan rules st s).1, P t := by
  suffices hn : ∀ n st s, ∀ t ∈ (scanN rules n st s).1, P t from hn _ _ _
  intro n
  induction n with
  | zero =>
    intro st s t ht
    simp [scanN] at ht
  | succ n ih =>
    intro st s t ht
    cases s with
    | nil => simp [scanN] at ht
    | cons c s =>
      rw [scanN] at ht
      cases hs : select (rules st) (c :: s) with
      | none => simp [hs] at ht
      | some v =>
        obtain ⟨k, r⟩ := v
        simp only [hs, List.mem_append, Option.mem_toList] at ht
        rcases ht with ht | ht
        · exact h st r (select_spec hs).2.1 _ t (select_longest hs).1 ht
        · exact ih _ _ t ht

/-- There is at most one token for each match. -/
theorem scan_length_le (st : S) (s : List α) : (scan rules st s).1.length ≤ s.length := by
  suffices hn : ∀ n st s, (scanN rules n st s).1.length ≤ n from hn _ _ _
  intro n
  induction n with
  | zero =>
    intro st s
    exact le_rfl
  | succ n ih =>
    intro st s
    cases s with
    | nil => exact Nat.zero_le _
    | cons c s =>
      rw [scanN]
      cases hs : select (rules st) (c :: s) with
      | none => exact Nat.zero_le _
      | some v =>
        obtain ⟨k, r⟩ := v
        have hrest := ih (r.act st ((c :: s).take k)).1 ((c :: s).drop k)
        have htoken : (r.act st ((c :: s).take k)).2.toList.length ≤ 1 := by
          cases (r.act st ((c :: s).take k)).2 <;> simp
        simp only [List.length_append]
        omega

end MaximalMunch
