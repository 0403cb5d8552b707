import Mathlib.Data.Nat.Digits.Lemmas
import Mathlib.Data.List.TakeWhile

/-! Reading unsigned integers the way `strtoull` of the C library does, for
integers of 64 bits and ASCII text. -/

namespace Numerals

def ULLONG_MAX : ℕ := 2 ^ 64 - 1

/-- Value of a byte as a digit: decimal digits, then letters of either case. -/
def digitVal (c : UInt8) : Option ℕ :=
  if 48 ≤ c ∧ c ≤ 57 then some (c.toNat - 48)
  else if 65 ≤ c ∧ c ≤ 90 then some (c.toNat - 55)
  else if 97 ≤ c ∧ c ≤ 122 then some (c.toNat - 87)
  else none

def isDigitIn (base : ℕ) (c : UInt8) : Bool :=
  match digitVal c with
  | some d => d < base
  | none => false

/-- The number written by a string of digits, without any bound. -/
def value (base : ℕ) (s : List UInt8) : ℕ :=
  s.foldl (fun acc c => acc * base + (digitVal c).getD 0) 0

/-- White space, in the C locale. -/
def isBlank (c : UInt8) : Bool := c == 32 || 9 ≤ c && c ≤ 13

/-- What a conversion returns: the value, whether it went out of range, and the
text from the first byte not used. -/
structure Conversion where
  value : ℕ
  overflow : Bool
  rest : List UInt8
  deriving DecidableEq

/-- Sign and the text after it. -/
def readSign : List UInt8 → Bool × List UInt8
  | [] => (false, [])
  | c :: s => if c = 45 then (true, s) else if c = 43 then (false, s) else (false, c :: s)

/-- The base that a numeral without sign is read in, and its text without the
prefix of a hexadecimal one. -/
def readBase (base : ℕ) : List UInt8 → ℕ × List UInt8
  | c :: x :: s =>
    if c = 48 then
      if (base = 0 ∨ base = 16) ∧ (x = 120 ∨ x = 88) then (16, s)
      else (if base = 0 then 8 else base, c :: x :: s)
    else (if base = 0 then 10 else base, c :: x :: s)
  | s => (if base = 0 then if s = [48] then 8 else 10 else base, s)

/-- `strtoull`: blanks, a sign, a prefix, digits. A value out of range becomes the
largest one, a sign negates modulo `2 ^ 64`, and a text without digits is not
used at all, except for the zero of a lone hexadecimal prefix. -/
def strtoull (base : ℕ) (s : List UInt8) : Conversion :=
  let t := s.dropWhile isBlank
  let sign := readSign t
  let num := readBase base sign.2
  let digits := num.2.takeWhile (isDigitIn num.1)
  if digits = [] then
    if num.2.length < sign.2.length then ⟨0, false, sign.2.tail⟩ else ⟨0, false, s⟩
  else
    let n := value num.1 digits
    let rest := num.2.dropWhile (isDigitIn num.1)
    if ULLONG_MAX < n then ⟨ULLONG_MAX, true, rest⟩
    else ⟨if sign.1 then (2 ^ 64 - n) % 2 ^ 64 else n, false, rest⟩

/-- The number that digits alone are written for. -/
def numeral (base : ℕ) (s : List UInt8) : Option ℕ :=
  if s ≠ [] ∧ s.all (isDigitIn base) = true then some (value base s) else none

/-- A C integer constant: hexadecimal behind `0x`, octal behind `0`, else decimal. -/
def constant : List UInt8 → Option ℕ
  | c :: x :: s =>
    if c = 48 then if x = 120 ∨ x = 88 then numeral 16 s else numeral 8 (x :: s)
    else numeral 10 (c :: x :: s)
  | s => numeral 10 s

/-- Hexadecimal digits, which may have `0x` in front. -/
def hexadecimal : List UInt8 → Option ℕ
  | c :: x :: s =>
    if c = 48 ∧ (x = 120 ∨ x = 88) then numeral 16 s else numeral 16 (c :: x :: s)
  | s => numeral 16 s

/-- The integer written by a number with a sign in front, or without one. -/
def signed (number : List UInt8 → Option ℕ) (s : List UInt8) : Option ℤ :=
  (number (readSign s).2).map fun n : ℕ => if (readSign s).1 then -(n : ℤ) else n

/-- A decimal numeral: digits, of which the first is zero in the numeral 0 only. -/
def IsDecimal (s : List UInt8) : Prop :=
  s = [48] ∨ (s ≠ [] ∧ s.head? ≠ some 48 ∧ ∀ c ∈ s, isDigitIn 10 c = true)

theorem isDigitIn_ten {c : UInt8} : isDigitIn 10 c = true ↔ 48 ≤ c ∧ c ≤ 57 := by
  unfold isDigitIn digitVal
  apply Iff.intro
  · intro h
    split_ifs at h with h1 h2 h3
    · exact h1
    all_goals
      simp only [UInt8.le_iff_toNat_le, UInt8.reduceToNat, decide_eq_true_eq] at *
      omega
  · intro h
    simp only [h, and_self, if_true, decide_eq_true_eq]
    simp only [UInt8.le_iff_toNat_le, UInt8.reduceToNat] at h
    omega

/-- No digit is a blank or a sign. -/
theorem digit_not_blank {base : ℕ} {c : UInt8} (h : isDigitIn base c = true) :
    isBlank c = false ∧ c ≠ 45 ∧ c ≠ 43 := by
  have hc : 48 ≤ c ∧ c ≤ 57 ∨ 65 ≤ c ∧ c ≤ 90 ∨ 97 ≤ c ∧ c ≤ 122 := by
    unfold isDigitIn digitVal at h
    split_ifs at h with h1 h2 h3
    · exact Or.inl h1
    · exact Or.inr (Or.inl h2)
    · exact Or.inr (Or.inr h3)
  simp only [isBlank, Bool.or_eq_false_iff, Bool.and_eq_false_iff, beq_eq_false_iff_ne,
    decide_eq_false_iff_not, UInt8.le_iff_toNat_le, ne_eq, ← UInt8.toNat_inj,
    UInt8.reduceToNat] at *
  omega

theorem numeral_eq_some {base n : ℕ} {s : List UInt8} :
    numeral base s = some n ↔
      s ≠ [] ∧ (∀ c ∈ s, isDigitIn base c = true) ∧ value base s = n := by
  unfold numeral
  split_ifs with h
  · rw [List.all_eq_true] at h
    exact ⟨fun hn => ⟨h.1, h.2, Option.some.inj hn⟩, fun hn => by rw [hn.2.2]⟩
  · rw [List.all_eq_true] at h
    simpa using fun h1 h2 => absurd ⟨h1, h2⟩ h

/-- A leading zero does not count. -/
theorem numeral_zero {base : ℕ} (hb : 0 < base) {s : List UInt8} (hs : s ≠ []) :
    numeral base (48 :: s) = numeral base s := by
  have hd : isDigitIn base 48 = true := by simpa [isDigitIn, digitVal] using hb
  have hv : value base (48 :: s) = value base s := by simp [value, digitVal]
  simp [numeral, hs, hd, hv]

/-- The text behind blanks and sign, in the base that it says. -/
def unsigned (base : ℕ) (t : List UInt8) : Option ℕ :=
  numeral (readBase base t).1 (readBase base t).2

theorem unsigned_zero (t : List UInt8) : unsigned 0 t = constant t := by
  match t with
  | [] => rfl
  | [c] =>
    by_cases hc : c = 48
    · subst hc
      decide
    · simp [unsigned, readBase, hc, constant]
  | c :: x :: s =>
    by_cases hc : c = 48
    · subst hc
      by_cases hx : x = 120 ∨ x = 88
      · simp [unsigned, readBase, hx, constant]
      · simp [unsigned, readBase, hx, constant, numeral_zero]
    · simp [unsigned, readBase, hc, constant]

theorem unsigned_sixteen (t : List UInt8) : unsigned 16 t = hexadecimal t := by
  match t with
  | [] => rfl
  | [c] => rfl
  | c :: x :: s =>
    by_cases hc : c = 48
    · subst hc
      by_cases hx : x = 120 ∨ x = 88
      · simp [unsigned, readBase, hx, hexadecimal]
      · simp [unsigned, readBase, hx, hexadecimal]
    · simp [unsigned, readBase, hc, hexadecimal]

/-- What is returned for a numeral that is read to its end. -/
def converted (negative : Bool) (n : ℕ) : Conversion :=
  if ULLONG_MAX < n then ⟨ULLONG_MAX, true, []⟩
  else ⟨if negative then (2 ^ 64 - n) % 2 ^ 64 else n, false, []⟩

@[simp] theorem converted_rest (negative : Bool) (n : ℕ) : (converted negative n).rest = [] := by
  unfold converted
  split_ifs <;> rfl

@[simp] theorem converted_value (n : ℕ) : (converted false n).value = min n ULLONG_MAX := by
  rw [converted]
  by_cases h : ULLONG_MAX < n
  · rw [if_pos h, min_eq_right h.le]
  · rw [if_neg h, min_eq_left (Nat.not_lt.1 h)]
    rfl

theorem strtoull_of_unsigned {base n : ℕ} {s : List UInt8}
    (h : unsigned base (readSign (s.dropWhile isBlank)).2 = some n) :
    strtoull base s = converted (readSign (s.dropWhile isBlank)).1 n := by
  obtain ⟨hne, hd, rfl⟩ := numeral_eq_some.1 h
  have htake := List.takeWhile_eq_self_iff.2 hd
  have hdrop := List.dropWhile_eq_nil_iff.2 hd
  simp only [strtoull, htake, hdrop, converted, if_neg hne]

/-- Any other text, unless there is none, is not read to its end. -/
theorem strtoull_rest {base : ℕ} {s : List UInt8} (hs : s ≠ [])
    (h : unsigned base (readSign (s.dropWhile isBlank)).2 = none) :
    (strtoull base s).rest ≠ [] := by
  have hpre : ∀ t : List UInt8, (readBase base t).2.length < t.length →
      2 ≤ t.length := by
    intro t ht
    match t with
    | [] => exact absurd ht (by simp [readBase])
    | [c] => exact absurd ht (by simp [readBase])
    | c :: x :: t => simp
  simp only [strtoull]
  generalize (readSign (s.dropWhile isBlank)).2 = t at h
  generalize (readSign (s.dropWhile isBlank)).1 = negative
  have hp := hpre t
  unfold unsigned at h
  generalize readBase base t = num at h hp
  split_ifs with h1 h2 h3
  · have hlen := hp h2
    intro hnil
    have := congrArg List.length hnil
    simp only [List.length_tail, List.length_nil] at this
    omega
  · exact hs
  all_goals
    intro hnil
    have hd := List.dropWhile_eq_nil_iff.1 hnil
    have hne : num.2 ≠ [] := by
      intro hnum
      rw [hnum] at h1
      exact h1 rfl
    rw [numeral_eq_some.2 ⟨hne, hd, rfl⟩] at h
    cases h

/-! Signed numbers. -/

theorem signed_eq_some {number : List UInt8 → Option ℕ} {s : List UInt8} {z : ℤ} :
    signed number s = some z ↔
      ∃ n, number (readSign s).2 = some n ∧ (if (readSign s).1 then -(n : ℤ) else n) = z := by
  rw [signed, Option.map_eq_some_iff]

theorem signed_eq_none {number : List UInt8 → Option ℕ} {s : List UInt8} :
    signed number s = none ↔ number (readSign s).2 = none := by
  rw [signed, Option.map_eq_none_iff]

/-- What an integer becomes: it wraps around, or is too large. -/
def wrapped (z : ℤ) : ℕ := if |z| < 2 ^ 64 then (z % 2 ^ 64).toNat else ULLONG_MAX

theorem wrapped_of_lt {z : ℤ} (h : |z| < 2 ^ 64) : (wrapped z : ℤ) = z % 2 ^ 64 := by
  rw [wrapped, if_pos h]
  omega

theorem wrapped_of_nonneg {z : ℤ} (h0 : 0 ≤ z) (h : z < 2 ^ 64) : (wrapped z : ℤ) = z := by
  rw [wrapped_of_lt (by rwa [abs_of_nonneg h0]), Int.emod_eq_of_lt h0 h]

theorem wrapped_of_le {z : ℤ} (h : 2 ^ 64 ≤ |z|) : wrapped z = ULLONG_MAX := by
  rw [wrapped, if_neg (not_lt.2 h)]

theorem converted_wrapped (negative : Bool) (n : ℕ) :
    (converted negative n).value = wrapped (if negative then -n else n) := by
  unfold converted
  split_ifs with hn hneg hneg
  · rw [wrapped_of_le (by rw [abs_neg, Nat.abs_cast]; unfold ULLONG_MAX at hn; omega)]
  · rw [wrapped_of_le (by rw [Nat.abs_cast]; unfold ULLONG_MAX at hn; omega)]
  · have := wrapped_of_lt (z := -n) (by rw [abs_neg, Nat.abs_cast]; unfold ULLONG_MAX at hn; omega)
    simp only [ULLONG_MAX] at *
    omega
  · have := wrapped_of_nonneg (z := n) (by omega) (by unfold ULLONG_MAX at hn; omega)
    exact (Int.natCast_inj.1 this).symm

theorem strtoull_of_signed {base : ℕ} {s : List UInt8} {z : ℤ}
    (h : signed (unsigned base) (s.dropWhile isBlank) = some z) :
    (strtoull base s).rest = [] ∧ (strtoull base s).value = wrapped z := by
  obtain ⟨n, hn, rfl⟩ := signed_eq_some.1 h
  rw [strtoull_of_unsigned hn]
  exact ⟨converted_rest _ _, converted_wrapped _ _⟩

theorem unsigned_not_blank {base n : ℕ} {c : UInt8} {t : List UInt8}
    (h : unsigned base (c :: t) = some n) : isBlank c = false := by
  by_cases hc : c = 48
  · subst hc
    rfl
  · have hbase : (readBase base (c :: t)).2 = c :: t := by
      cases t <;> simp [readBase, hc]
    rw [unsigned, hbase] at h
    exact (digit_not_blank ((numeral_eq_some.1 h).2.1 c (List.mem_cons_self ..))).1

/-- A signed number has no blanks in front. -/
theorem dropWhile_of_signed {base : ℕ} {s : List UInt8} {z : ℤ}
    (h : signed (unsigned base) s = some z) : s.dropWhile isBlank = s := by
  obtain ⟨n, hn, -⟩ := signed_eq_some.1 h
  cases s with
  | nil => rfl
  | cons c t =>
    have hc : isBlank c = false := by
      by_cases hminus : c = 45
      · subst hminus
        rfl
      by_cases hplus : c = 43
      · subst hplus
        rfl
      rw [show (readSign (c :: t)).2 = c :: t by simp [readSign, hminus, hplus]] at hn
      exact unsigned_not_blank hn
    rw [List.dropWhile_cons_of_neg (by simp [hc])]

/-- Without blanks and sign there is only the number. -/
theorem strtoull_digits {base base' n : ℕ} {c : UInt8} {t : List UInt8}
    (hc : isDigitIn base' c = true) (h : unsigned base (c :: t) = some n) :
    strtoull base (c :: t) = converted false n := by
  obtain ⟨hblank, hminus, hplus⟩ := digit_not_blank hc
  have hdrop : (c :: t).dropWhile isBlank = c :: t := by simp [hblank]
  have hsign : readSign (c :: t) = (false, c :: t) := by simp [readSign, hminus, hplus]
  have hn : unsigned base (readSign ((c :: t).dropWhile isBlank)).2 = some n := by
    rwa [hdrop, hsign]
  rw [strtoull_of_unsigned hn, hdrop, hsign]

/-- Base 0 and base 10 read decimal numerals alike: the number, up to the largest. -/
theorem strtoull_decimal {base : ℕ} (hb : base = 0 ∨ base = 10) {s : List UInt8}
    (hs : IsDecimal s) : strtoull base s = converted false (value 10 s) := by
  rcases hs with rfl | ⟨hne, h0, hd⟩
  · rcases hb with rfl | rfl <;> decide
  · obtain ⟨c, t, rfl⟩ := List.exists_cons_of_ne_nil hne
    have hc : c ≠ 48 := by simpa using h0
    refine strtoull_digits (hd c (List.mem_cons_self ..)) ?_
    have hbase : readBase base (c :: t) = (10, c :: t) := by
      rcases hb with rfl | rfl <;> cases t <;> simp [readBase, hc]
    rw [unsigned, hbase, numeral_eq_some]
    exact ⟨hne, hd, rfl⟩

/-- Hexadecimal digits in base 16, where `0x` is no digit. -/
theorem strtoull_hex {s : List UInt8} (hne : s ≠ [])
    (hd : ∀ c ∈ s, isDigitIn 16 c = true) (hv : value 16 s ≤ ULLONG_MAX) :
    strtoull 16 s = ⟨value 16 s, false, []⟩ := by
  obtain ⟨c, t, rfl⟩ := List.exists_cons_of_ne_nil hne
  have hbase : readBase 16 (c :: t) = (16, c :: t) := by
    cases t with
    | nil => simp [readBase]
    | cons x t =>
      have hx : x ≠ 120 ∧ x ≠ 88 := by
        have hx := hd x (by simp)
        constructor <;> (rintro rfl; revert hx; decide)
      simp [readBase, hx]
  have hn : unsigned 16 (c :: t) = some (value 16 (c :: t)) := by
    rw [unsigned, hbase, numeral_eq_some]
    exact ⟨hne, hd, rfl⟩
  rw [strtoull_digits (hd c (List.mem_cons_self ..)) hn, converted, if_neg (Nat.not_lt.2 hv)]
  rfl

/-! Printing. -/

def digit (d : ℕ) : UInt8 := UInt8.ofNat (if d < 10 then 48 + d else 87 + d)

theorem digitVal_digit {d : ℕ} (h : d < 36) : digitVal (digit d) = some d := by
  have hall : ∀ d < 36, digitVal (digit d) = some d := by decide
  exact hall d h

theorem isDigitIn_digit {base d : ℕ} (hb : base ≤ 36) (h : d < base) :
    isDigitIn base (digit d) = true := by
  simp [isDigitIn, digitVal_digit (h.trans_le hb), h]

theorem digit_eq_zero {d : ℕ} (h : d < 10) (h0 : digit d = 48) : d = 0 := by
  have hall : ∀ d < 10, digit d = 48 → d = 0 := by decide
  exact hall d h h0

theorem value_append (base : ℕ) (s : List UInt8) (c : UInt8) :
    value base (s ++ [c]) = value base s * base + (digitVal c).getD 0 := by
  simp [value]

/-- The `w` last digits of a number. -/
def fixedWidth (base : ℕ) : ℕ → ℕ → List UInt8
  | 0, _ => []
  | w + 1, n => fixedWidth base w (n / base) ++ [digit (n % base)]

theorem length_fixedWidth (base w n : ℕ) : (fixedWidth base w n).length = w := by
  induction w generalizing n with
  | zero => rfl
  | succ w ih => rw [fixedWidth, List.length_append, ih, List.length_singleton]

theorem isDigitIn_fixedWidth {base : ℕ} (h0 : 0 < base) (hb : base ≤ 36) (w n : ℕ) :
    ∀ c ∈ fixedWidth base w n, isDigitIn base c = true := by
  induction w generalizing n with
  | zero => simp [fixedWidth]
  | succ w ih =>
    rw [fixedWidth, List.forall_mem_append]
    refine ⟨ih _, ?_⟩
    simpa using isDigitIn_digit hb (Nat.mod_lt n h0)

theorem value_fixedWidth {base : ℕ} (h0 : 0 < base) (hb : base ≤ 36) (w n : ℕ) :
    value base (fixedWidth base w n) = n % base ^ w := by
  induction w generalizing n with
  | zero => simp [fixedWidth, value, Nat.mod_one]
  | succ w ih =>
    have hd := digitVal_digit ((Nat.mod_lt n h0).trans_le hb)
    rw [fixedWidth, value_append, ih, hd, Option.getD_some, Nat.pow_succ, Nat.mul_comm (base ^ w),
      Nat.mod_mul]
    ring

/-- Decimal notation without leading zeros. -/
def decimal (n : ℕ) : List UInt8 :=
  if n = 0 then [48] else (Nat.digits 10 n).reverse.map digit

theorem value_reverse_digits (l : List ℕ) (h : ∀ d ∈ l, d < 10) :
    value 10 (l.reverse.map digit) = Nat.ofDigits 10 l := by
  induction l with
  | nil => rfl
  | cons d l ih =>
    rw [List.forall_mem_cons] at h
    have hd := digitVal_digit (show d < 36 by omega)
    rw [List.reverse_cons, List.map_append, List.map_singleton, value_append, ih h.2, hd,
      Nat.ofDigits_cons, Option.getD_some]
    ring

theorem value_decimal (n : ℕ) : value 10 (decimal n) = n := by
  unfold decimal
  split_ifs with h
  · subst h
    decide
  · rw [value_reverse_digits _ fun d hd => Nat.digits_lt_base (by decide) hd, Nat.ofDigits_digits]

theorem isDecimal_decimal (n : ℕ) : IsDecimal (decimal n) := by
  unfold decimal
  split_ifs with h
  · exact Or.inl rfl
  · refine Or.inr ⟨?_, ?_, ?_⟩
    · simpa [Nat.digits_ne_nil_iff_ne_zero] using h
    · intro h0
      rw [List.head?_map, List.head?_reverse, Option.map_eq_some_iff] at h0
      obtain ⟨d, hd, h48⟩ := h0
      have hlt := Nat.digits_lt_base (by decide) (List.mem_of_getLast? hd)
      have hne : Nat.digits 10 n ≠ [] := Nat.digits_ne_nil_iff_ne_zero.2 h
      rw [List.getLast?_eq_some_getLast hne, Option.some_inj] at hd
      exact Nat.getLast_digit_ne_zero 10 h (hd.trans (digit_eq_zero hlt h48))
    · intro c hc
      obtain ⟨d, hd, rfl⟩ := List.mem_map.1 hc
      exact isDigitIn_digit (by decide) (Nat.digits_lt_base (by decide) (List.mem_reverse.1 hd))

end Numerals
