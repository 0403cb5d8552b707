import DbusAccess.Proofs.PolicyTexts

/-! Which version numbers a policy can have in front. -/

namespace DbusAccess

open MaximalMunch Numerals

variable {host : Host} {actions : Option (List DAAction)} {x d : CString} {us : List Token}
  {pol : PolicySyntax} {n : ℕ}

/-! A number in front. -/

theorem digit_not_keyword : ∀ c : UInt8, isDigit c = true →
    c ≠ ch 'u' ∧ c ≠ ch 'g' ∧ c ≠ ch 'a' ∧ c ≠ ch 'd' :=
  forall_byte (by decide +kernel)

theorem scan_digits_init (hne : d ≠ []) (hd : ∀ c ∈ d, isDigit c = true) :
    scan scanRules .init d = ([number d], .init) := by
  have hlong : (Pattern.many isDigit).longest d = d.length := by
    rw [Pattern.longest, List.takeWhile_eq_self_iff.2 hd]
  have hsel : select (scanRules .init) d =
      some (d.length, ⟨.many isDigit, fun s yytext => (s, some (number yytext))⟩) := by
    rw [show scanRules .init = (scanRules .init).take 4 ++
      ⟨.many isDigit, fun s yytext => (s, some (number yytext))⟩ ::
        (scanRules .init).drop 5 from rfl]
    refine select_eq (List.length_pos_iff.2 hne) hlong ?_ fun r _ => Pattern.longest_le _ _
    obtain ⟨c, t, rfl⟩ := List.exists_cons_of_ne_nil hne
    obtain ⟨h1, h2, h3, h4⟩ := digit_not_keyword c (hd c (List.mem_cons_self ..))
    simp [ScanState.init, scanRules, allRules, Pattern.longest, str, h1.symm, h2.symm, h3.symm,
      h4.symm]
  rw [scan_step hsel]
  simp

/-- A constant that does not fit becomes the largest number, and is then cut down to the
width of an `int`. -/
theorem number_constant (hne : d ≠ []) (hd : ∀ c ∈ d, isDigit c = true) :
    number d = match constant d with
      | some n => .NUMBER (toInt (min n ULLONG_MAX))
      | none => .ERROR := by
  obtain ⟨c, t, rfl⟩ := List.exists_cons_of_ne_nil hne
  have hc : isDigitIn 10 c = true := by
    rw [isDigitIn_eq_isDigit]
    exact hd c (List.mem_cons_self ..)
  obtain ⟨hblank, hminus, hplus⟩ := digit_not_blank hc
  have hdrop : (c :: t).dropWhile isBlank = c :: t := by simp [hblank]
  have hsign : (readSign (c :: t)).2 = c :: t := by simp [readSign, hminus, hplus]
  cases hn : constant (c :: t) with
  | some n =>
    rw [← unsigned_zero] at hn
    simp only [number, strtoull_digits hc hn, converted_rest, converted_value, if_true]
  | none =>
    rw [← unsigned_zero] at hn
    have hrest : (strtoull 0 (c :: t)).rest ≠ [] := strtoull_rest hne (by rwa [hdrop, hsign])
    simp only [number, if_neg hrest]

theorem number_no_end (host : Host) (d : CString) : isEndOfInput host (number d) = false := by
  simp only [number]
  split_ifs <;> rfl

/-- The number is the first token. -/
theorem tokens_digits (host : Host) (hne : d ≠ []) (hd : ∀ c ∈ d, isDigit c = true) :
    tokens host d = [number d] ∧
      ∀ t, tokens host (d ++ ch ';' :: t) = number d :: tSemicolon :: tokens host t := by
  have hscan := scan_digits_init hne hd
  have hall : scanAll d = [number d] := by rw [scanAll, hscan]
  have hclosed : Closed d := by rw [Closed, hscan]
  have hend := number_no_end host d
  refine ⟨?_, fun t => ?_⟩
  · rw [tokens, hall, List.takeWhile_cons_of_pos (by simp [hend]), List.takeWhile_nil]
  · rw [tokens, scanAll_semicolon hclosed, hall, List.singleton_append,
      List.takeWhile_cons_of_pos (by simp [hend]),
      List.takeWhile_cons_of_pos (by simp [isEndOfInput, ch])]
    rfl

/-! Policies with a number in front. -/

theorem DerivesPolicy.version_eq {v : ℤ} (h : DerivesPolicy (.NUMBER v :: us) pol) :
    pol.version = some v := by
  generalize hts : Token.NUMBER v :: us = ts at h
  cases h with
  | version n => rw [Token.NUMBER.inj (List.cons.inj hts).1]
  | versionEntries n he hm => rw [Token.NUMBER.inj (List.cons.inj hts).1]
  | @entries ts e us' es he hm =>
    have hl := he.look_mem us'
    rw [← hts] at hl
    exact absurd (show Terminal.NUMBER ∈ entryFirst from hl) (by decide)

theorem DerivesPolicy.not_error (h : DerivesPolicy (.ERROR :: us) pol) : False := by
  generalize hts : Token.ERROR :: us = ts at h
  cases h with
  | version n => cases hts
  | versionEntries n he hm => cases hts
  | @entries ts e us' es he hm =>
    have hl := he.look_mem us'
    rw [← hts] at hl
    exact absurd (show Terminal.ERROR ∈ entryFirst from hl) (by decide)

/-- A constant that is read as the version 1. -/
def ReadAsOne (n : ℕ) : Prop := n < 2 ^ 64 ∧ n % 2 ^ 32 = 1

instance (n : ℕ) : Decidable (ReadAsOne n) := inferInstanceAs (Decidable (_ ∧ _))

theorem toInt_eq_one : toInt n = 1 ↔ n % 2 ^ 32 = 1 := by
  have hlow := toInt_lower n
  have hup := toInt_upper n
  have hmod := toInt_emod n
  omega

theorem toInt_min_eq_one : toInt (min n ULLONG_MAX) = FORMAT_VERSION ↔ ReadAsOne n := by
  rw [FORMAT_VERSION, toInt_eq_one, ReadAsOne, ULLONG_MAX]
  omega

/-- Any other number makes the parser give up. -/
theorem compile_number_none (hne : d ≠ []) (hd : ∀ c ∈ d, isDigit c = true)
    (hn : ∀ n, constant d = some n → ¬ ReadAsOne n) (hx : tokens host x = number d :: us) :
    daParserCompile host (some x) actions = none := by
  refine daParserCompile_of_not_derives fun h => ?_
  obtain ⟨pol, hd', hv⟩ := h
  rw [hx, number_constant hne hd] at hd'
  cases hc : constant d with
  | none =>
    rw [hc] at hd'
    exact hd'.not_error
  | some n =>
    rw [hc] at hd'
    have hversion := hv.version _ hd'.version_eq
    exact hn n hc (toInt_min_eq_one.1 hversion)

theorem compile_one (hne : d ≠ []) (hd : ∀ c ∈ d, isDigit c = true) (hc : constant d = some n)
    (hn : ReadAsOne n) : daParserCompile host (some d) actions = some ⟨actions, []⟩ := by
  have htok := (tokens_digits host hne hd).1
  rw [number_constant hne hd, hc] at htok
  have hderives : DerivesPolicy (tokens host d) ⟨some (toInt (min n ULLONG_MAX)), []⟩ := by
    rw [htok]
    exact .version _
  refine daParserCompile_of_derives hderives ⟨fun m hm => ?_, by simp⟩
  rw [← Option.some.inj hm]
  exact toInt_min_eq_one.2 hn

/-- A number in front makes a text no policy, exactly when it does not become 1 as an
`int`. -/
theorem version_rejected_iff {σ : Type} (g : GPattern σ) (host : Host) (d : CString)
    (hne : d ≠ []) (hd : ∀ c ∈ d, isDigit c = true) :
    (∀ actions, daPolicyNewFull g host (some d) actions = none ∧
      ∀ t, daPolicyNewFull g host (some (d ++ ch ';' :: t)) actions = none) ↔
    ∀ n, constant d = some n → ¬ (n < 2 ^ 64 ∧ n % 2 ^ 32 = 1) := by
  obtain ⟨htok, htok'⟩ := tokens_digits host hne hd
  apply Iff.intro
  · intro h n hc hn
    have hnone := (h none).1
    rw [daPolicyNewFull, compile_one hne hd hc hn] at hnone
    cases hnone
  · intro h actions
    refine ⟨?_, fun t => ?_⟩
    · rw [daPolicyNewFull, compile_number_none hne hd h htok]
    · rw [daPolicyNewFull, compile_number_none hne hd h (htok' t)]

theorem version_rejected_iff_octal :
    (∀ actions, daPolicyNewFull globPattern exampleHost (some (str "017")) actions = none ∧
      ∀ t, daPolicyNewFull globPattern exampleHost (some (str "017" ++ ch ';' :: t)) actions =
        none) ↔
    ∀ n, constant (str "017") = some n → ¬ (n < 2 ^ 64 ∧ n % 2 ^ 32 = 1) :=
  version_rejected_iff globPattern exampleHost (str "017") (by decide) (by decide +kernel)

/-- Version 4294967297 is accepted for 1. -/
theorem version_accepted :
    constant (str "4294967297") = some 4294967297 ∧
      daPolicyNewFull globPattern exampleHost (some (str "4294967297")) none = some ⟨[]⟩ := by
  decide +kernel

end DbusAccess
