import DbusAccess.Spec.Grammar

/-! Runs of the scanner: how the tokens of a text follow from those of its parts. -/

namespace DbusAccess

open MaximalMunch

variable {s s' : ScanState} {c d : UInt8} {x y : CString}

/-- Outside of quotes. -/
def ScanState.Unquoted (s : ScanState) : Prop :=
  s.start = .INITIAL ∨ s.start = .BEFORE_ARGS ∨ s.start = .ARGS

theorem init_unquoted : ScanState.init.Unquoted := Or.inl rfl

theorem beforeArgs_unquoted : (⟨.BEFORE_ARGS, []⟩ : ScanState).Unquoted := Or.inr (Or.inl rfl)

theorem args_unquoted : (⟨.ARGS, []⟩ : ScanState).Unquoted := Or.inr (Or.inr rfl)

theorem forall_byte {p : UInt8 → Prop} (h : ∀ n < 256, p (UInt8.ofNat n)) (c : UInt8) : p c := by
  have := h c.toNat c.toNat_lt
  rwa [UInt8.ofNat_toNat] at this

/-- A byte that ends words, numbers and identifiers. -/
def Delimiter (c : UInt8) : Prop := isWord c = false ∧ c ≠ ch '"' ∧ c ≠ ch '\''

instance (c : UInt8) : Decidable (Delimiter c) := by unfold Delimiter; infer_instance

theorem word_classes : ∀ c : UInt8, isWord c = false → isDigit c = false ∧ isIdent c = false ∧
    isAlpha c = false :=
  forall_byte (by decide +kernel)

theorem space_delimiter : ∀ c : UInt8, isSpace c = true → Delimiter c :=
  forall_byte (by decide +kernel)

/-- Only a run of blanks goes on after a delimiter. -/
theorem allRules_stopsAt (hc : Delimiter c) :
    ∀ r ∈ allRules, r.2.pat.StopsAt c ∨ (r.2.pat = .many isSpace ∧
      r.1 = [.INITIAL, .BEFORE_ARGS, .ARGS]) := by
  obtain ⟨hw, hq, hs⟩ := hc
  obtain ⟨hd, hi, -⟩ := word_classes c hw
  have hlit : ∀ w : CString, w.tail.all isWord = true → c ∉ w.tail := by
    intro w hall hmem
    rw [List.all_eq_true.1 hall c hmem] at hw
    cases hw
  simp only [allRules, List.forall_mem_cons, Pattern.StopsAt]
  refine ⟨.inl (hlit _ rfl), .inl (hlit _ rfl), .inl ?_, .inl ?_, .inl (hlit _ rfl), .inl trivial,
    .inl (hlit _ rfl), .inl (hlit _ rfl), .inl (hlit _ rfl), .inl (hlit _ rfl),
    .inl (hlit _ (by decide)), .inl (hlit _ (by decide)), .inl (hlit _ (by decide)),
    .inl (hlit _ (by decide)), .inl hd, .inl hw, .inl hi, .inr ⟨trivial, trivial⟩, .inl trivial,
    by simp⟩
  · simpa [str] using hq
  · simpa [str] using hs

/-! The rules of a state. -/

def blankRule : ScanRule := ⟨.many isSpace, fun s _ => (s, none)⟩

def charRule : ScanRule := ⟨.one notNewline, returnChar id⟩

/-- Nothing with a blank in front matches. -/
def Solid (r : ScanRule) : Prop := ∀ c x, isSpace c = true → r.pat.longest (c :: x) = 0

theorem solid_lit {a : UInt8} {w : CString} {f} (ha : isSpace a = false) :
    Solid ⟨.lit (a :: w), f⟩ := by
  intro c x hc
  simp only [Pattern.longest, List.cons_prefix_cons]
  rw [if_neg]
  intro h
  rw [h.1, hc] at ha
  cases ha

theorem solid_many {p : UInt8 → Bool} {f} (hp : ∀ c, isWord c = false → p c = false) :
    Solid ⟨.many p, f⟩ := by
  intro c x hc
  simp [Pattern.longest, hp c (space_delimiter c hc).1]

theorem solid_word {p q : UInt8 → Bool} {f} (hp : ∀ c, isWord c = false → p c = false) :
    Solid ⟨.word p q, f⟩ := by
  intro c x hc
  simp [Pattern.longest, hp c (space_delimiter c hc).1]

/-- Outside of quotes the last two rules are for blanks and for single bytes. -/
theorem scanRules_unquoted (h : s.Unquoted) :
    ∃ rs, scanRules s = rs ++ [blankRule, charRule] ∧ ∀ r ∈ rs, Solid r := by
  obtain ⟨start, buf⟩ := s
  rcases h with rfl | rfl | rfl
  · refine ⟨(scanRules ⟨.INITIAL, buf⟩).take 6, rfl, ?_⟩
    refine List.forall_mem_cons.2 ⟨solid_lit rfl, List.forall_mem_cons.2 ⟨solid_lit rfl,
      List.forall_mem_cons.2 ⟨solid_lit rfl, List.forall_mem_cons.2 ⟨solid_lit rfl,
      List.forall_mem_cons.2 ⟨solid_many fun c hc => (word_classes c hc).1,
      List.forall_mem_cons.2 ⟨solid_word fun c hc => (word_classes c hc).2.2, by simp⟩⟩⟩⟩⟩⟩
  · refine ⟨(scanRules ⟨.BEFORE_ARGS, buf⟩).take 1, rfl, ?_⟩
    exact List.forall_mem_cons.2 ⟨solid_lit rfl, by simp⟩
  · refine ⟨(scanRules ⟨.ARGS, buf⟩).take 5, rfl, ?_⟩
    refine List.forall_mem_cons.2 ⟨solid_lit rfl, List.forall_mem_cons.2 ⟨solid_lit rfl,
      List.forall_mem_cons.2 ⟨solid_lit rfl,
      List.forall_mem_cons.2 ⟨solid_many fun c hc => (word_classes c hc).1,
      List.forall_mem_cons.2 ⟨solid_many fun c hc => hc, by simp⟩⟩⟩⟩⟩

/-- No text stops the scanner. -/
theorem scanRules_isSome (s : ScanState) (c : UInt8) (x : CString) :
    (select (scanRules s) (c :: x)).isSome := by
  by_cases hc : c = ch '\n'
  · have hr : ∃ r ∈ scanRules s, 0 < r.pat.longest (c :: x) := by
      subst hc
      by_cases hs : s.Unquoted
      · obtain ⟨rs, hrs, -⟩ := scanRules_unquoted hs
        exact ⟨blankRule, by simp [hrs], by simp [blankRule, Pattern.longest, isSpace, ch]⟩
      · obtain ⟨start, buf⟩ := s
        refine ⟨⟨.lit (str "\n"), appendText⟩, ?_, by simp [Pattern.longest, str]⟩
        cases start <;> simp [ScanState.Unquoted, scanRules, allRules] at hs ⊢
    obtain ⟨r, hr, hl⟩ := hr
    exact select_isSome hr hl
  · have hr : ∃ r ∈ scanRules s, 0 < r.pat.longest (c :: x) := by
      have hn : notNewline c = true := by simpa [notNewline] using hc
      by_cases hs : s.Unquoted
      · obtain ⟨rs, hrs, -⟩ := scanRules_unquoted hs
        exact ⟨charRule, by simp [hrs], by simp [charRule, Pattern.longest, hn]⟩
      · obtain ⟨start, buf⟩ := s
        refine ⟨⟨.one notNewline, appendText⟩, ?_, by simp [Pattern.longest, hn]⟩
        cases start <;> simp [ScanState.Unquoted, scanRules, allRules] at hs ⊢
    obtain ⟨r, hr, hl⟩ := hr
    exact select_isSome hr hl

private theorem drop_takeWhile (p : UInt8 → Bool) (x : CString) :
    x.drop (x.takeWhile p).length = x.dropWhile p := by
  have h : (x.takeWhile p ++ x.dropWhile p).drop (x.takeWhile p).length = x.dropWhile p :=
    List.drop_left
  rwa [List.takeWhile_append_dropWhile] at h

theorem scan_dropWhile (h : s.Unquoted) (hc : isSpace c = true) :
    scan scanRules s (c :: x) = scan scanRules s (x.dropWhile isSpace) := by
  obtain ⟨rs, hrs, hsolid⟩ := scanRules_unquoted h
  have hpos : 0 < ((c :: x).takeWhile isSpace).length := by simp [hc]
  have hsel : select (scanRules s) (c :: x) =
      some (((c :: x).takeWhile isSpace).length, blankRule) := by
    rw [hrs]
    refine select_eq hpos rfl ?_ ?_
    · intro r hr
      rw [hsolid r hr c x hc]
      exact hpos
    · intro r hr
      rw [List.mem_singleton.1 hr]
      have : charRule.pat.longest (c :: x) ≤ 1 := by
        simp only [charRule, Pattern.longest]
        split_ifs <;> omega
      omega
  rw [scan_step hsel, drop_takeWhile, List.dropWhile_cons_of_pos hc]
  rfl

/-- Blanks between tokens do not count. -/
theorem scan_space (h : s.Unquoted) (hc : isSpace c = true) :
    scan scanRules s (c :: x) = scan scanRules s x := by
  rw [scan_dropWhile h hc]
  cases x with
  | nil => rfl
  | cons d x =>
    by_cases hd : isSpace d = true
    · rw [scan_dropWhile h hd, List.dropWhile_cons_of_pos hd]
    · rw [List.dropWhile_cons_of_neg hd]

theorem scan_blanks (hs : s.Unquoted) {bl : CString} (hbl : bl.all isSpace = true)
    (y : CString) : scan scanRules s (bl ++ y) = scan scanRules s y := by
  induction bl with
  | nil => rfl
  | cons c bl ih =>
    simp only [List.all_cons, Bool.and_eq_true] at hbl
    rw [List.cons_append, scan_space hs hbl.1, ih hbl.2]

/-- Blanks have no tokens. -/
theorem scan_blank (hs : s.Unquoted) {bl : CString} (hbl : bl.all isSpace = true) :
    scan scanRules s bl = ([], s) := by
  have h := scan_blanks hs hbl []
  rwa [List.append_nil] at h

/-- The rule selected does not depend on what follows a delimiter. -/
theorem select_append (hc : Delimiter c) (hd : ¬ (s.Unquoted ∧ isSpace d = true)) :
    select (scanRules s) (d :: x ++ c :: y) = select (scanRules s) (d :: x) := by
  refine select_congr fun r hr => ?_
  obtain ⟨r', hr', rfl⟩ := List.mem_map.1 hr
  obtain ⟨hmem, hstart⟩ := List.mem_filter.1 hr'
  rcases allRules_stopsAt hc r' hmem with h | ⟨h, h'⟩
  · exact Pattern.longest_append y (by simp) h
  · rw [h'] at hstart
    simp only [List.mem_cons, List.not_mem_nil, or_false, decide_eq_true_eq] at hstart
    have hs : s.Unquoted := hstart
    have hd : isSpace d = false := by
      by_contra hn
      exact hd ⟨hs, by simpa using hn⟩
    simp [h, Pattern.longest, hd]

/-- The scanner goes on after a delimiter from the state it got to. Induction on
the length of what comes before. -/
theorem scan_append (hc : Delimiter c) (n : ℕ) : ∀ (s : ScanState) (x y : CString),
    x.length ≤ n → scan scanRules s (x ++ c :: y) =
      ((scan scanRules s x).1 ++ (scan scanRules (scan scanRules s x).2 (c :: y)).1,
        (scan scanRules (scan scanRules s x).2 (c :: y)).2) := by
  induction n with
  | zero =>
    intro s x y hn
    obtain rfl := List.length_eq_zero_iff.1 (Nat.le_zero.1 hn)
    rfl
  | succ n ih =>
    intro s x y hn
    cases x with
    | nil => rfl
    | cons d x =>
      simp only [List.length_cons] at hn
      by_cases hb : s.Unquoted ∧ isSpace d = true
      · rw [List.cons_append, scan_space hb.1 hb.2, scan_space hb.1 hb.2]
        exact ih s x y (by omega)
      · obtain ⟨⟨k, r⟩, hsel⟩ := Option.isSome_iff_exists.1 (scanRules_isSome s d x)
        have hk : k ≤ (d :: x).length := by
          rw [(select_spec hsel).2.2.1]
          exact Pattern.longest_le _ _
        have hpos := (select_spec hsel).1
        have hsel' := (select_append (y := y) hc hb).trans hsel
        have hlen : ((d :: x).drop k).length ≤ n := by
          simp only [List.length_drop, List.length_cons]
          omega
        rw [scan_step hsel', scan_step hsel, List.take_append_of_le_length hk,
          List.drop_append_of_le_length hk, ih _ _ y hlen, List.append_assoc]

/-! What the tokens tell about the start condition. -/

/-- The start condition after a token, where quotes are part of the arguments. -/
def nextPhase : StartCondition → Token → StartCondition
  | .INITIAL, .USER => .BEFORE_ARGS
  | .INITIAL, .GROUP => .BEFORE_ARGS
  | .INITIAL, .ID _ => .BEFORE_ARGS
  | .BEFORE_ARGS, .char c => if c = ch '(' then .ARGS else .BEFORE_ARGS
  | .ARGS, .char c => if c = ch ')' then .INITIAL else .ARGS
  | p, _ => p

def ScanState.phase (s : ScanState) : StartCondition :=
  match s.start with
  | .INITIAL => .INITIAL
  | .BEFORE_ARGS => .BEFORE_ARGS
  | _ => .ARGS

/-- The string buffer is in use between quotes only. -/
def ScanState.Tidy (s : ScanState) : Prop := s.Unquoted → s.buf = []

/-- An action keeps to the phases. -/
def KeepsPhase (s : ScanState) (out : ScanState × Option Token) : Prop :=
  out.1.Tidy ∧ out.1.phase = out.2.toList.foldl nextPhase s.phase

theorem number_phase (p : StartCondition) (u : CString) : nextPhase p (number u) = p := by
  simp only [number]
  split_ifs <;> cases p <;> rfl

theorem wordToken_phase (p : StartCondition) (u : CString) : nextPhase p (wordToken u) = p := by
  unfold wordToken
  split_ifs <;> cases p <;> rfl

theorem select_openParen (buf : CString) (x : CString) :
    select (scanRules ⟨.BEFORE_ARGS, buf⟩) (ch '(' :: x) =
      some (1, ⟨.lit (str "("), returnChar (BEGIN .ARGS)⟩) := by
  rw [show scanRules ⟨.BEFORE_ARGS, buf⟩ = [] ++ ⟨.lit (str "("), returnChar (BEGIN .ARGS)⟩ ::
    [blankRule, charRule] from rfl]
  refine select_eq Nat.one_pos ?_ ?_ ?_
  · simp [Pattern.longest, str]
  · simp
  · simp [Pattern.longest, blankRule, charRule, isSpace, ch, notNewline]

theorem select_closeParen (buf : CString) (x : CString) :
    select (scanRules ⟨.ARGS, buf⟩) (ch ')' :: x) =
      some (1, ⟨.lit (str ")"), returnChar (BEGIN .INITIAL)⟩) := by
  rw [show scanRules ⟨.ARGS, buf⟩ = (scanRules ⟨.ARGS, buf⟩).take 2 ++
    ⟨.lit (str ")"), returnChar (BEGIN .INITIAL)⟩ :: (scanRules ⟨.ARGS, buf⟩).drop 3 from rfl]
  refine select_eq Nat.one_pos ?_ ?_ ?_
  · simp [Pattern.longest, str]
  · simp [scanRules, allRules, Pattern.longest, str, ch]
  · simp [scanRules, allRules, Pattern.longest, isSpace, isDigit, isWord, isAlnum, isAlpha, ch,
      notNewline]

/-- The rules of a round in state `s`, by start condition; the rule for single
bytes is not applied to a parenthesis that another rule is for. -/
theorem round_phase {k : ℕ} {r : ScanRule} (hs : s.Tidy)
    (h : select (scanRules s) (c :: x) = some (k, r)) :
    KeepsPhase s (r.act s ((c :: x).take k)) := by
  obtain ⟨hk, hr, hm, -⟩ := select_spec h
  obtain ⟨start, buf⟩ := s
  obtain ⟨k, rfl⟩ : ∃ j, k = j + 1 := ⟨k - 1, by omega⟩
  cases start with
  | INITIAL =>
    have hb : buf = [] := hs (Or.inl rfl)
    subst hb
    simp only [scanRules, allRules] at hr
    simp at hr
    rcases hr with rfl | rfl | rfl | rfl | rfl | rfl | rfl | rfl <;>
      refine ⟨fun _ => rfl, ?_⟩
    case inr.inr.inr.inr.inl => exact (number_phase _ _).symm
    all_goals rfl
  | BEFORE_ARGS =>
    have hb : buf = [] := hs (Or.inr (Or.inl rfl))
    subst hb
    by_cases hc : c = ch '('
    · subst hc
      rw [select_openParen] at h
      obtain ⟨hk1, rfl⟩ := Prod.mk.inj (Option.some.inj h)
      exact ⟨fun _ => rfl, rfl⟩
    · simp only [scanRules, allRules] at hr
      simp at hr
      rcases hr with rfl | rfl | rfl
      · simp [Pattern.longest, str, Ne.symm hc] at hm
      · exact ⟨fun _ => rfl, rfl⟩
      · exact ⟨fun _ => rfl, (if_neg hc).symm⟩
  | ARGS =>
    have hb : buf = [] := hs (Or.inr (Or.inr rfl))
    subst hb
    by_cases hc : c = ch ')'
    · subst hc
      rw [select_closeParen] at h
      obtain ⟨hk1, rfl⟩ := Prod.mk.inj (Option.some.inj h)
      exact ⟨fun _ => rfl, rfl⟩
    · simp only [scanRules, allRules] at hr
      simp at hr
      rcases hr with rfl | rfl | rfl | rfl | rfl | rfl | rfl
      · exact ⟨fun _ => rfl, rfl⟩
      · exact ⟨fun _ => rfl, rfl⟩
      · simp [Pattern.longest, str, Ne.symm hc] at hm
      · exact ⟨fun _ => rfl, (number_phase _ _).symm⟩
      · exact ⟨fun _ => rfl, (wordToken_phase _ _).symm⟩
      · exact ⟨fun _ => rfl, rfl⟩
      · exact ⟨fun _ => rfl, (if_neg hc).symm⟩
  | SQUOTE =>
    have hquoted : ∀ buf', (ScanState.mk .SQUOTE buf').Tidy := by
      intro buf' hu
      rcases hu with hu | hu | hu <;> cases hu
    simp only [scanRules, allRules] at hr
    simp at hr
    rcases hr with rfl | rfl | rfl | rfl
    · exact ⟨fun _ => rfl, rfl⟩
    all_goals exact ⟨hquoted _, rfl⟩
  | QUOTE =>
    have hquoted : ∀ buf', (ScanState.mk .QUOTE buf').Tidy := by
      intro buf' hu
      rcases hu with hu | hu | hu <;> cases hu
    simp only [scanRules, allRules] at hr
    simp at hr
    rcases hr with rfl | rfl | rfl | rfl
    · exact ⟨fun _ => rfl, rfl⟩
    all_goals exact ⟨hquoted _, rfl⟩

/-- Induction on the rounds of the scanner. -/
theorem scan_phase (n : ℕ) : ∀ (s : ScanState) (x : CString), x.length ≤ n → s.Tidy →
    (scan scanRules s x).2.Tidy ∧
      (scan scanRules s x).2.phase = (scan scanRules s x).1.foldl nextPhase s.phase := by
  induction n with
  | zero =>
    intro s x hn hs
    obtain rfl := List.length_eq_zero_iff.1 (Nat.le_zero.1 hn)
    exact ⟨hs, rfl⟩
  | succ n ih =>
    intro s x hn hs
    cases x with
    | nil => exact ⟨hs, rfl⟩
    | cons c x =>
      obtain ⟨⟨k, r⟩, hsel⟩ := Option.isSome_iff_exists.1 (scanRules_isSome s c x)
      have hpos := (select_spec hsel).1
      have hlen : ((c :: x).drop k).length ≤ n := by
        simp only [List.length_drop, List.length_cons] at hn ⊢
        omega
      obtain ⟨htidy, hphase⟩ := round_phase hs hsel
      obtain ⟨htidy', hphase'⟩ := ih _ _ hlen htidy
      rw [scan_step hsel]
      refine ⟨htidy', ?_⟩
      rw [hphase', hphase, List.foldl_append]

/-! Texts outside of arguments. -/

/-- A byte that starts nothing longer there. -/
theorem scan_char (hd : isDigit c = false) (ha : isAlpha c = false) (hsp : isSpace c = false)
    (x : CString) :
    scan scanRules .init (c :: x) =
      (.char c :: (scan scanRules .init x).1, (scan scanRules .init x).2) := by
  have hlit : ∀ (a : UInt8) (w : CString), isAlpha a = true → ¬ a :: w <+: c :: x := by
    intro a w halpha h
    rw [(List.cons_prefix_cons.1 h).1, ha] at halpha
    cases halpha
  have hn : notNewline c = true := by
    by_contra hn
    rw [show c = ch '\n' by simpa [notNewline] using hn] at hsp
    cases hsp
  have hsel : select (scanRules .init) (c :: x) = some (1, charRule) := by
    rw [show scanRules .init = (scanRules .init).take 7 ++ charRule :: [] from rfl]
    refine select_eq Nat.one_pos (by simp [charRule, Pattern.longest, hn]) ?_ (by simp)
    simp only [scanRules, allRules]
    have hu := fun s => hlit (ch 'u') s rfl
    have hg := fun s => hlit (ch 'g') s rfl
    have hallow := fun s => hlit (ch 'a') s rfl
    have hdeny := fun s => hlit (ch 'd') s rfl
    simp [ScanState.init, Pattern.longest, hd, ha, hsp, str, hu, hg, hallow, hdeny]
  rw [scan_step hsel]
  rfl

/-- A byte that is a token of its own there. -/
def Punctuation (c : UInt8) : Prop := isWord c = false ∧ isSpace c = false ∧ Delimiter c

instance (c : UInt8) : Decidable (Punctuation c) := by unfold Punctuation; infer_instance

theorem scan_punctuation (hc : Punctuation c) (x : CString) :
    scan scanRules .init (c :: x) =
      (.char c :: (scan scanRules .init x).1, (scan scanRules .init x).2) := by
  obtain ⟨hw, hsp, -⟩ := hc
  obtain ⟨hd, -, ha⟩ := word_classes c hw
  exact scan_char hd ha hsp x

/-- The scanner is where it started after the text. -/
def Closed (x : CString) : Prop := (scan scanRules .init x).2 = .init

theorem Closed.scan_append (hx : Closed x) (hc : Delimiter c) (y : CString) :
    scan scanRules .init (x ++ c :: y) =
      (scanAll x ++ (scan scanRules .init (c :: y)).1, (scan scanRules .init (c :: y)).2) := by
  have h := DbusAccess.scan_append hc x.length .init x y le_rfl
  rw [show (scan scanRules .init x).2 = .init from hx] at h
  exact h

theorem closed_of_phase (h : (scanAll x).foldl nextPhase .INITIAL = .INITIAL) : Closed x := by
  obtain ⟨htidy, hphase⟩ := scan_phase x.length .init x le_rfl fun _ => rfl
  have hinit : (scan scanRules .init x).2.phase = .INITIAL := hphase.trans h
  unfold Closed
  generalize (scan scanRules .init x).2 = s at htidy hinit
  obtain ⟨start, buf⟩ := s
  cases start
  case INITIAL =>
    rw [show buf = [] from htidy (Or.inl rfl)]
    rfl
  all_goals cases hinit

/-- A text that goes on behind a closed one, with blanks around a mark. -/
theorem Closed.mark (hx : Closed x) (hc : Punctuation c) (y : CString) :
    scan scanRules .init (x ++ ch ' ' :: c :: ch ' ' :: y) =
      (scanAll x ++ .char c :: (scan scanRules .init y).1, (scan scanRules .init y).2) := by
  rw [hx.scan_append (by decide), scan_space init_unquoted (by decide), scan_punctuation hc,
    scan_space init_unquoted (by decide)]

/-! Texts of expressions. -/

theorem DerivesTerm.phase {us : List Token} {t : TermSyntax} (h : DerivesTerm us t) :
    us.foldl nextPhase .INITIAL = .INITIAL := by
  cases h with
  | user hu => cases hu <;> rfl
  | userGroup hu hg => cases hu <;> cases hg <;> rfl
  | group hg => cases hg <;> rfl
  | action => rfl
  | actionParam _ hx => cases hx <;> rfl

theorem DerivesExpr.phase {l : Level} {us : List Token} {z : ExprSyntax}
    (h : DerivesExpr l us z) : us.foldl nextPhase .INITIAL = .INITIAL := by
  induction h with
  | term ht => exact ht.phase
  | paren _ ih =>
    rw [List.cons_append, List.foldl_cons, List.foldl_append]
    exact congrArg (nextPhase · tRparen) ih
  | prim _ ih => exact ih
  | not _ ih => exact ih
  | or _ _ ihx ihy =>
    rw [List.foldl_append, ihx]
    exact ihy
  | and _ _ ihx ihy =>
    rw [List.foldl_append, ihx]
    exact ihy

/-- The text of an expression is closed. -/
theorem DerivesExpr.closed {l : Level} {z : ExprSyntax} (h : DerivesExpr l (scanAll x) z) :
    Closed x :=
  closed_of_phase h.phase

/-! Texts of policies. -/

theorem DerivesAccess.phase {us : List Token} {a : DAAccess} (h : DerivesAccess us a) :
    us.foldl nextPhase .INITIAL = .INITIAL := by
  cases h <;> rfl

theorem DerivesEntry.phase {us : List Token} {e : EntrySyntax} (h : DerivesEntry us e) :
    us.foldl nextPhase .INITIAL = .INITIAL := by
  cases h with
  | wildcard ha => exact ha.phase
  | expr hx => exact hx.phase
  | access hx ha =>
    rw [List.foldl_append, hx.phase]
    exact ha.phase

theorem DerivesMore.phase {us : List Token} {es : List EntrySyntax} (h : DerivesMore us es) :
    us.foldl nextPhase .INITIAL = .INITIAL := by
  induction h with
  | none => rfl
  | final => rfl
  | entry he _ ih =>
    rw [List.cons_append, List.foldl_cons, List.foldl_append]
    exact (congrArg (List.foldl nextPhase · _) he.phase).trans ih

theorem DerivesPolicy.phase {us : List Token} {p : PolicySyntax} (h : DerivesPolicy us p) :
    us.foldl nextPhase .INITIAL = .INITIAL := by
  cases h with
  | version n => rfl
  | versionEntries n he hm =>
    rw [List.cons_append, List.foldl_cons, List.foldl_append]
    exact (congrArg (List.foldl nextPhase · _) he.phase).trans hm.phase
  | entries he hm =>
    rw [List.foldl_append, he.phase]
    exact hm.phase

/-- Policies leave the scanner where it started. -/
theorem DerivesPolicy.closed {p : PolicySyntax} (h : DerivesPolicy (scanAll x) p) : Closed x :=
  closed_of_phase h.phase

/-! Single bytes among the tokens of a policy. -/

/-- A token that is one of these bytes, or no single byte at all. -/
def Token.CharIn (cs : List UInt8) : Token → Prop
  | .char c => c ∈ cs
  | _ => True

def exprChars : List UInt8 := [ch '(', ch ')', ch ':', ch '!', ch '|', ch '&']

def entryChars : List UInt8 := ch '*' :: ch '=' :: exprChars

def policyChars : List UInt8 := ch ';' :: entryChars

theorem exprChars_subset : exprChars ⊆ entryChars ∧ entryChars ⊆ policyChars :=
  ⟨by simp [entryChars], List.subset_cons_self ..⟩

theorem Token.CharIn.mono {cs cs' : List UInt8} {t : Token} (h : t.CharIn cs) (hcs : cs ⊆ cs') :
    t.CharIn cs' := by
  cases t with
  | char c => exact hcs h
  | _ => trivial

theorem DerivesTerm.chars {us : List Token} {s : TermSyntax} (h : DerivesTerm us s) :
    ∀ t ∈ us, t.CharIn exprChars := by
  cases h with
  | user hu => cases hu <;> simp [Token.CharIn, exprChars]
  | userGroup hu hg => cases hu <;> cases hg <;> simp [Token.CharIn, exprChars]
  | group hg => cases hg <;> simp [Token.CharIn, exprChars]
  | action => simp [Token.CharIn, exprChars]
  | actionParam _ hx => cases hx <;> simp [Token.CharIn, exprChars]

theorem DerivesExpr.chars {l : Level} {us : List Token} {z : ExprSyntax}
    (h : DerivesExpr l us z) : ∀ t ∈ us, t.CharIn exprChars := by
  have hch : ∀ c ∈ exprChars, (Token.char c).CharIn exprChars := fun c hc => hc
  induction h with
  | term ht => exact ht.chars
  | paren _ ih =>
    simp only [List.cons_append, List.forall_mem_cons, List.forall_mem_append]
    exact ⟨hch _ (by decide), ih, hch _ (by decide), by simp⟩
  | prim _ ih => exact ih
  | not _ ih => exact List.forall_mem_cons.2 ⟨hch _ (by decide), ih⟩
  | or _ _ ihx ihy =>
    exact List.forall_mem_append.2 ⟨ihx, List.forall_mem_cons.2 ⟨hch _ (by decide), ihy⟩⟩
  | and _ _ ihx ihy =>
    exact List.forall_mem_append.2 ⟨ihx, List.forall_mem_cons.2 ⟨hch _ (by decide), ihy⟩⟩

theorem DerivesEntry.chars {us : List Token} {e : EntrySyntax} (h : DerivesEntry us e) :
    ∀ t ∈ us, t.CharIn entryChars := by
  have hx : ∀ {us z}, DerivesExpr .E us z → ∀ t ∈ us, t.CharIn entryChars :=
    fun hx t ht => (hx.chars t ht).mono exprChars_subset.1
  cases h with
  | wildcard ha => cases ha <;> simp [Token.CharIn, entryChars]
  | expr h => exact hx h
  | access h ha =>
    refine List.forall_mem_append.2 ⟨hx h, ?_⟩
    cases ha <;> simp [Token.CharIn, entryChars]

theorem DerivesMore.chars {us : List Token} {es : List EntrySyntax} (h : DerivesMore us es) :
    ∀ t ∈ us, t.CharIn policyChars := by
  have hsemi : tSemicolon.CharIn policyChars := List.mem_cons_self ..
  induction h with
  | none => simp
  | final => exact List.forall_mem_cons.2 ⟨hsemi, by simp⟩
  | entry he _ ih =>
    refine List.forall_mem_cons.2 ⟨hsemi, List.forall_mem_append.2 ⟨fun t ht => ?_, ih⟩⟩
    exact (he.chars t ht).mono exprChars_subset.2

theorem DerivesPolicy.chars {us : List Token} {p : PolicySyntax} (h : DerivesPolicy us p) :
    ∀ t ∈ us, t.CharIn policyChars := by
  cases h with
  | version n => simp [Token.CharIn]
  | versionEntries n he hm =>
    exact List.forall_mem_cons.2 ⟨trivial, (DerivesMore.entry he hm).chars⟩
  | entries he hm =>
    refine List.forall_mem_append.2 ⟨fun t ht => ?_, hm.chars⟩
    exact (he.chars t ht).mono exprChars_subset.2

/-! The parser gets to see all the tokens of a policy. -/

theorem Token.CharIn.no_end {t : Token} (h : t.CharIn policyChars) (host : Host) :
    isEndOfInput host t = false := by
  cases t with
  | char c =>
    have hc : ∀ c ∈ policyChars, ¬ 128 ≤ c := by decide +kernel
    simp [isEndOfInput, hc c h]
  | _ => rfl

theorem DerivesExpr.no_end {l : Level} {us : List Token} {z : ExprSyntax}
    (h : DerivesExpr l us z) (host : Host) : ∀ t ∈ us, isEndOfInput host t = false :=
  fun t ht => (((h.chars t ht).mono exprChars_subset.1).mono exprChars_subset.2).no_end host

theorem DerivesPolicy.no_end {us : List Token} {p : PolicySyntax} (h : DerivesPolicy us p)
    (host : Host) : ∀ t ∈ us, isEndOfInput host t = false :=
  fun t ht => (h.chars t ht).no_end host

theorem not_endsEarly {host : Host} :
    ¬ EndsEarly host x ↔ ∀ t ∈ scanAll x, isEndOfInput host t = false := by
  simp only [EndsEarly, not_exists, not_and, Bool.not_eq_true]

theorem tokens_eq_scanAll {host : Host} (h : ∀ t ∈ scanAll x, isEndOfInput host t = false) :
    tokens host x = scanAll x := by
  unfold tokens
  rw [List.takeWhile_eq_self_iff]
  intro t ht
  rw [h t ht]
  rfl

end DbusAccess
