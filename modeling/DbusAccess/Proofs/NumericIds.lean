import DbusAccess.Proofs.PolicyDecision
import DbusAccess.Proofs.ScannerRuns

/-! Numeric ids in policies: where a rule of the text is found in the result, how
a numeral is read, and for which numerals the rule is about the id written. -/

namespace DbusAccess

open MaximalMunch Numerals

variable {host : Host} {actions : Option (List DAAction)} {x y pre post : CString}
  {us ve rs ts1 ts2 : List Token}

/-! The entries between semicolons. -/

theorem DerivesEntry.no_semicolon {e : EntrySyntax} (h : DerivesEntry us e) :
    tSemicolon ∉ us := by
  intro hmem
  exact absurd (show ch ';' ∈ entryChars from h.chars _ hmem) (by decide)

theorem EntryEnds.eq (h : EntryEnds us) : us = [] ∨ ∃ ts, us = tSemicolon :: ts := by
  cases us with
  | nil => exact Or.inl rfl
  | cons t ts =>
    rcases h with h | h
    · exact absurd h t.terminal_ne_eoi
    · have ht : t = tSemicolon := Token.of_terminal_eq (a := .semicolon) h
      exact Or.inr ⟨ts, by rw [ht]⟩

private theorem takeWhile_segment (hus : tSemicolon ∉ us) (hve : EntryEnds ve) :
    (us ++ ve).takeWhile (· ≠ tSemicolon) = us := by
  rw [List.takeWhile_append_of_pos]
  · rcases hve.eq with rfl | ⟨ts, rfl⟩ <;> simp
  · intro t ht
    rw [decide_eq_true_eq]
    rintro rfl
    exact hus ht

/-- Both sides of the first semicolon. -/
theorem eq_of_semicolon {us' ve' : List Token} (h : us ++ ve = us' ++ ve')
    (hus : tSemicolon ∉ us) (hus' : tSemicolon ∉ us') (hve : EntryEnds ve)
    (hve' : EntryEnds ve') : us = us' := by
  rw [← takeWhile_segment hus hve, h, takeWhile_segment hus' hve']

/-- Induction on the derivation: what stands between two semicolons is an entry, and
its position is the number of semicolons before it. -/
theorem DerivesMore.segment {es : List EntrySyntax} (h : DerivesMore us es)
    (hus : us = ts1 ++ rs ++ ts2) (hts1 : ∃ q, ts1 = q ++ [tSemicolon]) (hrs : rs ≠ [])
    (hsemi : tSemicolon ∉ rs) (hts2 : EntryEnds ts2) :
    ∃ e, es[ts1.count tSemicolon - 1]? = some e ∧ DerivesEntry rs e := by
  obtain ⟨q, rfl⟩ := hts1
  induction h generalizing q with
  | none => simp at hus
  | final =>
    have hlen := congrArg List.length hus
    have hpos := List.length_pos_iff.2 hrs
    simp only [List.length_append, List.length_singleton] at hlen
    omega
  | @entry ts e us es he hm ih =>
    cases q with
    | nil =>
      simp only [List.nil_append, List.cons_append, List.cons.injEq, true_and] at hus
      obtain rfl := eq_of_semicolon hus he.no_semicolon hsemi hm.entryEnds hts2
      exact ⟨e, rfl, he⟩
    | cons t q =>
      simp only [List.cons_append, List.append_assoc, List.cons.injEq] at hus
      obtain ⟨rfl, hus⟩ := hus
      -- the entry ends before the last semicolon of `ts1`
      obtain ⟨q', rfl, hus'⟩ : ∃ q', q = ts ++ q' ∧ us = q' ++ [tSemicolon] ++ rs ++ ts2 := by
        rcases List.append_eq_append_iff.1 hus with ⟨a, ha, hus'⟩ | ⟨a, ha, hus'⟩
        · exact ⟨a, ha, by simpa using hus'⟩
        · cases a with
          | nil =>
            rw [List.append_nil] at ha
            exact ⟨[], by rw [ha, List.append_nil], by simpa using hus'.symm⟩
          | cons t a =>
            have ht : t = tSemicolon := by simpa using (List.cons.inj hus').1.symm
            rw [ht] at ha
            exact absurd (ha ▸ List.mem_append_right q (List.mem_cons_self ..)) he.no_semicolon
      obtain ⟨e', he', hd⟩ := ih q' hus'
      refine ⟨e', ?_, hd⟩
      have hcount : ts.count tSemicolon = 0 := List.count_eq_zero.2 he.no_semicolon
      simp only [List.cons_append, List.count_cons_self, List.count_append, hcount] at he' ⊢
      rw [← he', List.count_nil, show 0 + q'.count tSemicolon + (0 + 1) + 1 - 1 =
        q'.count tSemicolon + (0 + 1) - 1 + 1 by omega, List.getElem?_cons_succ]

/-- The position of the entry that starts behind these tokens; the semicolon after a
version does not count. -/
def entryIndex : List Token → ℕ
  | .NUMBER _ :: ts => ts.count tSemicolon - 1
  | ts => ts.count tSemicolon

theorem entryIndex_of_look (h : look us ≠ .NUMBER) : entryIndex us = us.count tSemicolon := by
  unfold entryIndex
  split
  · exact absurd rfl h
  · rfl

theorem DerivesPolicy.segment {pol : PolicySyntax} (h : DerivesPolicy us pol)
    (hus : us = ts1 ++ rs ++ ts2) (hts1 : ts1 = [] ∨ ∃ q, ts1 = q ++ [tSemicolon])
    (hrs : look rs ∈ entryFirst) (hsemi : tSemicolon ∉ rs) (hts2 : EntryEnds ts2) :
    ∃ e, pol.entries[entryIndex ts1]? = some e ∧ DerivesEntry rs e := by
  obtain ⟨t, rs, rfl⟩ : ∃ t rs', rs = t :: rs' := by
    cases rs with
    | nil => exact absurd hrs (by decide)
    | cons t rs => exact ⟨t, rs, rfl⟩
  have ht : ∀ n, t ≠ .NUMBER n := by
    rintro n rfl
    exact absurd (show Terminal.NUMBER ∈ entryFirst from hrs) (by decide)
  cases h with
  | version n =>
    rcases hts1 with rfl | ⟨q, rfl⟩
    · exact absurd (List.cons.inj hus).1.symm (ht n)
    · have hlen := congrArg List.length hus
      simp only [List.length_append, List.length_cons, List.length_nil] at hlen
      omega
  | @versionEntries n ts e us es he hm =>
    rcases hts1 with rfl | ⟨q, rfl⟩
    · exact absurd (List.cons.inj hus).1.symm (ht n)
    cases q with
    | nil => cases (List.cons.inj hus).1
    | cons t' q =>
      simp only [List.cons_append, List.cons.injEq] at hus
      obtain ⟨rfl, hus⟩ := hus
      have hd : DerivesMore (tSemicolon :: ts ++ us) (e :: es) := .entry he hm
      have heq : tSemicolon :: ts ++ us = q ++ [tSemicolon] ++ t :: rs ++ ts2 := by simpa using hus
      exact hd.segment heq ⟨q, rfl⟩ (by simp) hsemi hts2
  | @entries ts e us es he hm =>
    have hd : DerivesMore (tSemicolon :: ts ++ us) (e :: es) := .entry he hm
    have hlast : ∃ q, tSemicolon :: ts1 = q ++ [tSemicolon] := by
      rcases hts1 with rfl | ⟨q, rfl⟩
      · exact ⟨[], rfl⟩
      · exact ⟨tSemicolon :: q, rfl⟩
    have hlook : look ts1 ≠ .NUMBER := by
      cases ts1 with
      | nil => exact nofun
      | cons t1 ts1 =>
        have hl := he.look_mem us
        rw [hus] at hl
        intro hn
        exact absurd (hn ▸ hl : Terminal.NUMBER ∈ entryFirst) (by decide)
    have heq : tSemicolon :: ts ++ us = tSemicolon :: ts1 ++ t :: rs ++ ts2 := by
      simp only [List.cons_append, hus]
    have h := hd.segment heq hlast (by simp) hsemi hts2
    rw [List.count_cons_self, Nat.add_sub_cancel] at h
    rw [entryIndex_of_look hlook]
    exact h

/-! Rules in a text. -/

/-- What can stand before a rule: nothing or a text that ends with a semicolon, in
which the input does not end, and blanks. -/
inductive BeforeRule (host : Host) : CString → Prop
  | first {bl} (hbl : bl.all isSpace = true) : BeforeRule host bl
  | next {x bl} (hx : Closed x) (hend : ∀ t ∈ scanAll x, isEndOfInput host t = false)
    (hbl : bl.all isSpace = true) : BeforeRule host (x ++ ch ';' :: bl)

/-- What can stand behind the expression of a rule: the end, a semicolon, or an
equality sign, after blanks. -/
inductive AfterRule : CString → Prop
  | last {bl} (hbl : bl.all isSpace = true) : AfterRule bl
  | next {bl c y} (hbl : bl.all isSpace = true) (hc : c = ch ';' ∨ c = ch '=') :
    AfterRule (bl ++ c :: y)

theorem BeforeRule.scan (h : BeforeRule host pre) (y : CString) :
    (scan scanRules .init (pre ++ y)).1 = scanAll pre ++ scanAll y := by
  cases h with
  | first hbl =>
    rw [scan_blanks init_unquoted hbl]
    unfold scanAll
    rw [scan_blank init_unquoted hbl]
    rfl
  | next hx _ hbl =>
    unfold scanAll
    rw [List.append_assoc, List.cons_append, hx.scan_append (by decide),
      scan_punctuation (by decide), scan_blanks init_unquoted hbl, hx.scan_append (by decide),
      scan_punctuation (by decide), scan_blank init_unquoted hbl]
    simp

theorem BeforeRule.tokens (h : BeforeRule host pre) :
    (∀ t ∈ scanAll pre, isEndOfInput host t = false) ∧
      (scanAll pre = [] ∨ ∃ q, scanAll pre = q ++ [tSemicolon]) := by
  cases h with
  | first hbl =>
    have h : scanAll pre = [] := by
      unfold scanAll
      rw [scan_blank init_unquoted hbl]
    rw [h]
    exact ⟨by simp, Or.inl rfl⟩
  | @next x bl hx hend hbl =>
    have h : scanAll (x ++ ch ';' :: bl) = scanAll x ++ [tSemicolon] := by
      unfold scanAll
      rw [hx.scan_append (by decide), scan_punctuation (by decide), scan_blank init_unquoted hbl]
      rfl
    rw [h]
    refine ⟨List.forall_mem_append.2 ⟨hend, ?_⟩, Or.inr ⟨_, rfl⟩⟩
    simp [isEndOfInput, ch]

/-- The tokens behind a rule start with its access or end it. -/
theorem AfterRule.scan (h : AfterRule post) (hx : Closed x) :
    ∃ ts, scanAll (x ++ post) = scanAll x ++ ts ∧ (EntryEnds ts ∨ look ts = .equal) := by
  cases h with
  | last hbl =>
    cases post with
    | nil => exact ⟨[], by simp, Or.inl (Or.inl rfl)⟩
    | cons c bl =>
      simp only [List.all_cons, Bool.and_eq_true] at hbl
      refine ⟨[], ?_, Or.inl (Or.inl rfl)⟩
      unfold scanAll
      rw [hx.scan_append (space_delimiter c hbl.1), scan_space init_unquoted hbl.1,
        scan_blank init_unquoted hbl.2]
      rfl
  | @next bl c y hbl hc =>
    have hp : Punctuation c := by rcases hc with rfl | rfl <;> decide
    have hl : EntryEnds (.char c :: scanAll y) ∨ look (.char c :: scanAll y) = .equal := by
      rcases hc with rfl | rfl
      · exact Or.inl (Or.inr rfl)
      · exact Or.inr rfl
    refine ⟨.char c :: scanAll y, ?_, hl⟩
    unfold scanAll
    cases bl with
    | nil => rw [List.nil_append, hx.scan_append hp.2.2, scan_punctuation hp]; rfl
    | cons b bl =>
      simp only [List.all_cons, Bool.and_eq_true] at hbl
      rw [List.cons_append, hx.scan_append (space_delimiter b hbl.1),
        scan_space init_unquoted hbl.1, scan_blanks init_unquoted hbl.2, scan_punctuation hp]
      rfl

theorem DerivesEntry.expr_eq {e : EntrySyntax} {z : ExprSyntax} (h : DerivesEntry (us ++ ve) e)
    (hz : DerivesExpr .E us z) (hve : Stops ve) : ∃ a, e = .expr z a := by
  generalize hts : us ++ ve = ts at h
  cases h with
  | wildcard => exact (hz.not_star hts).elim
  | expr hz' =>
    have hts' : us ++ ve = ts ++ [] := by rw [hts, List.append_nil]
    obtain ⟨-, rfl, -⟩ := hz.unique hz' hts' fun _ => ⟨hve, nofun, nofun⟩
    exact ⟨none, rfl⟩
  | @access ts z' us' a hz' ha =>
    have hq : Stops (tEqual :: us') := stops_cons (by decide)
    obtain ⟨-, rfl, -⟩ := hz.unique hz' hts fun _ => ⟨hve, hq⟩
    exact ⟨some a, rfl⟩

/-- The tokens up to the first semicolon. -/
theorem split_semicolon (h : EntryEnds us ∨ look us = .equal) :
    ∃ seg ts, us = seg ++ ts ∧ tSemicolon ∉ seg ∧ EntryEnds ts ∧ Stops seg := by
  refine ⟨us.takeWhile (· ≠ tSemicolon), us.dropWhile (· ≠ tSemicolon),
    List.takeWhile_append_dropWhile.symm, ?_, ?_, ?_⟩
  · intro hmem
    have := List.mem_takeWhile_imp hmem
    simp at this
  · cases hd : us.dropWhile (· ≠ tSemicolon) with
    | nil => exact Or.inl rfl
    | cons t ts =>
      have ht := List.head?_dropWhile_not (· ≠ tSemicolon) us
      rw [hd] at ht
      have ht : t = tSemicolon := by simpa using ht
      rw [ht]
      exact Or.inr rfl
  · rcases h with h | h
    · rcases h.eq with rfl | ⟨ts, rfl⟩
      · exact ⟨nofun, nofun⟩
      · rw [List.takeWhile_cons_of_neg (by simp)]
        exact ⟨nofun, nofun⟩
    · cases us with
      | nil => exact ⟨nofun, nofun⟩
      | cons t ts =>
        obtain rfl : t = tEqual := Token.of_terminal_eq h
        rw [List.takeWhile_cons_of_pos (by simp [ch])]
        exact stops_cons (by decide)

/-- A rule of one term is the entry at its place in the result. -/
theorem rule_in_result (hpre : BeforeRule host pre) (hpost : AfterRule post) {t : TermSyntax}
    (ht : DerivesTerm (scanAll x) t) {parser : DAParser}
    (hc : daParserCompile host (some (pre ++ x ++ post)) actions = some parser) :
    ∃ e, (daParserGetResult parser)[entryIndex (scanAll pre)]? = some e ∧
      e.expr = t.tree host actions := by
  obtain ⟨pol, hd, -, rfl⟩ := daParserCompile_eq_some.1 hc
  have hz : DerivesExpr .E (scanAll x) (.term t) := .prim (.term ht)
  obtain ⟨hend, hts1⟩ := hpre.tokens
  obtain ⟨ts, hts, hlook⟩ := hpost.scan hz.closed
  -- the tokens of the text are those of its parts
  have htokens : tokens host (pre ++ x ++ post) =
      scanAll pre ++ scanAll x ++ ts.takeWhile (!isEndOfInput host ·) := by
    have hall : scanAll (pre ++ x ++ post) = scanAll pre ++ (scanAll x ++ ts) := by
      rw [← hts, ← hpre.scan, ← List.append_assoc]
      rfl
    unfold tokens
    rw [hall, List.takeWhile_append_of_pos, List.takeWhile_append_of_pos, List.append_assoc]
    · intro t ht
      rw [hz.no_end host t ht]
      rfl
    · intro t ht
      rw [hend t ht]
      rfl
  generalize hts' : ts.takeWhile (!isEndOfInput host ·) = ts' at htokens
  have hlook' : EntryEnds ts' ∨ look ts' = .equal := by
    subst hts'
    cases ts with
    | nil => exact Or.inl (Or.inl rfl)
    | cons t ts =>
      by_cases he : isEndOfInput host t = true
      · rw [List.takeWhile_cons_of_neg (by simp [he])]
        exact Or.inl (Or.inl rfl)
      · rw [List.takeWhile_cons_of_pos (by simpa using he)]
        exact hlook
  obtain ⟨seg, ts2, rfl, hseg, hts2, hstops⟩ := split_semicolon hlook'
  have heq : tokens host (pre ++ x ++ post) = scanAll pre ++ (scanAll x ++ seg) ++ ts2 := by
    rw [htokens]
    simp only [List.append_assoc]
  have hrs : look (scanAll x ++ seg) ∈ entryFirst := List.mem_cons_of_mem _ (hz.look_mem seg).1
  have hsemi : tSemicolon ∉ scanAll x ++ seg := by
    rw [List.mem_append, not_or]
    exact ⟨(DerivesEntry.expr hz).no_semicolon, hseg⟩
  obtain ⟨e, he, hde⟩ := hd.segment heq hts1 hrs hsemi hts2
  obtain ⟨a, rfl⟩ := hde.expr_eq hz hstops
  refine ⟨(EntrySyntax.expr (.term t) a).entry host actions, ?_, rfl⟩
  simp only [daParserGetResult, PolicySyntax.result, List.getElem?_map, he, Option.map_some]

/-! Numerals as arguments. -/

theorem isDigitIn_eq_isDigit (c : UInt8) : isDigitIn 10 c = isDigit c := by
  rw [Bool.eq_iff_iff, isDigitIn_ten]
  simp [isDigit, ch]

theorem isDecimal_digits {n : CString} (h : IsDecimal n) :
    n ≠ [] ∧ ∀ c ∈ n, isDigit c = true := by
  rcases h with rfl | ⟨hne, -, hd⟩
  · exact ⟨by simp, by simp [isDigit, ch]⟩
  · exact ⟨hne, fun c hc => isDigitIn_eq_isDigit c ▸ hd c hc⟩

theorem digit_classes : ∀ c : UInt8, isDigit c = true →
    c ≠ ch '\'' ∧ c ≠ ch '"' ∧ c ≠ ch ')' :=
  forall_byte (by decide +kernel)

/-- Among arguments, digits are a number and not a word. -/
theorem scan_digits {n : CString} (hne : n ≠ []) (hd : ∀ c ∈ n, isDigit c = true) :
    scan scanRules ⟨.ARGS, []⟩ n = ([number n], ⟨.ARGS, []⟩) := by
  have hlong : (Pattern.many isDigit).longest n = n.length := by
    rw [Pattern.longest, List.takeWhile_eq_self_iff.2 hd]
  have hpos : 0 < n.length := List.length_pos_iff.2 hne
  have hsel : select (scanRules ⟨.ARGS, []⟩) n =
      some (n.length, ⟨.many isDigit, fun s yytext => (s, some (number yytext))⟩) := by
    rw [show scanRules ⟨.ARGS, []⟩ = (scanRules ⟨.ARGS, []⟩).take 3 ++
      ⟨.many isDigit, fun s yytext => (s, some (number yytext))⟩ ::
        (scanRules ⟨.ARGS, []⟩).drop 4 from rfl]
    refine select_eq hpos hlong ?_ fun r _ => Pattern.longest_le _ _
    obtain ⟨c, t, rfl⟩ := List.exists_cons_of_ne_nil hne
    obtain ⟨h1, h2, h3⟩ := digit_classes c (hd c (List.mem_cons_self ..))
    simp [scanRules, allRules, Pattern.longest, str, h1.symm, h2.symm, h3.symm]
  rw [scan_step hsel]
  simp

theorem select_colon (buf : CString) (x : CString) :
    select (scanRules ⟨.ARGS, buf⟩) (ch ':' :: x) = some (1, charRule) := by
  rw [show scanRules ⟨.ARGS, buf⟩ = (scanRules ⟨.ARGS, buf⟩).take 6 ++ charRule :: [] from rfl]
  refine select_eq Nat.one_pos (by simp [Pattern.longest, charRule, notNewline, ch]) ?_ (by simp)
  simp [scanRules, allRules, Pattern.longest, str, isDigit, isWord, isAlnum, isAlpha, isSpace, ch]

theorem scan_number_close {n : CString} (hn : IsDecimal n) (y : CString) :
    scan scanRules ⟨.ARGS, []⟩ (n ++ ch ')' :: y) =
      (number n :: tRparen :: (scan scanRules .init y).1, (scan scanRules .init y).2) := by
  obtain ⟨hne, hd⟩ := isDecimal_digits hn
  rw [scan_append (by decide) n.length _ n y le_rfl, scan_digits hne hd,
    scan_step (select_closeParen [] y)]
  rfl

theorem scan_number_colon {n : CString} (hn : IsDecimal n) (y : CString) :
    scan scanRules ⟨.ARGS, []⟩ (n ++ ch ':' :: y) =
      (number n :: tColon :: (scan scanRules ⟨.ARGS, []⟩ y).1,
        (scan scanRules ⟨.ARGS, []⟩ y).2) := by
  obtain ⟨hne, hd⟩ := isDecimal_digits hn
  rw [scan_append (by decide) n.length _ n y le_rfl, scan_digits hne hd,
    scan_step (select_colon [] y)]
  rfl

/-- A keyword and its opening parenthesis. -/
theorem scan_keyword {w : CString} {t : Token}
    (hw : scan scanRules .init w = ([t], ⟨.BEFORE_ARGS, []⟩)) (y : CString) :
    scan scanRules .init (w ++ ch '(' :: y) =
      (t :: tLparen :: (scan scanRules ⟨.ARGS, []⟩ y).1, (scan scanRules ⟨.ARGS, []⟩ y).2) := by
  rw [scan_append (by decide) w.length _ w y le_rfl, hw, scan_step (select_openParen [] y)]
  rfl

def userText (n : CString) : CString := str "user(" ++ n ++ str ")"

def groupText (n : CString) : CString := str "group(" ++ n ++ str ")"

def userGroupText (n m : CString) : CString := str "user(" ++ n ++ str ":" ++ m ++ str ")"

theorem scanAll_userText {n : CString} (hn : IsDecimal n) :
    scanAll (userText n) = [.USER, tLparen, number n, tRparen] := by
  have h := scan_keyword (w := str "user") (t := .USER) (by decide +kernel) (n ++ ch ')' :: [])
  rw [scan_number_close hn] at h
  rw [show userText n = str "user" ++ ch '(' :: (n ++ ch ')' :: []) by
    simp [userText, str], scanAll, h]
  rfl

theorem scanAll_groupText {n : CString} (hn : IsDecimal n) :
    scanAll (groupText n) = [.GROUP, tLparen, number n, tRparen] := by
  have h := scan_keyword (w := str "group") (t := .GROUP) (by decide +kernel) (n ++ ch ')' :: [])
  rw [scan_number_close hn] at h
  rw [show groupText n = str "group" ++ ch '(' :: (n ++ ch ')' :: []) by
    simp [groupText, str], scanAll, h]
  rfl

theorem scanAll_userGroupText {n m : CString} (hn : IsDecimal n) (hm : IsDecimal m) :
    scanAll (userGroupText n m) = [.USER, tLparen, number n, tColon, number m, tRparen] := by
  have h := scan_keyword (w := str "user") (t := .USER) (by decide +kernel)
    (n ++ ch ':' :: (m ++ ch ')' :: []))
  rw [scan_number_colon hn, scan_number_close hm] at h
  rw [show userGroupText n m = str "user" ++ ch '(' :: (n ++ ch ':' :: (m ++ ch ')' :: [])) by
    simp [userGroupText, str], scanAll, h]
  rfl

/-- The `int` that a numeral is read as. -/
def readInt (n : CString) : ℤ := toInt (min (value 10 n) ULLONG_MAX)

theorem number_eq {n : CString} (hn : IsDecimal n) : number n = .NUMBER (readInt n) := by
  simp only [number, strtoull_decimal (Or.inl rfl) hn, converted_rest, converted_value, if_true,
    readInt]

/-! Which ids a numeral is about. -/

variable {σ : Type} (g : GPattern σ) {n m : CString}

/-- The id of a numeral. -/
def numeralId (n : CString) : ℤ := numberId (readInt n)

theorem numeralId_ok (n : CString) : IdOk (numeralId n) := numberId_ok (toInt_upper _)

theorem numeralId_of_lt (h : value 10 n < 2 ^ 31) : numeralId n = value 10 n := by
  have hmin : min (value 10 n) ULLONG_MAX = value 10 n := by
    rw [ULLONG_MAX]
    omega
  rw [numeralId, readInt, hmin, toInt_of_lt h, numberId, if_neg (by omega)]

theorem means_numeralId (h : value 10 n < 2 ^ 31) (id : UInt32) :
    (numeralId n = DA_WILDCARD ∨ Means (numeralId n) id) ↔ id.toNat = value 10 n := by
  rw [numeralId_of_lt h, Means, DA_WILDCARD]
  omega

/-- Every numeral is satisfied by some id; from `2 ^ 31` on by one that it does not
denote. -/
theorem exists_numeralId (n : CString) :
    ∃ id : UInt32, (numeralId n = DA_WILDCARD ∨ Means (numeralId n) id) ∧
      (id.toNat = value 10 n → value 10 n < 2 ^ 31) := by
  by_cases h : value 10 n < 2 ^ 31
  · refine ⟨UInt32.ofNat (value 10 n), ?_, fun _ => h⟩
    rw [means_numeralId h, UInt32.toNat_ofNat']
    omega
  by_cases hneg : readInt n < 0
  · have hw : numeralId n = DA_WILDCARD := by rw [numeralId, numberId, if_pos hneg]
    refine ⟨0, Or.inl hw, fun h0 => ?_⟩
    rw [← h0]
    decide
  · have hup : readInt n < 2 ^ 31 := toInt_upper _
    have hid : (UInt32.ofNat (readInt n).toNat).toNat = (readInt n).toNat := by
      rw [UInt32.toNat_ofNat']
      omega
    refine ⟨UInt32.ofNat (readInt n).toNat, Or.inr ?_, fun h0 => ?_⟩
    · rw [numeralId, numberId, if_neg hneg, Means, hid]
      omega
    · omega

/-- The credentials of a user, and of a member of a group. -/
def UserIs (n : ℕ) (cred : Option DACred) : Prop := ∃ c, cred = some c ∧ c.euid.toNat = n

def GroupIs (n : ℕ) (cred : Option DACred) : Prop :=
  ∃ c, cred = some c ∧ ∃ id ∈ c.egid :: c.groups, id.toNat = n

theorem matchUser_numeral (h : value 10 n < 2 ^ 31) (cred : Option DACred) :
    daPolicyExprIdentityMatchUser (numeralId n) cred = true ↔ UserIs (value 10 n) cred := by
  have hw : numeralId n ≠ DA_WILDCARD := by
    rw [numeralId_of_lt h, DA_WILDCARD]
    omega
  rw [matchUser_iff (numeralId_ok n), UserIs]
  simp only [← means_numeralId h, hw, false_or]

theorem matchGroup_numeral (h : value 10 n < 2 ^ 31) (cred : Option DACred) :
    daPolicyExprIdentityMatchGroup (numeralId n) cred = true ↔ GroupIs (value 10 n) cred := by
  have hw : numeralId n ≠ DA_WILDCARD := by
    rw [numeralId_of_lt h, DA_WILDCARD]
    omega
  rw [matchGroup_iff (numeralId_ok n), GroupIs]
  simp only [← means_numeralId h, hw, false_or]

theorem userIs_some {k : ℕ} {c : DACred} : UserIs k (some c) ↔ c.euid.toNat = k := by
  simp [UserIs]

theorem groupIs_single {k : ℕ} {euid egid : UInt32} :
    GroupIs k (some ⟨euid, egid, [], 0, 0⟩) ↔ egid.toNat = k := by
  simp [GroupIs]

theorem matchUser_of {id : UInt32} {uid : ℤ} (hok : IdOk uid)
    (h : uid = DA_WILDCARD ∨ Means uid id) (egid : UInt32) :
    daPolicyExprIdentityMatchUser uid (some ⟨id, egid, [], 0, 0⟩) = true :=
  (matchUser_iff hok _).2 (h.imp_right fun h => ⟨_, rfl, h⟩)

theorem matchGroup_of {id : UInt32} {gid : ℤ} (hok : IdOk gid)
    (h : gid = DA_WILDCARD ∨ Means gid id) (euid : UInt32) :
    daPolicyExprIdentityMatchGroup gid (some ⟨euid, id, [], 0, 0⟩) = true :=
  (matchGroup_iff hok _).2 (h.imp_right fun h => ⟨_, rfl, id, List.mem_cons_self .., h⟩)

/-- What an identity of the result matches. -/
def Exact (e : DAParserEntry) (P : Option DACred → Prop) : Prop :=
  ∀ pc : DAPolicyCheck, daPolicyExprMatch g pc (daPolicyExprNew g e.expr) = true ↔ P pc.cred

theorem match_identity (uid gid : ℤ) (pc : DAPolicyCheck) :
    daPolicyExprMatch g pc (daPolicyExprNew g (.identity uid gid)) = true ↔
      daPolicyExprIdentityMatchUser uid pc.cred = true ∧
        daPolicyExprIdentityMatchGroup gid pc.cred = true := by
  simp only [daPolicyExprNew, daPolicyExprMatch, daPolicyExprIdentityMatch, Bool.and_eq_true]

theorem exact_user_iff {e : DAParserEntry} (he : e.expr = .identity (numeralId n) DA_WILDCARD) :
    Exact g e (UserIs (value 10 n)) ↔ value 10 n < 2 ^ 31 := by
  unfold Exact
  simp only [he, match_identity]
  apply Iff.intro
  · intro h
    obtain ⟨id, hid, hlt⟩ := exists_numeralId n
    have hm := (h ⟨some ⟨id, 0, [], 0, 0⟩, 0, none⟩).1 ⟨matchUser_of (numeralId_ok n) hid 0, rfl⟩
    exact hlt (userIs_some.1 hm)
  · intro h pc
    rw [matchUser_numeral h]
    exact and_iff_left rfl

theorem exact_group_iff {e : DAParserEntry} (he : e.expr = .identity DA_WILDCARD (numeralId n)) :
    Exact g e (GroupIs (value 10 n)) ↔ value 10 n < 2 ^ 31 := by
  unfold Exact
  simp only [he, match_identity]
  apply Iff.intro
  · intro h
    obtain ⟨id, hid, hlt⟩ := exists_numeralId n
    have hm := (h ⟨some ⟨0, id, [], 0, 0⟩, 0, none⟩).1 ⟨rfl, matchGroup_of (numeralId_ok n) hid 0⟩
    exact hlt (groupIs_single.1 hm)
  · intro h pc
    rw [matchGroup_numeral h]
    exact and_iff_right rfl

theorem exact_userGroup_iff {e : DAParserEntry}
    (he : e.expr = .identity (numeralId n) (numeralId m)) :
    Exact g e (fun cred => UserIs (value 10 n) cred ∧ GroupIs (value 10 m) cred) ↔
      value 10 n < 2 ^ 31 ∧ value 10 m < 2 ^ 31 := by
  unfold Exact
  simp only [he, match_identity]
  apply Iff.intro
  · intro h
    obtain ⟨id, hid, hlt⟩ := exists_numeralId n
    obtain ⟨id', hid', hlt'⟩ := exists_numeralId m
    have hm := (h ⟨some ⟨id, id', [], 0, 0⟩, 0, none⟩).1
      ⟨matchUser_of (numeralId_ok n) hid id', matchGroup_of (numeralId_ok m) hid' id⟩
    exact ⟨hlt (userIs_some.1 hm.1), hlt' (groupIs_single.1 hm.2)⟩
  · intro h pc
    rw [matchUser_numeral h.1, matchGroup_numeral h.2]

/-- A rule `user(N)`, `group(N)` or `user(N:M)` in a policy that is accepted is true
for exactly the ids it names if and only if these are below `2 ^ 31`. -/
theorem numeric_ids_exact_iff (host : Host) (actions : Option (List DAAction))
    (pre post n m : CString) (hpre : BeforeRule host pre) (hpost : AfterRule post)
    (hn : IsDecimal n) (hm : IsDecimal m) :
    (∀ parser, daParserCompile host (some (pre ++ userText n ++ post)) actions = some parser →
      ∃ e, (daParserGetResult parser)[entryIndex (scanAll pre)]? = some e ∧
        (Exact g e (UserIs (value 10 n)) ↔ value 10 n < 2 ^ 31)) ∧
    (∀ parser, daParserCompile host (some (pre ++ groupText n ++ post)) actions = some parser →
      ∃ e, (daParserGetResult parser)[entryIndex (scanAll pre)]? = some e ∧
        (Exact g e (GroupIs (value 10 n)) ↔ value 10 n < 2 ^ 31)) ∧
    ∀ parser, daParserCompile host (some (pre ++ userGroupText n m ++ post)) actions =
      some parser →
      ∃ e, (daParserGetResult parser)[entryIndex (scanAll pre)]? = some e ∧
        (Exact g e (fun cred => UserIs (value 10 n) cred ∧ GroupIs (value 10 m) cred) ↔
          value 10 n < 2 ^ 31 ∧ value 10 m < 2 ^ 31) := by
  refine ⟨?_, ?_, ?_⟩
  · intro parser hc
    have ht : DerivesTerm (scanAll (userText n)) (.user (.number (readInt n))) := by
      rw [scanAll_userText hn, number_eq hn]
      exact .user (.number _)
    obtain ⟨e, he, hx⟩ := rule_in_result hpre hpost ht hc
    exact ⟨e, he, exact_user_iff g hx⟩
  · intro parser hc
    have ht : DerivesTerm (scanAll (groupText n)) (.group (.number (readInt n))) := by
      rw [scanAll_groupText hn, number_eq hn]
      exact .group (.number _)
    obtain ⟨e, he, hx⟩ := rule_in_result hpre hpost ht hc
    exact ⟨e, he, exact_group_iff g hx⟩
  · intro parser hc
    have ht : DerivesTerm (scanAll (userGroupText n m))
        (.userGroup (.number (readInt n)) (.number (readInt m))) := by
      rw [scanAll_userGroupText hn hm, number_eq hn, number_eq hm]
      exact .userGroup (.number _) (.number _)
    obtain ⟨e, he, hx⟩ := rule_in_result hpre hpost ht hc
    exact ⟨e, he, exact_userGroup_iff g hx⟩

theorem afterRule_deny : AfterRule (str " = deny") :=
  show AfterRule ([ch ' '] ++ ch '=' :: str " deny") from .next rfl (Or.inr rfl)

theorem numeric_ids_exact_iff_first :
    ∃ e, (daParserGetResult ⟨none, [⟨.identity 5 (-1), .DENY⟩]⟩)[entryIndex (scanAll [])]? =
        some e ∧
      (Exact globPattern e (UserIs (value 10 (str "5"))) ↔ value 10 (str "5") < 2 ^ 31) :=
  (numeric_ids_exact_iff globPattern exampleHost none [] (str " = deny") (str "5") (str "7")
    (.first rfl) afterRule_deny (Or.inr (by decide +kernel)) (Or.inr (by decide +kernel))).1 _
    (by decide +kernel)

/-- A rule for the user 4294967295 lets in user 7. -/
theorem numeric_ids_inexact :
    ∃ p, daPolicyNewFull globPattern exampleHost (some (userText (str "4294967295"))) none =
        some p ∧
      daPolicyCheck globPattern (some p) (some ⟨7, 7, [], 0, 0⟩) 0 none .DENY = .ALLOW ∧
      ¬ UserIs (value 10 (str "4294967295")) (some ⟨7, 7, [], 0, 0⟩) := by
  refine ⟨⟨[⟨.ALLOW, .identity (-1) (-1)⟩]⟩, by decide +kernel, by decide, ?_⟩
  rw [userIs_some]
  decide

end DbusAccess
