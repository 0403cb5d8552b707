import DbusAccess.Proofs.PolicyTexts
import DbusAccess.Proofs.Rendering
import DbusAccess.Proofs.TermReplacement

/-! Words in the place of a parameter, with quotes and without. -/

namespace DbusAccess

open MaximalMunch

variable {host : Host} {actions : Option (List DAAction)} {x y name arg w pre : CString}
  {A B ts us : List Token} {t t' : Token} {pol : PolicySyntax} {q c : UInt8}

/-! The term in a text. -/

theorem word_chars : ∀ c : UInt8, isWord c = true →
    c ≠ ch '\'' ∧ c ≠ ch '"' ∧ c ≠ ch ')' ∧ c ≠ ch '\\' :=
  forall_byte (by decide +kernel)

/-- A word that is not a number is one token. -/
theorem scan_word (hne : w ≠ []) (hw : ∀ c ∈ w, isWord c = true)
    (hnum : ∃ c ∈ w, isDigit c = false) :
    scan scanRules ⟨.ARGS, []⟩ w = ([wordToken w], ⟨.ARGS, []⟩) := by
  have hlong : (Pattern.many isWord).longest w = w.length := by
    rw [Pattern.longest, List.takeWhile_eq_self_iff.2 hw]
  have hdigits : (Pattern.many isDigit).longest w < w.length := by
    have hle := (List.takeWhile_prefix (l := w) isDigit).length_le
    refine lt_of_le_of_ne hle fun hlen => ?_
    obtain ⟨c, hc, hd⟩ := hnum
    have hall := List.takeWhile_eq_self_iff.1 ((List.takeWhile_prefix _).eq_of_length hlen) c hc
    rw [hd] at hall
    cases hall
  have hsel : select (scanRules ⟨.ARGS, []⟩) w =
      some (w.length, ⟨.many isWord, fun s yytext => (s, some (wordToken yytext))⟩) := by
    rw [show scanRules ⟨.ARGS, []⟩ = (scanRules ⟨.ARGS, []⟩).take 4 ++
      ⟨.many isWord, fun s yytext => (s, some (wordToken yytext))⟩ ::
        (scanRules ⟨.ARGS, []⟩).drop 5 from rfl]
    refine select_eq (List.length_pos_iff.2 hne) hlong ?_ fun r _ => Pattern.longest_le _ _
    obtain ⟨c, v, rfl⟩ := List.exists_cons_of_ne_nil hne
    obtain ⟨h1, h2, h3, -⟩ := word_chars c (hw c (List.mem_cons_self ..))
    refine List.forall_mem_cons.2 ⟨?_, List.forall_mem_cons.2 ⟨?_, List.forall_mem_cons.2 ⟨?_,
      List.forall_mem_cons.2 ⟨hdigits, by simp⟩⟩⟩⟩
    · simp [Pattern.longest, str, h1.symm]
    · simp [Pattern.longest, str, h2.symm]
    · simp [Pattern.longest, str, h3.symm]
  rw [scan_step hsel]
  simp

/-- What an argument is read as, in front of anything that ends it. -/
def ReadsArg (arg : CString) (t : Token) : Prop :=
  ∀ c z, Delimiter c → scan scanRules ⟨.ARGS, []⟩ (arg ++ c :: z) =
    (t :: (scan scanRules ⟨.ARGS, []⟩ (c :: z)).1, (scan scanRules ⟨.ARGS, []⟩ (c :: z)).2)

theorem readsArg_of_scan (h : scan scanRules ⟨.ARGS, []⟩ arg = ([t], ⟨.ARGS, []⟩)) :
    ReadsArg arg t := by
  intro c z hc
  rw [scan_append hc arg.length _ arg z le_rfl, h]
  rfl

theorem escape_eq_self (h : q ∉ w) : escape q w = w := by
  induction w with
  | nil => rfl
  | cons c w ih =>
    rw [List.mem_cons, not_or] at h
    rw [escape, List.flatMap_cons, if_neg (Ne.symm h.1)]
    exact congrArg (c :: ·) (ih h.2)

/-- A word between quotes is a string. -/
theorem readsArg_quoted (hw : ∀ c ∈ w, isWord c = true) (hq : q = ch '"' ∨ q = ch '\'') :
    ReadsArg (q :: w ++ [q]) (.STRING w) := by
  have hlast : w.getLast? ≠ some (ch '\\') := by
    intro hlast
    exact (word_chars _ (hw _ (List.mem_of_getLast? hlast))).2.2.2 rfl
  obtain ⟨p, hp, hmem⟩ : ∃ p, QuotedBy q p ∧ q ∉ w := by
    rcases hq with rfl | rfl
    · exact ⟨_, .double, fun hmem => (word_chars _ (hw _ hmem)).2.1 rfl⟩
    · exact ⟨_, .single, fun hmem => (word_chars _ (hw _ hmem)).1 rfl⟩
  intro c z _
  have h := scan_string hp hlast (c :: z)
  rwa [escape_eq_self hmem] at h

theorem blanks_delimiter {bl : CString} (hbl : bl.all isSpace = true) (hc : Delimiter c)
    (y : CString) : ∃ d z, bl ++ c :: y = d :: z ∧ Delimiter d := by
  cases bl with
  | nil => exact ⟨c, y, rfl, hc⟩
  | cons d bl =>
    simp only [List.all_cons, Bool.and_eq_true] at hbl
    exact ⟨d, bl ++ c :: y, rfl, space_delimiter d hbl.1⟩

/-- An opening parenthesis between blanks. -/
theorem scan_open {bl1 bl2 : CString} (hw : scan scanRules .init w = (ts, ⟨.BEFORE_ARGS, []⟩))
    (h1 : bl1.all isSpace = true) (h2 : bl2.all isSpace = true) (y : CString) :
    scan scanRules .init (w ++ (bl1 ++ ch '(' :: (bl2 ++ y))) =
      (ts ++ tLparen :: (scan scanRules ⟨.ARGS, []⟩ y).1, (scan scanRules ⟨.ARGS, []⟩ y).2) := by
  obtain ⟨d, z, hdz, hd⟩ := blanks_delimiter h1 (c := ch '(') (by decide) (bl2 ++ y)
  rw [hdz, scan_append hd w.length _ _ z le_rfl, hw, ← hdz]
  simp only
  rw [scan_blanks beforeArgs_unquoted h1, scan_step (select_openParen [] _)]
  change (ts ++ tLparen :: (scan scanRules ⟨.ARGS, []⟩ (bl2 ++ y)).1,
    (scan scanRules ⟨.ARGS, []⟩ (bl2 ++ y)).2) = _
  rw [scan_blanks args_unquoted h2]

/-- An argument and blanks. -/
theorem scan_arg {bl : CString} (harg : ReadsArg arg t) (hbl : bl.all isSpace = true)
    (hc : Delimiter c) (y : CString) :
    scan scanRules ⟨.ARGS, []⟩ (arg ++ (bl ++ c :: y)) =
      (t :: (scan scanRules ⟨.ARGS, []⟩ (c :: y)).1,
        (scan scanRules ⟨.ARGS, []⟩ (c :: y)).2) := by
  obtain ⟨e, z, hez, he⟩ := blanks_delimiter hbl hc y
  rw [hez, harg e z he, ← hez, scan_blanks args_unquoted hbl]

theorem scan_close (y : CString) : scan scanRules ⟨.ARGS, []⟩ (ch ')' :: y) =
    (tRparen :: (scan scanRules .init y).1, (scan scanRules .init y).2) := by
  rw [scan_step (select_closeParen [] y)]
  rfl

theorem TermText.scan (h : TermText name arg x) (harg : ReadsArg arg t)
    (hpre : scan scanRules .init (pre ++ name) = (ts, ⟨.BEFORE_ARGS, []⟩)) (post : CString) :
    scanAll (pre ++ x ++ post) = ts ++ tLparen :: t :: tRparen :: scanAll post := by
  cases h with
  | @mk bl1 bl2 bl3 h1 h2 h3 =>
    have htext : pre ++ (name ++ bl1 ++ str "(" ++ bl2 ++ arg ++ bl3 ++ str ")") ++ post =
        (pre ++ name) ++ (bl1 ++ ch '(' :: (bl2 ++ (arg ++ (bl3 ++ ch ')' :: post)))) := by
      simp [str]
    rw [scanAll, htext, scan_open hpre h1 h2, scan_arg harg h3 (by decide), scan_close]
    rfl

theorem TermText.scan_name (h : TermText name arg x) (harg : ReadsArg arg t)
    (hpre : MaximalMunch.scan scanRules .init (pre ++ name) =
      (ts ++ [.ID name], ⟨.BEFORE_ARGS, []⟩)) (post : CString) :
    scanAll (pre ++ x ++ post) = ts ++ .ID name :: tLparen :: t :: tRparen :: scanAll post := by
  rw [h.scan harg hpre, List.append_assoc]
  rfl

/-! The same parameter from another token. -/

theorem DerivesPolicy.requote
    (h : DerivesPolicy (A ++ .ID name :: tLparen :: t :: tRparen :: B) pol)
    (ht : DerivesParam [t] w) (ht' : DerivesParam [t'] w) :
    DerivesPolicy (A ++ .ID name :: tLparen :: t' :: tRparen :: B) pol := by
  obtain ⟨c, seg, B', s, hB, hs, rfl, hc⟩ := h.hole (t := .ID name) trivial rfl
  -- the term is the one that is written there
  have hterm : DerivesTerm [.ID name, tLparen, t, tRparen] (.action name (some w)) :=
    .actionParam name ht
  have hB' : seg ++ B' = [.ID name, tLparen, t, tRparen] ++ B := hB.symm
  obtain ⟨rfl, rfl, rfl⟩ := hs.unique hterm hB'
  have hnew := hc [.ID name, tLparen, t', tRparen] (.term (.action name (some w)))
    (.term (.actionParam name ht'))
  rwa [List.append_assoc] at hnew

theorem tokens_append_term (htok : scanAll x = ts ++ .ID name :: tLparen :: t :: tRparen :: us)
    (ht : DerivesParam [t] w) :
    tokens host x = if (ts.takeWhile (!isEndOfInput host ·)).length = ts.length then
      ts ++ .ID name :: tLparen :: t :: tRparen :: us.takeWhile (!isEndOfInput host ·)
    else ts.takeWhile (!isEndOfInput host ·) := by
  have hterm : DerivesTerm [.ID name, tLparen, t, tRparen] (.action name (some w)) :=
    .actionParam name ht
  have hend : ([.ID name, tLparen, t, tRparen] ++ us).takeWhile (!isEndOfInput host ·) =
      [.ID name, tLparen, t, tRparen] ++ us.takeWhile (!isEndOfInput host ·) := by
    apply List.takeWhile_append_of_pos
    intro t ht
    rw [(DerivesExpr.term hterm).no_end host t ht]
    rfl
  rw [tokens, htok, List.takeWhile_append]
  split_ifs
  · exact congrArg (ts ++ ·) hend
  · rfl

theorem derives_requote (hx : scanAll x = ts ++ .ID name :: tLparen :: t :: tRparen :: us)
    (hy : scanAll y = ts ++ .ID name :: tLparen :: t' :: tRparen :: us)
    (ht : DerivesParam [t] w) (ht' : DerivesParam [t'] w)
    (h : DerivesPolicy (tokens host x) pol) : DerivesPolicy (tokens host y) pol := by
  rw [tokens_append_term hx ht] at h
  rw [tokens_append_term hy ht']
  split_ifs at h ⊢
  · exact h.requote ht ht'
  · exact h

theorem compile_requote (hx : scanAll x = ts ++ .ID name :: tLparen :: t :: tRparen :: us)
    (hy : scanAll y = ts ++ .ID name :: tLparen :: t' :: tRparen :: us)
    (ht : DerivesParam [t] w) (ht' : DerivesParam [t'] w) :
    daParserCompile host (some x) actions = daParserCompile host (some y) actions := by
  refine Option.ext fun parser => ?_
  rw [daParserCompile_eq_some, daParserCompile_eq_some]
  apply Iff.intro
  · intro h
    obtain ⟨pol, hd, hv, hp⟩ := h
    exact ⟨pol, derives_requote hx hy ht ht' hd, hv, hp⟩
  · intro h
    obtain ⟨pol, hd, hv, hp⟩ := h
    exact ⟨pol, derives_requote hy hx ht' ht hd, hv, hp⟩

/-! Digits. -/

/-- A number, or an error, is not a parameter. -/
theorem number_not_param (yytext s : CString) : ¬ DerivesParam [number yytext] s := by
  intro h
  generalize ht : [number yytext] = ts at h
  have hnumber : (∃ n, number yytext = .NUMBER n) ∨ number yytext = .ERROR := by
    simp only [number]
    split_ifs
    · exact Or.inl ⟨_, rfl⟩
    · exact Or.inr rfl
  rcases hnumber with ⟨n, hn⟩ | hn <;> rw [hn] at ht <;> cases h <;> cases ht

theorem number_not_policy (yytext : CString) :
    ¬ DerivesPolicy (A ++ .ID name :: tLparen :: number yytext :: tRparen :: B) pol := by
  intro h
  obtain ⟨c, seg, B', s, hB, hs, -, -⟩ := h.hole (t := .ID name) trivial rfl
  cases hs with
  | action name' =>
    have hr : number yytext = tRparen := by simpa using (List.cons.inj (List.cons.inj
      (List.cons.inj hB).2).2).1
    simp only [number] at hr
    split_ifs at hr
  | @actionParam name' ts s hx =>
    have hx' : DerivesParam [number yytext] s := by
      cases hx <;> simp only [List.cons_append, List.cons.injEq, List.nil_append] at hB <;>
        rw [hB.2.2.1]
      · exact .word _
      · exact .string _
      · exact .wildcard _
    exact number_not_param _ _ hx'
  | _ => simp at hB

/-! Quotes. -/

theorem derivesParam_word (w : CString) : DerivesParam [wordToken w] w := by
  unfold wordToken
  split_ifs
  · exact .wildcard w
  · exact .word w

/-- The quotes are not needed around a word that is not a number. -/
theorem compile_quotes (hne : w ≠ []) (hw : ∀ c ∈ w, isWord c = true)
    (hnum : ∃ c ∈ w, isDigit c = false) (hq : q = ch '"' ∨ q = ch '\'') (hpre : NameEnds pre name)
    (hx : TermText name w x) (hy : TermText name (q :: w ++ [q]) y) (post : CString) :
    daParserCompile host (some (pre ++ x ++ post)) actions =
      daParserCompile host (some (pre ++ y ++ post)) actions := by
  obtain ⟨ts, hts⟩ := hpre
  have htx := hx.scan_name (readsArg_of_scan (scan_word hne hw hnum)) hts post
  have hty := hy.scan_name (readsArg_quoted hw hq) hts post
  exact compile_requote htx hty (derivesParam_word w) (.string w)

/-! Policies of a single term. -/

theorem exists_termText (name arg : CString) : ∃ x, TermText name arg x :=
  ⟨name ++ [] ++ str "(" ++ [] ++ arg ++ [] ++ str ")", .mk rfl rfl rfl⟩

theorem scanAll_term (hn : ActionName name) (hx : TermText name arg x) (harg : ReadsArg arg t) :
    scanAll x = [.ID name, tLparen, t, tRparen] := by
  have hname : scan scanRules .init ([] ++ name) = ([] ++ [.ID name], ⟨.BEFORE_ARGS, []⟩) :=
    scan_name hn
  have h := hx.scan_name harg hname []
  rwa [List.nil_append, List.append_nil] at h

theorem compile_number (hn : ActionName name) (hne : w ≠ []) (hd : ∀ c ∈ w, isDigit c = true)
    (hx : TermText name w x) : daParserCompile host (some x) actions = none := by
  have hall := scanAll_term hn hx (readsArg_of_scan (scan_digits hne hd))
  have hend : ∀ t ∈ scanAll x, isEndOfInput host t = false := by
    have hnumber : isEndOfInput host (number w) = false := by
      simp only [number]
      split_ifs <;> rfl
    rw [hall]
    simp only [List.forall_mem_cons]
    exact ⟨rfl, by simp [isEndOfInput, ch], hnumber, by simp [isEndOfInput, ch], by simp⟩
  refine daParserCompile_of_not_derives ?_
  intro h
  obtain ⟨pol, hpol, -⟩ := h
  rw [tokens_eq_scanAll hend, hall] at hpol
  exact number_not_policy (A := []) w hpol

theorem compile_string {a : DAAction} (hn : ActionName name)
    (ha : firstAction actions name = some a) (hargs : a.args ≠ 0)
    (hw : ∀ c ∈ w, isWord c = true) (hq : q = ch '"' ∨ q = ch '\'')
    (hx : TermText name (q :: w ++ [q]) x) :
    (daParserCompile host (some x) actions).isSome := by
  have hall := scanAll_term hn hx (readsArg_quoted hw hq)
  have hd : DerivesPolicy (scanAll x)
      ⟨none, [.expr (.term (.action name (some w))) none]⟩ := by
    rw [hall]
    exact .entries (.expr (.prim (.term (.actionParam name (.string w))))) .none
  have hend := tokens_eq_scanAll (hd.no_end host)
  rw [← hend] at hd
  rw [daParserCompile_of_derives hd (.of_known ?_)]
  · rfl
  · simpa [EntrySyntax.Known, ExprSyntax.Known, TermSyntax.Known, hargs] using ⟨a, ha, hargs⟩

/-- Quotes around a word in the place of a parameter make no difference, in any policy,
exactly when the word is not a number. -/
theorem quotes_iff {σ : Type} (g : GPattern σ)
    (hg : Equivalence fun p q => g.gPatternSpecEqual p q = true) (host : Host)
    (actions : Option (List DAAction)) (name : CString) (hn : ActionName name) (a : DAAction)
    (ha : firstAction actions name = some a) (hargs : a.args ≠ 0) (w : CString) (hne : w ≠ [])
    (hw : ∀ c ∈ w, isWord c = true) :
    (∀ pre x y post q, NameEnds pre name → TermText name w x → (q = ch '"' ∨ q = ch '\'') →
      TermText name (q :: w ++ [q]) y →
      ((daParserCompile host (some (pre ++ x ++ post)) actions).isSome ↔
        (daParserCompile host (some (pre ++ y ++ post)) actions).isSome) ∧
      TextsAgree g host actions (pre ++ x ++ post) (pre ++ y ++ post)) ↔
    ∃ c ∈ w, isDigit c = false := by
  apply Iff.intro
  · intro h
    by_contra hnum
    have hd : ∀ c ∈ w, isDigit c = true := by simpa using hnum
    obtain ⟨x, hx⟩ := exists_termText name w
    obtain ⟨y, hy⟩ := exists_termText name (ch '"' :: w ++ [ch '"'])
    have hname : NameEnds [] name := ⟨[], scan_name hn⟩
    have hiff := (h [] x y [] (ch '"') hname hx (Or.inl rfl) hy).1
    simp only [List.nil_append, List.append_nil] at hiff
    have hsome := hiff.2 (compile_string hn ha hargs hw (Or.inl rfl) hy)
    rw [compile_number hn hne hd hx] at hsome
    cases hsome
  · intro hnum pre x y post q hpre hx hq hy
    have hcompile : daParserCompile host (some (pre ++ x ++ post)) actions =
        daParserCompile host (some (pre ++ y ++ post)) actions :=
      compile_quotes hne hw hnum hq hpre hx hy post
    rw [hcompile]
    exact ⟨Iff.rfl, textsAgree_of_compile hg hcompile⟩

theorem quotes_iff_call :
    (∀ pre x y post q, NameEnds pre (str "Call") → TermText (str "Call") (str "a1*") x →
      (q = ch '"' ∨ q = ch '\'') → TermText (str "Call") (q :: str "a1*" ++ [q]) y →
      ((daParserCompile exampleHost (some (pre ++ x ++ post)) (some exampleActions)).isSome ↔
        (daParserCompile exampleHost (some (pre ++ y ++ post)) (some exampleActions)).isSome) ∧
      TextsAgree globPattern exampleHost (some exampleActions) (pre ++ x ++ post)
        (pre ++ y ++ post)) ↔
    ∃ c ∈ str "a1*", isDigit c = false :=
  quotes_iff globPattern globPattern_equivalence exampleHost (some exampleActions) (str "Call")
    actionName_call ⟨str "Call", 7, 1⟩ (by decide) (by decide) (str "a1*") (by decide)
    (by decide +kernel)

/-- `Call(123)` is rejected, `Call('123')` is not. -/
theorem quotes_fail :
    NameEnds [] (str "Call") ∧ TermText (str "Call") (str "123") (str "Call(123)") ∧
      TermText (str "Call") (ch '\'' :: str "123" ++ [ch '\'']) (str "Call('123')") ∧
      ¬ ((daParserCompile exampleHost (some (str "Call(123)")) (some exampleActions)).isSome ↔
        (daParserCompile exampleHost (some (str "Call('123')")) (some exampleActions)).isSome) := by
  refine ⟨⟨[], scan_name actionName_call⟩, ?_, ?_, by decide +kernel⟩
  · have h : TermText (str "Call") (str "123")
        (str "Call" ++ [] ++ str "(" ++ [] ++ str "123" ++ [] ++ str ")") := .mk rfl rfl rfl
    exact h
  · have h : TermText (str "Call") (ch '\'' :: str "123" ++ [ch '\''])
        (str "Call" ++ [] ++ str "(" ++ [] ++ (ch '\'' :: str "123" ++ [ch '\'']) ++ [] ++
          str ")") := .mk rfl rfl rfl
    exact h

end DbusAccess
