import DbusAccess.Proofs.NumericIds
import DbusAccess.Proofs.PolicyEquality

/-! Policy texts in a row, and the parts of a text that are only framing. -/

namespace DbusAccess

open MaximalMunch

variable {host : Host} {actions : Option (List DAAction)} {x y s1 s2 : CString}
  {us ve : List Token} {pol : PolicySyntax} {σ : Type} {g : GPattern σ}

/-! Tokens of texts in a row. -/

/-- A delimiter behind a text does not change the tokens that are in front of it. -/
theorem scanAll_prefix {c : UInt8} (hc : Delimiter c) (x y : CString) :
    scanAll x <+: scanAll (x ++ c :: y) := by
  unfold scanAll
  rw [scan_append hc x.length .init x y le_rfl]
  exact List.prefix_append _ _

/-- Nothing that follows is read when the input ends early. -/
theorem tokens_of_endsEarly (h : EndsEarly host s1) (y : CString) :
    tokens host (s1 ++ ch ';' :: y) = tokens host s1 := by
  obtain ⟨ts, hts⟩ := scanAll_prefix (c := ch ';') (by decide) s1 y
  obtain ⟨t, ht, hend⟩ := h
  unfold tokens
  rw [← hts, List.takeWhile_append, if_neg]
  intro hlen
  have hall := (List.takeWhile_prefix _).eq_of_length hlen
  have hself := List.takeWhile_eq_self_iff.1 hall t ht
  rw [hend] at hself
  cases hself

theorem scanAll_semicolon (hx : Closed x) (y : CString) :
    scanAll (x ++ ch ';' :: y) = scanAll x ++ tSemicolon :: scanAll y := by
  unfold scanAll
  rw [hx.scan_append (by decide), scan_punctuation (by decide)]
  rfl

/-- The tokens of a policy, a semicolon, and the tokens of what follows. -/
theorem tokens_semicolon (h : ¬ EndsEarly host s1) (hd : DerivesPolicy (tokens host s1) pol)
    (y : CString) :
    tokens host (s1 ++ ch ';' :: y) = tokens host s1 ++ tSemicolon :: tokens host y := by
  rw [not_endsEarly] at h
  have hall : tokens host s1 = scanAll s1 := tokens_eq_scanAll h
  rw [hall] at hd ⊢
  unfold tokens
  rw [scanAll_semicolon hd.closed, List.takeWhile_append_of_pos, List.takeWhile_cons_of_pos]
  · simp [isEndOfInput, ch]
  · intro t ht
    rw [h t ht]
    rfl

/-! Derivations in a row. -/

theorem getLast_right {t : Token} (h : (us ++ ve).getLast? ≠ some t) : ve.getLast? ≠ some t := by
  intro hve
  apply h
  rw [List.getLast?_append, hve]
  rfl

theorem DerivesMore.append {es fs : List EntrySyntax} (h : DerivesMore us es)
    (hlast : us.getLast? ≠ some tSemicolon) (h' : DerivesMore ve fs) :
    DerivesMore (us ++ ve) (es ++ fs) := by
  induction h with
  | none => exact h'
  | final => exact absurd rfl hlast
  | @entry ts e us es he hm ih =>
    rw [List.append_assoc]
    exact .entry he (ih (getLast_right hlast))

/-- A policy goes on behind its last entry, or behind its version with an entry. -/
theorem DerivesPolicy.append {es : List EntrySyntax} (h : DerivesPolicy us pol)
    (hlast : us.getLast? ≠ some tSemicolon) (h' : DerivesMore ve es)
    (hne : pol.entries = [] → es ≠ []) :
    DerivesPolicy (us ++ ve) ⟨pol.version, pol.entries ++ es⟩ := by
  cases h with
  | version n =>
    cases h' with
    | none => exact absurd rfl (hne rfl)
    | final => exact absurd rfl (hne rfl)
    | entry he hm => exact .versionEntries n he hm
  | versionEntries n he hm =>
    rw [List.append_assoc]
    exact .versionEntries n he (hm.append (getLast_right hlast) h')
  | entries he hm =>
    rw [List.append_assoc]
    exact .entries he (hm.append (getLast_right hlast) h')

/-- What a policy without a version is behind a semicolon. -/
theorem DerivesPolicy.more (h : DerivesPolicy us pol) (hn : look us ≠ .NUMBER) :
    DerivesMore (tSemicolon :: us) pol.entries ∧ pol.entries ≠ [] ∧ pol.version = none := by
  cases h with
  | version n => exact absurd rfl hn
  | versionEntries n he hm => exact absurd rfl hn
  | entries he hm => exact ⟨.entry he hm, List.cons_ne_nil _ _, rfl⟩

/-! Policies in a row. -/

/-- What is compiled from entries. -/
def compiled (g : GPattern σ) (entries : List DAParserEntry) : DAPolicy σ :=
  ⟨entries.map fun e => ⟨e.access, daPolicyExprNew g e.expr⟩⟩

theorem newFull_compiled {spec : CString} {parser : DAParser}
    (h : daParserCompile host (some spec) actions = some parser) :
    daPolicyNewFull g host (some spec) actions = some (compiled g (daParserGetResult parser)) :=
  daPolicyNewFull_eq g h

theorem daPolicyCheck_append (es fs : List DAParserEntry) (cred : Option DACred)
    (action : UInt32) (arg : Option CString) (default : DAAccess) :
    daPolicyCheck g (some (compiled g (es ++ fs))) cred action arg default =
      daPolicyCheck g (some (compiled g fs)) cred action arg
        (daPolicyCheck g (some (compiled g es)) cred action arg default) := by
  simp only [daPolicyCheck, compiled, List.map_append]
  split_ifs
  · rfl
  · exact List.foldl_append

theorem daPolicyCheck_nonRoot {es : List DAParserEntry} (hids : ∀ e ∈ es, e.expr.IdsOk)
    (pc : DAPolicyCheck) (hn : NonRoot pc.cred) (default : DAAccess) :
    daPolicyCheck g (some (compiled g es)) pc.cred pc.action pc.arg default =
      (lastAccess g es pc).getD default := by
  refine (daPolicyCheck_eq g es hids _ _ _ _).trans ?_
  rw [decision, if_neg]
  · rfl
  · intro h
    obtain ⟨c, hc, hroot⟩ := h
    exact hn c hc hroot

/-- A decision is left as it is exactly by entries that only repeat it. -/
theorem repeats_iff {es fs : List DAParserEntry} (hes : ∀ e ∈ es, e.expr.IdsOk)
    (hfs : ∀ e ∈ fs, e.expr.IdsOk) :
    (∀ cred action arg default,
      daPolicyCheck g (some (compiled g es)) cred action arg default =
        daPolicyCheck g (some (compiled g fs)) cred action arg
          (daPolicyCheck g (some (compiled g es)) cred action arg default)) ↔
      Repeats g fs es := by
  apply Iff.intro
  · intro h pc hn access hfs'
    have hd : ∀ d, (lastAccess g es pc).getD d = access := by
      intro d
      have hd := h pc.cred pc.action pc.arg d
      rwa [daPolicyCheck_nonRoot hes pc hn, daPolicyCheck_nonRoot hfs pc hn, hfs'] at hd
    cases hes' : lastAccess g es pc with
    | none =>
      rw [hes'] at hd
      exact absurd ((hd .ALLOW).trans (hd .DENY).symm) (by decide)
    | some access' =>
      rw [hes'] at hd
      rw [← hd .DENY]
      rfl
  · intro h cred action arg default
    by_cases hn : NonRoot cred
    · have hrep := h ⟨cred, action, arg⟩ hn
      have hes' := daPolicyCheck_nonRoot (g := g) hes ⟨cred, action, arg⟩ hn default
      have hfs' := daPolicyCheck_nonRoot (g := g) hfs ⟨cred, action, arg⟩ hn
      rw [hfs', hes']
      cases hl : lastAccess g fs ⟨cred, action, arg⟩ with
      | none => rfl
      | some access =>
        rw [hrep access hl]
        rfl
    · simp only [NonRoot, not_forall, not_not] at hn
      obtain ⟨c, rfl, hc⟩ := hn
      simp [daPolicyCheck, hc]

/-! Texts in a row are policies in a row. -/

theorem daParserCompile_congr (h : tokens host x = tokens host y) :
    daParserCompile host (some x) actions = daParserCompile host (some y) actions := by
  simp only [daParserCompile, h]

theorem compile_semicolon {parser1 parser2 : DAParser}
    (h1 : daParserCompile host (some s1) actions = some parser1)
    (hlast : (scanAll s1).getLast? ≠ some tSemicolon) (hend : ¬ EndsEarly host s1)
    (h2 : daParserCompile host (some s2) actions = some parser2)
    (hn : look (tokens host s2) ≠ .NUMBER) :
    daParserCompile host (some (s1 ++ ch ';' :: s2)) actions =
      some ⟨actions, daParserGetResult parser1 ++ daParserGetResult parser2⟩ := by
  obtain ⟨pol1, hd1, hv1, rfl⟩ := daParserCompile_eq_some.1 h1
  obtain ⟨pol2, hd2, hv2, rfl⟩ := daParserCompile_eq_some.1 h2
  obtain ⟨hm, hne, -⟩ := hd2.more hn
  rw [← tokens_eq_scanAll (not_endsEarly.1 hend)] at hlast
  have hd := hd1.append hlast hm fun _ => hne
  rw [← tokens_semicolon hend hd1] at hd
  have hv : (⟨pol1.version, pol1.entries ++ pol2.entries⟩ : PolicySyntax).Valid actions :=
    ⟨hv1.version, List.forall_mem_append.2 ⟨hv1.known, hv2.known⟩⟩
  rw [daParserCompile_of_derives hd hv]
  simp only [PolicySyntax.result, daParserGetResult, List.map_append]

/-- Two texts compose when the first is read to its end, or else when the second one
has nothing to add. -/
theorem composes_iff {parser1 parser2 : DAParser}
    (h1 : daParserCompile host (some s1) actions = some parser1)
    (hlast : (scanAll s1).getLast? ≠ some tSemicolon)
    (h2 : daParserCompile host (some s2) actions = some parser2)
    (hn : look (tokens host s2) ≠ .NUMBER) :
    Composes g host actions s1 s2 ↔
      ¬ EndsEarly host s1 ∨ Repeats g (daParserGetResult parser2) (daParserGetResult parser1) := by
  have hnew1 := newFull_compiled (g := g) h1
  have hnew2 := newFull_compiled (g := g) h2
  by_cases hend : EndsEarly host s1
  · have hnew : daPolicyNewFull g host (some (s1 ++ ch ';' :: s2)) actions =
        some (compiled g (daParserGetResult parser1)) :=
      newFull_compiled ((daParserCompile_congr (tokens_of_endsEarly hend s2)).trans h1)
    have hrep := repeats_iff (g := g) (daParserCompile_idsOk h1) (daParserCompile_idsOk h2)
    simp only [Composes, hnew, hnew1, hnew2, Option.some.injEq, exists_eq_left', hend,
      not_true_eq_false, false_or]
    exact hrep
  · refine iff_of_true ?_ (Or.inl hend)
    refine ⟨_, newFull_compiled (compile_semicolon h1 hlast hend h2 hn), ?_⟩
    intro cred action arg default
    rw [hnew1, hnew2]
    exact daPolicyCheck_append _ _ cred action arg default

/-- A policy of one rule that is for everyone. -/
def wildcardText : DAAccess → CString
  | .ALLOW => str "*=allow"
  | .DENY => str "*=deny"

theorem compile_wildcard (host : Host) (actions : Option (List DAAction)) (a : DAAccess) :
    look (tokens host (wildcardText a)) ≠ .NUMBER ∧
      daParserCompile host (some (wildcardText a)) actions = some ⟨actions, [⟨.null, a⟩]⟩ := by
  obtain ⟨ts, hts, ha⟩ : ∃ ts, scanAll (wildcardText a) = tStar :: tEqual :: ts ∧
      DerivesAccess ts a := by
    cases a
    · exact ⟨[.DENY], by decide +kernel, .deny⟩
    · exact ⟨[.ALLOW], by decide +kernel, .allow⟩
  have hd : DerivesPolicy (scanAll (wildcardText a)) ⟨none, [.wildcard a]⟩ := by
    rw [hts, ← List.append_nil (tStar :: tEqual :: ts)]
    exact .entries (.wildcard ha) .none
  have htok : tokens host (wildcardText a) = scanAll (wildcardText a) := by
    refine tokens_eq_scanAll ?_
    rw [hts]
    cases ha <;> simp [isEndOfInput, ch]
  rw [← htok] at hd
  refine ⟨?_, daParserCompile_of_derives hd (.of_known (by simp [EntrySyntax.Known]))⟩
  rw [htok, hts]
  exact (by decide : Terminal.star ≠ .NUMBER)

theorem lastAccess_wildcard (a : DAAccess) (pc : DAPolicyCheck) :
    lastAccess g [⟨.null, a⟩] pc = some a := by
  rw [lastAccess, List.filter_eq_self.2]
  · rfl
  · simp [DAParserExpr.Holds]

/-- A text composes with every other one exactly when it is read to its end; with a
given one also where that repeats it. -/
theorem texts_compose_iff (g : GPattern σ) (host : Host) (actions : Option (List DAAction))
    (s1 : CString) (parser1 : DAParser)
    (h1 : daParserCompile host (some s1) actions = some parser1)
    (hlast : (scanAll s1).getLast? ≠ some tSemicolon) :
    ((∀ s2, (daParserCompile host (some s2) actions).isSome → look (tokens host s2) ≠ .NUMBER →
      Composes g host actions s1 s2) ↔ ¬ EndsEarly host s1) ∧
    ∀ s2 parser2, daParserCompile host (some s2) actions = some parser2 →
      look (tokens host s2) ≠ .NUMBER →
      (Composes g host actions s1 s2 ↔
        ¬ EndsEarly host s1 ∨
          Repeats g (daParserGetResult parser2) (daParserGetResult parser1)) := by
  refine ⟨⟨?_, ?_⟩, fun s2 parser2 h2 hn => composes_iff h1 hlast h2 hn⟩
  · intro h hend
    have hrep : ∀ a pc, NonRoot pc.cred → lastAccess g (daParserGetResult parser1) pc = some a := by
      intro a pc hroot
      obtain ⟨hn, h2⟩ := compile_wildcard host actions a
      have hc := (composes_iff h1 hlast h2 hn).1 (h _ (by rw [h2]; rfl) hn)
      exact hc.resolve_left (not_not.2 hend) pc hroot a (lastAccess_wildcard a pc)
    have hnone : NonRoot none := by simp [NonRoot]
    have hallow := hrep .ALLOW ⟨none, 0, none⟩ hnone
    rw [hrep .DENY ⟨none, 0, none⟩ hnone] at hallow
    cases hallow
  · intro hend s2 h2 hn
    obtain ⟨parser2, h2⟩ := Option.isSome_iff_exists.1 h2
    exact (composes_iff h1 hlast h2 hn).2 (Or.inl hend)

/-- Two texts with a semicolon between quotes in the first. -/
theorem texts_compose_iff_quoted :
    (∀ s2, (daParserCompile exampleHost (some s2) (some exampleActions)).isSome →
      look (tokens exampleHost s2) ≠ .NUMBER →
      Composes globPattern exampleHost (some exampleActions) (str "1; Call(';')=deny") s2) ↔
      ¬ EndsEarly exampleHost (str "1; Call(';')=deny") :=
  (texts_compose_iff globPattern exampleHost (some exampleActions) (str "1; Call(';')=deny")
    ⟨some exampleActions, [⟨.custom 7 (some (str ";")), .DENY⟩]⟩ (by decide +kernel)
    (by decide +kernel)).1

/-- The second rule is lost behind a no-break space. -/
theorem texts_compose_fails :
    ¬ Composes globPattern exampleHost none (str "user(1)" ++ [0xC2, 0xA0]) (str "*=deny") ∧
      (daParserCompile exampleHost (some (str "user(1)" ++ [0xC2, 0xA0])) none).isSome ∧
      (scanAll (str "user(1)" ++ [0xC2, 0xA0])).getLast? ≠ some tSemicolon ∧
      (daParserCompile exampleHost (some (str "*=deny")) none).isSome ∧
      look (tokens exampleHost (str "*=deny")) ≠ .NUMBER := by
  refine ⟨?_, by decide +kernel, by decide +kernel, by decide +kernel, by decide +kernel⟩
  intro h
  obtain ⟨policy, hnew, h⟩ := h
  have hpolicy : daPolicyNewFull globPattern exampleHost
      (some (str "user(1)" ++ [0xC2, 0xA0] ++ ch ';' :: str "*=deny")) none =
      some ⟨[⟨.ALLOW, .identity 1 (-1)⟩]⟩ := by decide +kernel
  obtain rfl := Option.some.inj (hpolicy.symm.trans hnew)
  have h := h none 0 none .ALLOW
  revert h
  decide +kernel

/-! Version and final separator. -/

theorem char_not_number (c : UInt8) : (Token.char c).terminal ≠ .NUMBER := by
  intro h
  obtain ⟨n, hn⟩ := Token.of_terminal_eq h
  cases hn

/-- A number is read from a digit only. -/
theorem look_scanAll (h : ∀ c, (x.dropWhile isSpace).head? = some c → isDigit c = false) :
    look (scanAll x) ≠ .NUMBER := by
  have hblank : scanAll x = scanAll (x.dropWhile isSpace) := by
    have hscan := scan_blanks init_unquoted (List.all_takeWhile (l := x)) (x.dropWhile isSpace)
    rw [List.takeWhile_append_dropWhile] at hscan
    unfold scanAll
    rw [hscan]
  rw [hblank]
  have hsp := List.head?_dropWhile_not isSpace x
  cases hx : x.dropWhile isSpace with
  | nil => decide
  | cons c y =>
    rw [hx] at h hsp
    have hd : isDigit c = false := h c rfl
    have hs : isSpace c = false := by simpa using hsp
    obtain ⟨⟨k, r⟩, hsel⟩ := Option.isSome_iff_exists.1 (scanRules_isSome .init c y)
    obtain ⟨hk, hr, hm, -⟩ := select_spec hsel
    rw [scanAll, scan_step hsel]
    obtain ⟨k, rfl⟩ : ∃ j, k = j + 1 := ⟨k - 1, by omega⟩
    simp only [ScanState.init, scanRules, allRules] at hr
    simp at hr
    -- numbers and blanks do not match here, every other rule has its own token
    rcases hr with rfl | rfl | rfl | rfl | rfl | rfl | rfl | rfl
    case inr.inr.inr.inr.inl => simp [Pattern.longest, hd] at hm
    case inr.inr.inr.inr.inr.inr.inl => simp [Pattern.longest, hs] at hm
    case inr.inr.inr.inr.inr.inr.inr => exact char_not_number c
    all_goals exact Terminal.noConfusion

theorem look_tokens (h : look (scanAll x) ≠ .NUMBER) : look (tokens host x) ≠ .NUMBER := by
  unfold tokens
  cases hx : scanAll x with
  | nil => exact (by decide : look [] ≠ .NUMBER)
  | cons t ts =>
    rw [hx] at h
    by_cases ht : isEndOfInput host t = true
    · rw [List.takeWhile_cons_of_neg (by simp [ht])]
      decide
    · rw [List.takeWhile_cons_of_pos (by simpa using ht)]
      exact h

/-- What follows a version is a policy without one. -/
theorem DerivesPolicy.of_version {n : ℤ} (h : DerivesPolicy (.NUMBER n :: tSemicolon :: us) pol) :
    DerivesPolicy us ⟨none, pol.entries⟩ := by
  generalize hts : Token.NUMBER n :: tSemicolon :: us = ts at h
  cases h with
  | version n => cases hts
  | versionEntries n he hm =>
    simp only [List.cons_append, List.cons.injEq, true_and] at hts
    rw [hts.2]
    exact .entries he hm
  | @entries ts e us' es he hm =>
    have hl := he.look_mem us'
    rw [← hts] at hl
    exact absurd (show Terminal.NUMBER ∈ entryFirst from hl) (by decide)

theorem tokens_version (host : Host) (y : CString) :
    tokens host (str "1;" ++ y) = .NUMBER 1 :: tSemicolon :: tokens host y := by
  have hall : scanAll (str "1") = [.NUMBER 1] := by decide +kernel
  have htok : tokens host (str "1") = [.NUMBER 1] := by
    rw [tokens_eq_scanAll, hall]
    rw [hall]
    simp [isEndOfInput]
  have hend : ¬ EndsEarly host (str "1") := by
    rw [not_endsEarly, hall]
    simp [isEndOfInput]
  have hd : DerivesPolicy (tokens host (str "1")) ⟨some 1, []⟩ := by
    rw [htok]
    exact .version 1
  rw [show str "1;" ++ y = str "1" ++ ch ';' :: y by simp [str], tokens_semicolon hend hd, htok]
  rfl

theorem compile_version (hn : look (tokens host x) ≠ .NUMBER) :
    daParserCompile host (some (str "1;" ++ x)) actions =
      daParserCompile host (some x) actions := by
  refine Option.ext fun parser => ?_
  rw [daParserCompile_eq_some, daParserCompile_eq_some, tokens_version]
  apply Iff.intro
  · intro h
    obtain ⟨pol, hd, hv, hp⟩ := h
    exact ⟨_, hd.of_version, .of_known hv.known, hp⟩
  · intro h
    obtain ⟨pol, hd, hv, hp⟩ := h
    obtain ⟨hm, hne, -⟩ := hd.more hn
    have hd' : DerivesPolicy _ ⟨some 1, pol.entries⟩ :=
      (DerivesPolicy.version 1).append (by decide) hm fun _ => hne
    exact ⟨_, hd', ⟨by simp [FORMAT_VERSION], hv.known⟩, hp⟩

theorem compile_final {parser : DAParser}
    (h : daParserCompile host (some x) actions = some parser)
    (hne : daParserGetResult parser ≠ []) (hlast : (scanAll x).getLast? ≠ some tSemicolon) :
    daParserCompile host (some (x ++ str ";")) actions = some parser := by
  by_cases hend : EndsEarly host x
  · exact (daParserCompile_congr (tokens_of_endsEarly hend [])).trans h
  · obtain ⟨pol, hd, hv, rfl⟩ := daParserCompile_eq_some.1 h
    have hpol : pol.entries ≠ [] := by
      intro hnil
      apply hne
      simp [daParserGetResult, PolicySyntax.result, hnil]
    rw [← tokens_eq_scanAll (not_endsEarly.1 hend)] at hlast
    have hd' := hd.append hlast .final fun hnil => absurd hnil hpol
    have htok := tokens_semicolon hend hd []
    rw [show tokens host [] = [] from rfl] at htok
    rw [← htok, List.append_nil] at hd'
    exact daParserCompile_of_derives hd' hv

/-- What is compiled from the same entries is the same. -/
theorem textsAgree_of_compile (hg : Equivalence g.Equal)
    (h : daParserCompile host (some x) actions = daParserCompile host (some y) actions) :
    TextsAgree g host actions x y := by
  refine ⟨fun spec _ hspec => ?_, fun mem a1 a2 h1 h2 => ?_⟩
  · obtain ⟨parser, hparser⟩ := Option.isSome_iff_exists.1 hspec
    rw [newFull_compiled hparser]
    rfl
  have hnew : daPolicyNewFull g host (some x) actions =
      daPolicyNewFull g host (some y) actions := by
    rw [daPolicyNewFull, h]
    rfl
  have hmem : mem a1 = mem a2 := Option.some.inj (h1.symm.trans (hnew.trans h2))
  refine ⟨(daPolicyEqual_eq hg mem _ _).2 (Or.inr ⟨a1, a2, rfl, rfl, ?_⟩), ?_⟩
  · rw [hmem]
    exact entriesEqual_refl hg _
  · intro cred action arg default
    rw [hmem]

/-- The version and a semicolon at the end change neither what is accepted nor what it
means. -/
theorem framing (g : GPattern σ) (hg : Equivalence fun p q => g.gPatternSpecEqual p q = true)
    (host : Host) (actions : Option (List DAAction)) (s : CString) :
    ((∀ c, (s.dropWhile isSpace).head? = some c → isDigit c = false) →
      ((daParserCompile host (some (str "1;" ++ s)) actions).isSome ↔
        (daParserCompile host (some s) actions).isSome) ∧
      TextsAgree g host actions (str "1;" ++ s) s) ∧
    ∀ parser, daParserCompile host (some s) actions = some parser →
      daParserGetResult parser ≠ [] → (scanAll s).getLast? ≠ some tSemicolon →
      (daParserCompile host (some (s ++ str ";")) actions).isSome ∧
      TextsAgree g host actions (s ++ str ";") s := by
  refine ⟨?_, ?_⟩
  · intro hs
    have hcompile : daParserCompile host (some (str "1;" ++ s)) actions =
        daParserCompile host (some s) actions :=
      compile_version (look_tokens (look_scanAll hs))
    rw [hcompile]
    exact ⟨Iff.rfl, textsAgree_of_compile hg hcompile⟩
  · intro parser h hne hlast
    have hcompile := compile_final h hne hlast
    rw [hcompile]
    exact ⟨rfl, textsAgree_of_compile hg (hcompile.trans h.symm)⟩

theorem framing_example :
    TextsAgree globPattern exampleHost none (str "1;" ++ str " user(1)") (str " user(1)") ∧
      TextsAgree globPattern exampleHost none (str " user(1)" ++ str ";") (str " user(1)") := by
  obtain ⟨hversion, hfinal⟩ :=
    framing globPattern globPattern_equivalence exampleHost none (str " user(1)")
  refine ⟨(hversion (by decide +kernel)).2, ?_⟩
  exact (hfinal ⟨none, [⟨.identity 1 (-1), .ALLOW⟩]⟩ (by decide +kernel) (by decide)
    (by decide +kernel)).2

end DbusAccess
