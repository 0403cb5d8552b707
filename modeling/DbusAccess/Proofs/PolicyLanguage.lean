import DbusAccess.Proofs.ParserRuns
import DbusAccess.Proofs.ScannerRuns

/-! The language of policies: its grammar is unambiguous, and the parser accepts
exactly the token sequences that derive from it. -/

namespace DbusAccess

open ShiftReduce PolicyState

variable {us us' r r' : List Token}

/-! Unambiguity. Each fact is about phrases at the front of the same input. -/

theorem DerivesId.unique {u u' : IdSyntax} (h : DerivesId us u) (h' : DerivesId us' u')
    (he : us ++ r = us' ++ r') : us = us' ∧ u = u' ∧ r = r' := by
  cases h <;> cases h' <;> simp_all

theorem DerivesParam.unique {x x' : CString} (h : DerivesParam us x) (h' : DerivesParam us' x')
    (he : us ++ r = us' ++ r') : us = us' ∧ x = x' ∧ r = r' := by
  cases h <;> cases h' <;> simp_all

theorem DerivesAccess.unique {a a' : DAAccess} (h : DerivesAccess us a)
    (h' : DerivesAccess us' a') (he : us ++ r = us' ++ r') : us = us' ∧ a = a' ∧ r = r' := by
  cases h <;> cases h' <;> simp_all

theorem DerivesTerm.unique {t t' : TermSyntax} (h : DerivesTerm us t) (h' : DerivesTerm us' t')
    (he : us ++ r = us' ++ r') : us = us' ∧ t = t' ∧ r = r' := by
  cases h with
  | user hu =>
    cases h' with
    | user hu' =>
      simp only [List.cons_append, List.append_assoc, List.cons.injEq, true_and] at he
      obtain ⟨rfl, rfl, he⟩ := hu.unique hu' he
      exact ⟨rfl, rfl, by simpa using he⟩
    | userGroup hu' _ =>
      simp only [List.cons_append, List.append_assoc, List.cons.injEq, true_and] at he
      obtain ⟨-, -, he⟩ := hu.unique hu' he
      simp [ch] at he
    | _ => simp at he
  | userGroup hu hg =>
    cases h' with
    | user hu' =>
      simp only [List.cons_append, List.append_assoc, List.cons.injEq, true_and] at he
      obtain ⟨-, -, he⟩ := hu.unique hu' he
      simp [ch] at he
    | userGroup hu' hg' =>
      simp only [List.cons_append, List.append_assoc, List.cons.injEq, true_and] at he
      obtain ⟨rfl, rfl, he⟩ := hu.unique hu' he
      simp only [List.cons.injEq, true_and] at he
      obtain ⟨rfl, rfl, he⟩ := hg.unique hg' he
      exact ⟨rfl, rfl, by simpa using he⟩
    | _ => simp at he
  | group hg =>
    cases h' with
    | group hg' =>
      simp only [List.cons_append, List.append_assoc, List.cons.injEq, true_and] at he
      obtain ⟨rfl, rfl, he⟩ := hg.unique hg' he
      exact ⟨rfl, rfl, by simpa using he⟩
    | _ => simp at he
  | action name =>
    cases h' with
    | action name' => simp_all
    | actionParam name' hx' => cases hx' <;> simp at he
    | _ => simp at he
  | actionParam name hx =>
    cases h' with
    | action name' => cases hx <;> simp at he
    | actionParam name' hx' =>
      simp only [List.cons_append, List.append_assoc, List.cons.injEq, true_and] at he
      obtain ⟨hn, he⟩ := he
      obtain ⟨rfl, rfl, he⟩ := hx.unique hx' he
      exact ⟨by rw [hn], by rw [Token.ID.inj hn], by simpa using he⟩
    | _ => simp at he

/-- What a phrase starts with; only an expression can start with an operator. -/
theorem DerivesExpr.look_mem {l : Level} {x : ExprSyntax} (h : DerivesExpr l us x)
    (r : List Token) : look (us ++ r) ∈ exprFirst ∧ (l = .P → look (us ++ r) ≠ .bang) := by
  induction h generalizing r with
  | term ht => cases ht <;> simp [exprFirst, Token.terminal]
  | paren => simp [exprFirst, Token.terminal, ch]
  | prim _ ih => exact ⟨(ih r).1, by simp⟩
  | not => simp [exprFirst, Token.terminal, ch]
  | or _ _ ih _ => rw [List.append_assoc]; exact ⟨(ih _).1, by simp⟩
  | and _ _ ih _ => rw [List.append_assoc]; exact ⟨(ih _).1, by simp⟩

theorem DerivesExpr.not_bang {x : ExprSyntax} (h : DerivesExpr .P us x)
    (he : us ++ r = tBang :: r') : False := by
  have := (h.look_mem r).2 rfl
  rw [he] at this
  exact this rfl

/-- Induction on the first derivation, cases of the second. An operator that one
of them has, the other has too, as neither is followed by one. -/
theorem DerivesExpr.unique {l : Level} {x x' : ExprSyntax} (h : DerivesExpr l us x)
    (h' : DerivesExpr l us' x') (he : us ++ r = us' ++ r') (hr : l = .E → Stops r ∧ Stops r') :
    us = us' ∧ x = x' ∧ r = r' := by
  induction h generalizing us' x' r r' with
  | term ht =>
    cases h' with
    | term ht' =>
      obtain ⟨hu, rfl, hr⟩ := ht.unique ht' he
      exact ⟨hu, rfl, hr⟩
    | paren => cases ht <;> simp at he
  | paren hx ih =>
    cases h' with
    | term ht' => cases ht' <;> simp at he
    | paren hx' =>
      simp only [List.cons_append, List.append_assoc, List.cons.injEq, true_and,
        List.nil_append] at he
      have hstop : ∀ q, Stops (tRparen :: q) := fun q => stops_cons (by decide)
      obtain ⟨rfl, rfl, he⟩ := ih hx' he fun _ => ⟨hstop _, hstop _⟩
      exact ⟨rfl, rfl, (List.cons.inj he).2⟩
  | prim hx ih =>
    cases h' with
    | prim hx' => exact ih hx' he nofun
    | not => exact (hx.not_bang he).elim
    | or hx' _ =>
      rw [List.append_assoc] at he
      obtain ⟨-, -, rfl⟩ := ih hx' he nofun
      exact absurd rfl (hr rfl).1.1
    | and hx' _ =>
      rw [List.append_assoc] at he
      obtain ⟨-, -, rfl⟩ := ih hx' he nofun
      exact absurd rfl (hr rfl).1.2
  | not hx ih =>
    cases h' with
    | not hx' =>
      obtain ⟨rfl, rfl, he⟩ := ih hx' (List.cons.inj he).2 hr
      exact ⟨rfl, rfl, he⟩
    | prim hx' => exact (hx'.not_bang he.symm).elim
    | or hx' _ => exact (hx'.not_bang (by rw [← List.append_assoc]; exact he.symm)).elim
    | and hx' _ => exact (hx'.not_bang (by rw [← List.append_assoc]; exact he.symm)).elim
  | or hx hy ihx ihy =>
    rw [List.append_assoc] at he
    cases h' with
    | prim hx' =>
      obtain ⟨-, -, rfl⟩ := ihx hx' he nofun
      exact absurd rfl (hr rfl).2.1
    | not => exact (hx.not_bang he).elim
    | or hx' hy' =>
      rw [List.append_assoc] at he
      obtain ⟨rfl, rfl, he⟩ := ihx hx' he nofun
      obtain ⟨rfl, rfl, he⟩ := ihy hy' (List.cons.inj he).2 hr
      exact ⟨rfl, rfl, he⟩
    | and hx' _ =>
      rw [List.append_assoc] at he
      obtain ⟨-, -, he⟩ := ihx hx' he nofun
      simp [ch] at he
  | and hx hy ihx ihy =>
    rw [List.append_assoc] at he
    cases h' with
    | prim hx' =>
      obtain ⟨-, -, rfl⟩ := ihx hx' he nofun
      exact absurd rfl (hr rfl).2.2
    | not => exact (hx.not_bang he).elim
    | or hx' _ =>
      rw [List.append_assoc] at he
      obtain ⟨-, -, he⟩ := ihx hx' he nofun
      simp [ch] at he
    | and hx' hy' =>
      rw [List.append_assoc] at he
      obtain ⟨rfl, rfl, he⟩ := ihx hx' he nofun
      obtain ⟨rfl, rfl, he⟩ := ihy hy' (List.cons.inj he).2 hr
      exact ⟨rfl, rfl, he⟩

theorem DerivesEntry.look_mem {e : EntrySyntax} (h : DerivesEntry us e) (r : List Token) :
    look (us ++ r) ∈ entryFirst := by
  cases h with
  | wildcard => exact List.mem_cons_self ..
  | expr hx => exact List.mem_cons_of_mem _ (hx.look_mem r).1
  | access hx =>
    rw [List.append_assoc]
    exact List.mem_cons_of_mem _ (hx.look_mem _).1

theorem DerivesExpr.not_star {l : Level} {x : ExprSyntax} (h : DerivesExpr l us x)
    (he : us ++ r = tStar :: r') : False := by
  have hl := (h.look_mem r).1
  rw [he] at hl
  exact absurd (show Terminal.star ∈ exprFirst from hl) (by decide)

private theorem not_entryEnds_equal (h : EntryEnds (tEqual :: r)) : False := by
  rcases h with h | h <;> exact absurd (show Terminal.equal = _ from h) (by decide)

theorem DerivesEntry.unique {e e' : EntrySyntax} (h : DerivesEntry us e)
    (h' : DerivesEntry us' e') (he : us ++ r = us' ++ r') (hr : EntryEnds r)
    (hr' : EntryEnds r') : us = us' ∧ e = e' ∧ r = r' := by
  have hq : ∀ q, Stops (tEqual :: q) := fun q => stops_cons (by decide)
  cases h with
  | wildcard ha =>
    cases h' with
    | wildcard ha' =>
      simp only [List.cons_append, List.cons.injEq, true_and] at he
      obtain ⟨rfl, rfl, he⟩ := ha.unique ha' he
      exact ⟨rfl, rfl, he⟩
    | expr hx' => exact (hx'.not_star he.symm).elim
    | access hx' => exact (hx'.not_star (by rw [← List.append_assoc]; exact he.symm)).elim
  | expr hx =>
    cases h' with
    | wildcard => exact (hx.not_star he).elim
    | expr hx' =>
      obtain ⟨rfl, rfl, he⟩ := hx.unique hx' he fun _ => ⟨hr.stops, hr'.stops⟩
      exact ⟨rfl, rfl, he⟩
    | access hx' =>
      rw [List.append_assoc] at he
      obtain ⟨-, -, rfl⟩ := hx.unique hx' he fun _ => ⟨hr.stops, hq _⟩
      exact (not_entryEnds_equal hr).elim
  | access hx ha =>
    rw [List.append_assoc] at he
    cases h' with
    | wildcard => exact (hx.not_star he).elim
    | expr hx' =>
      obtain ⟨-, -, rfl⟩ := hx.unique hx' he fun _ => ⟨hq _, hr'.stops⟩
      exact (not_entryEnds_equal hr').elim
    | access hx' ha' =>
      rw [List.append_assoc] at he
      obtain ⟨rfl, rfl, he⟩ := hx.unique hx' he fun _ => ⟨hq _, hq _⟩
      obtain ⟨rfl, rfl, he⟩ := ha.unique ha' (List.cons.inj he).2
      exact ⟨rfl, rfl, he⟩

theorem DerivesMore.unique {es es' : List EntrySyntax} (h : DerivesMore us es)
    (h' : DerivesMore us es') : es = es' := by
  induction h generalizing es' with
  | none =>
    generalize hu : ([] : List Token) = us' at h'
    cases h' with
    | none => rfl
    | final => simp at hu
    | entry => simp at hu
  | final =>
    generalize hu : [tSemicolon] = us' at h'
    cases h' with
    | none => simp at hu
    | final => rfl
    | @entry ts e us es he hm =>
      have hl := he.look_mem us
      rw [List.cons_append] at hu
      rw [← (List.cons.inj hu).2] at hl
      exact absurd hl (by decide)
  | @entry ts e us es he hm ih =>
    generalize hu : tSemicolon :: ts ++ us = us' at h'
    cases h' with
    | none => simp at hu
    | final =>
      have hl := he.look_mem us
      rw [List.cons_append] at hu
      rw [(List.cons.inj hu).2] at hl
      exact absurd hl (by decide)
    | entry he' hm' =>
      obtain ⟨-, rfl, rfl⟩ := he.unique he' (List.cons.inj hu).2 hm.entryEnds hm'.entryEnds
      rw [ih hm']

private theorem number_not_entry {e : EntrySyntax} {n : ℤ} (h : DerivesEntry us e)
    (he : us ++ r = .NUMBER n :: r') : False := by
  have hl := h.look_mem r
  rw [he] at hl
  exact absurd hl (by simp [entryFirst, exprFirst, Token.terminal])

/-- No token sequence is two different policies. -/
theorem DerivesPolicy.unique {p p' : PolicySyntax} (h : DerivesPolicy us p)
    (h' : DerivesPolicy us p') : p = p' := by
  cases h with
  | version n =>
    generalize hu : [Token.NUMBER n] = us' at h'
    cases h' with
    | version n' => rw [Token.NUMBER.inj (List.cons.inj hu).1]
    | versionEntries => simp at hu
    | entries he' => exact (number_not_entry he' hu.symm).elim
  | @versionEntries n ts e us es he hm =>
    generalize hu : Token.NUMBER n :: tSemicolon :: ts ++ us = us' at h'
    cases h' with
    | version n' => simp at hu
    | versionEntries n' he' hm' =>
      simp only [List.cons_append, List.cons.injEq, true_and] at hu
      obtain ⟨hn, hu⟩ := hu
      obtain ⟨-, rfl, rfl⟩ := he.unique he' hu hm.entryEnds hm'.entryEnds
      rw [Token.NUMBER.inj hn, hm.unique hm']
    | entries he' => exact (number_not_entry he' hu.symm).elim
  | @entries ts e us es he hm =>
    generalize hu : ts ++ us = us' at h'
    cases h' with
    | version n' => exact (number_not_entry he hu).elim
    | versionEntries n' he' hm' => exact (number_not_entry he hu).elim
    | entries he' hm' =>
      obtain ⟨-, rfl, rfl⟩ := he.unique he' hu hm.entryEnds hm'.entryEnds
      rw [hm.unique hm']

/-! The runs of the parser come to an end. -/

/-- Rank of the nonterminals: unit rules go up. -/
def policyLevel : Nonterminal → ℕ
  | .version => 1
  | .entries => 1
  | .entry => 2
  | .expr => 3
  | .term => 4
  | _ => 0

theorem policyGrammar_ranked : Ranked (g := policyGrammar) policyLevel 4 where
  nonempty r := by cases r <;> simp [policyGrammar, GrammarRule.rhs]
  unit r Y h := by
    cases r <;> simp [policyGrammar, GrammarRule.rhs] at h <;> subst h <;> decide
  bound X := by cases X <;> decide

theorem potential_start (p : DAParser) (ts : List Token) :
    potential policyGrammar policyLevel 4
      (⟨[fr .start .undefined], ts, p⟩ : PConfig) < parseFuel ts := by
  have h : unitRank policyGrammar policyLevel PolicyState.start.items = 0 := by decide +kernel
  simp only [potential, parseFuel, fr, List.length_singleton, h]
  omega

theorem daParserParse_eq (host : Host) (p : DAParser) (ts : List Token) :
    daParserParse host p ts =
      run policyGrammar (policySemantics host) (parseFuel ts) ⟨[fr .start .undefined], ts, p⟩ := by
  rw [daParserParse, initial_eq]
  rfl

/-- The bound on the steps is never reached. -/
theorem daParserParse_terminates (host : Host) (p : DAParser) (ts : List Token) :
    daParserParse host p ts ≠ .outOfFuel := by
  rw [daParserParse_eq]
  exact run_ne_outOfFuel _ policyGrammar_ranked (potential_start p ts)

theorem daParserParse_of_derives (host : Host) {p : DAParser} {ts : List Token}
    {pol : PolicySyntax} (h : DerivesPolicy ts pol) (hv : pol.Valid p.actions) :
    daParserParse host p ts = .accept (daParserAddEntries p (pol.result host p.actions)) := by
  have h : PAccepts host ⟨[fr .start .undefined], ts, p⟩ _ := policy_accepts h hv
  obtain ⟨c, hs, ha⟩ := h
  rw [daParserParse_eq]
  exact run_accept policyGrammar_ranked (potential_start p ts) hs ha

theorem daParserParse_of_not_derives (host : Host) {p : DAParser} {ts : List Token}
    (h : ¬ ∃ pol, DerivesPolicy ts pol ∧ pol.Valid p.actions) :
    daParserParse host p ts = .abort := by
  have ha : PAborts host ⟨[fr .start .undefined], ts, p⟩ := (policy_or_abort ts).resolve_left h
  rw [daParserParse_eq]
  exact run_abort policyGrammar_ranked (potential_start p ts) ha

/-! The compiler. -/

theorem daParserCompile_of_derives {host : Host} {spec : CString}
    {actions : Option (List DAAction)} {pol : PolicySyntax}
    (h : DerivesPolicy (tokens host spec) pol) (hv : pol.Valid actions) :
    daParserCompile host (some spec) actions = some ⟨actions, pol.result host actions⟩ := by
  have hp := daParserParse_of_derives host (p := ⟨actions, []⟩) h hv
  simp only [daParserCompile, hp, daParserAddEntries, List.nil_append]

/-- Without a version only the actions count. -/
theorem PolicySyntax.Valid.of_known {actions : Option (List DAAction)} {es : List EntrySyntax}
    (h : ∀ e ∈ es, e.Known actions) : (⟨none, es⟩ : PolicySyntax).Valid actions :=
  ⟨by simp, h⟩

theorem daParserCompile_of_not_derives {host : Host} {spec : CString}
    {actions : Option (List DAAction)}
    (h : ¬ ∃ pol, DerivesPolicy (tokens host spec) pol ∧ pol.Valid actions) :
    daParserCompile host (some spec) actions = none := by
  have hp := daParserParse_of_not_derives host (p := ⟨actions, []⟩) h
  simp only [daParserCompile, hp]

theorem daParserCompile_eq_some {host : Host} {spec : CString}
    {actions : Option (List DAAction)} {parser : DAParser} :
    daParserCompile host (some spec) actions = some parser ↔
      ∃ pol, DerivesPolicy (tokens host spec) pol ∧ pol.Valid actions ∧
        parser = ⟨actions, pol.result host actions⟩ := by
  apply Iff.intro
  · intro h
    by_cases hd : ∃ pol, DerivesPolicy (tokens host spec) pol ∧ pol.Valid actions
    · obtain ⟨pol, hd, hv⟩ := hd
      rw [daParserCompile_of_derives hd hv] at h
      exact ⟨pol, hd, hv, (Option.some.inj h).symm⟩
    · rw [daParserCompile_of_not_derives hd] at h
      cases h
  · intro h
    obtain ⟨pol, hd, hv, rfl⟩ := h
    exact daParserCompile_of_derives hd hv

theorem daParserCompile_isSome {host : Host} {spec : CString} {actions : Option (List DAAction)} :
    (daParserCompile host (some spec) actions).isSome ↔
      ∃ pol, DerivesPolicy (tokens host spec) pol ∧ pol.Valid actions := by
  rw [Option.isSome_iff_exists]
  apply Iff.intro
  · rintro ⟨parser, hc⟩
    obtain ⟨pol, hd, hv, -⟩ := daParserCompile_eq_some.1 hc
    exact ⟨pol, hd, hv⟩
  · rintro ⟨pol, hd, hv⟩
    exact ⟨_, daParserCompile_of_derives hd hv⟩

/-- Every policy is read to its end. -/
theorem DerivesPolicy.not_endsEarly {host : Host} {spec : CString} {pol : PolicySyntax}
    (h : DerivesPolicy (scanAll spec) pol) : ¬ EndsEarly host spec :=
  DbusAccess.not_endsEarly.2 (h.no_end host)

/-- The parser accepts exactly its grammar, and builds the one policy that the text is,
unless the text has a byte that is taken for the end of input behind what is a policy by
itself. -/
theorem followsGrammar_iff (host : Host) (actions : Option (List DAAction)) (spec : CString) :
    FollowsGrammar host actions spec ↔ ¬ EndsEarly host spec ∨
      ¬ ∃ pol, DerivesPolicy (tokens host spec) pol ∧ pol.Valid actions := by
  apply Iff.intro
  · intro h
    refine Classical.not_and_iff_not_or_not.1 fun ⟨hend, hpol⟩ => ?_
    obtain ⟨pol, hd, -⟩ := h.accepts.1 (daParserCompile_isSome.2 hpol)
    exact hd.not_endsEarly hend
  · intro h
    refine ⟨?_, fun parser pol hc hd => ?_, fun p q hp hq => hp.unique hq⟩
    · by_cases hend : EndsEarly host spec
      · refine iff_of_false ?_ fun ⟨pol, hd, _⟩ => hd.not_endsEarly hend
        rw [daParserCompile_isSome]
        exact h.resolve_left (not_not.2 hend)
      · rw [daParserCompile_isSome, tokens_eq_scanAll (not_endsEarly.1 hend)]
    · obtain ⟨pol', hd', -, rfl⟩ := daParserCompile_eq_some.1 hc
      rw [tokens_eq_scanAll (hd.no_end host)] at hd'
      rw [hd.unique hd']
      rfl

def exampleHost : Host where
  charSigned := true
  getpwnam user := if user = str "root" then some 0 else none
  getgrnam _ := none

/-- What stands behind a no-break space is never looked at. -/
theorem followsGrammar_fails :
    ¬ FollowsGrammar exampleHost none (str "user(1)" ++ [0xC2, 0xA0] ++ str ";*=deny") := by
  intro h
  obtain ⟨pol, hd, -⟩ := h.accepts.1 (by decide +kernel)
  have hbyte : (Token.char 0xC2) ∈ scanAll (str "user(1)" ++ [0xC2, 0xA0] ++ str ";*=deny") := by
    decide +kernel
  have hend : EndsEarly exampleHost (str "user(1)" ++ [0xC2, 0xA0] ++ str ";*=deny") :=
    ⟨_, hbyte, rfl⟩
  exact hd.not_endsEarly hend

end DbusAccess
