import DbusAccess.Proofs.ParserSteps

/-! Runs of the generated parser over expressions, entries and whole policies.
For each phrase there are two facts: the parser gets past every derivation of it
with the value it stands for, and it gives up where no derivation is ahead. -/

namespace DbusAccess

open ShiftReduce PolicyState

variable {host : Host} {s s' b : PolicyState} {v w : YYSTYPE} {stk : List PFrame}
  {ts : List Token} {p : DAParser}

/-- An operator to the right would make the expression longer. -/
def Stops (ts : List Token) : Prop := look ts ≠ .bar ∧ look ts ≠ .amp

theorem stops_cons {t : Token} (h : t.terminal ≠ .bar ∧ t.terminal ≠ .amp) : Stops (t :: ts) := h

theorem next_operator (hs : s.afterExpr = some s') :
    s'.next (.t .bar) = some .exprBar ∧ s'.next (.t .amp) = some .exprAmp := by
  cases s <;> simp [afterExpr] at hs <;> subst hs <;> exact ⟨rfl, rfl⟩

/-- A complete operation is reduced exactly when no operator follows. -/
theorem act_stops {r : GrammarRule} (hr : (s, r) ∈ [(.bangExpr, .exprNot), (.exprBarExpr, .exprOr),
    (.exprAmpExpr, .exprAnd)]) (h : Stops ts) : s.act (look ts) = .reduce r := by
  obtain ⟨hb, ha⟩ := h
  simp only [List.mem_cons, Prod.mk.injEq, List.not_mem_nil, or_false] at hr
  rcases hr with ⟨rfl, rfl⟩ | ⟨rfl, rfl⟩ | ⟨rfl, rfl⟩ <;>
    cases hl : look ts <;> first | rfl | exact absurd hl hb | exact absurd hl ha

/-- Induction on the derivation: in each state where an expression can start, the
parser reads a primary, and an expression that no operator follows. -/
theorem expr_steps {l : Level} {us : List Token} {x : ExprSyntax} (hx : DerivesExpr l us x)
    (hk : x.Known p.actions) (hl : l = .E → Stops ts) (hs : s.afterExpr = some s') :
    PSteps host ⟨fr s v :: stk, us ++ ts, p⟩
      ⟨fr s' (.expr (x.tree host p.actions)) :: fr s v :: stk, ts, p⟩ := by
  induction hx generalizing s s' v stk ts with
  | term ht => exact term_steps ht hk hs
  | paren hx ih =>
    simp only [List.cons_append, List.append_assoc, List.nil_append]
    refine (steps_shift (next_exprStart (by decide) hs)).trans ?_
    refine (ih hk (fun _ => stops_cons (by decide)) rfl).trans ?_
    refine (steps_shift rfl).trans ?_
    exact steps_reduce [fr .lparenExpr _, fr .lparen _] (by cases look ts <;> rfl) rfl
      (next_expr hs) rfl
  | prim hx ih => exact ih hk (fun h => absurd h (by decide)) hs
  | not hx ih =>
    rw [List.cons_append]
    refine (steps_shift (next_exprStart (by decide) hs)).trans ?_
    refine (ih hk hl rfl).trans ?_
    exact steps_reduce [fr .bang _] (act_stops (r := .exprNot) (by decide) (hl rfl)) rfl
      (next_expr hs) rfl
  | or hx hy ihx ihy =>
    rw [List.append_assoc, List.cons_append]
    refine (ihx hk.1 (fun h => absurd h (by decide)) hs).trans ?_
    refine (steps_shift (next_operator hs).1).trans ?_
    refine (ihy hk.2 hl rfl).trans ?_
    exact steps_reduce [fr .exprBar _, fr s' _] (act_stops (r := .exprOr) (by decide) (hl rfl)) rfl
      (next_expr hs) rfl
  | and hx hy ihx ihy =>
    rw [List.append_assoc, List.cons_append]
    refine (ihx hk.1 (fun h => absurd h (by decide)) hs).trans ?_
    refine (steps_shift (next_operator hs).2).trans ?_
    refine (ihy hk.2 hl rfl).trans ?_
    exact steps_reduce [fr .exprAmp _, fr s' _] (act_stops (r := .exprAnd) (by decide) (hl rfl)) rfl
      (next_expr hs) rfl

/-- A phrase of known actions at the front of the input, with what follows it. -/
def ExprAhead (l : Level) (actions : Option (List DAAction)) (ts : List Token) : Prop :=
  ∃ us x rest, ts = us ++ rest ∧ us ≠ [] ∧ DerivesExpr l us x ∧ x.Known actions ∧
    (l = .E → Stops rest)

/-- The terminals an expression starts with. -/
def exprFirst : List Terminal := [.bang, .lparen, .USER, .GROUP, .ID]

/-- Inside an expression nothing else is possible. -/
theorem not_first_aborts (hs : s ∈ [.bang, .lparen, .exprBar, .exprAmp])
    (hf : look ts ∉ exprFirst) : PAborts host ⟨fr s v :: stk, ts, p⟩ := by
  apply error_aborts
  have h : ∀ s ∈ [PolicyState.bang, .lparen, .exprBar, .exprAmp], ∀ a ∈ Terminal.all,
      a ∉ exprFirst → s.act a = .error := by decide
  exact h s hs _ (Terminal.mem_all _) hf

private theorem term_ne_nil {us : List Token} {t : TermSyntax} (h : DerivesTerm us t) :
    us ≠ [] := by
  cases h <;> simp

/-- The input, of at most `n` tokens, starts with an expression, or the parser aborts. -/
def ExprOrAbort (host : Host) (p : DAParser) (n : ℕ) : Prop :=
  ∀ {ts : List Token} {s s' : PolicyState} {v : YYSTYPE} {stk : List PFrame}, ts.length ≤ n →
    s.afterExpr = some s' → (look ts ∈ exprFirst ∨ s ∈ [.bang, .lparen, .exprBar, .exprAmp]) →
    ExprAhead .E p.actions ts ∨ PAborts host ⟨fr s v :: stk, ts, p⟩

/-- A primary is a term or an expression in parentheses. -/
theorem prim_or_abort {n : ℕ} {t : Token} (ih : ExprOrAbort host p n) (hn : ts.length ≤ n)
    (hs : s.afterExpr = some s') (hfirst : look (t :: ts) ∈ exprFirst)
    (hbang : t.terminal ≠ .bang) :
    ExprAhead .P p.actions (t :: ts) ∨ PAborts host ⟨fr s v :: stk, t :: ts, p⟩ := by
  by_cases hpar : t.terminal = .lparen
  · obtain rfl := Token.of_terminal_eq hpar
    apply steps_then (steps_shift (next_exprStart (by decide) hs))
    rcases ih hn (s := .lparen) rfl (Or.inr (by decide)) with h | ha
    swap
    · exact Or.inr ha
    obtain ⟨us, x, rest, rfl, -, hx, hk, hst⟩ := h
    apply steps_then (expr_steps hx hk hst rfl)
    by_cases hr : look rest = .rparen
    · cases rest with
      | nil => simp at hr
      | cons t rest =>
        obtain rfl := Token.of_terminal_eq hr
        exact Or.inl ⟨_, _, rest, by simp, by simp, .paren hx, hk, nofun⟩
    · refine Or.inr (error_aborts ?_)
      obtain ⟨hb, ha⟩ := hst rfl
      cases hl : look rest <;>
        first | rfl | exact absurd hl hr | exact absurd hl hb | exact absurd hl ha
  · have hl : look (t :: ts) ∈ [.USER, .GROUP, .ID] := by
      simp only [exprFirst, look_cons, List.mem_cons, hbang, hpar, false_or] at hfirst ⊢
      exact hfirst
    apply (term_or_abort hs hl).imp_left
    rintro ⟨us, t', rest, he, ht, hk⟩
    exact ⟨us, _, rest, he, term_ne_nil ht, .term ht, hk, nofun⟩

/-- A primary, and perhaps an operator and one more expression. -/
theorem operator_or_abort {n : ℕ} (ih : ExprOrAbort host p n) (hs : s.afterExpr = some s')
    {us rest : List Token} {x : ExprSyntax} (hne : us ≠ []) (hx : DerivesExpr .P us x)
    (hk : x.Known p.actions) (hn : rest.length ≤ n) :
    ExprAhead .E p.actions (us ++ rest) ∨ PAborts host ⟨fr s v :: stk, us ++ rest, p⟩ := by
  have hstep : PSteps host ⟨fr s v :: stk, us ++ rest, p⟩
      ⟨fr s' (.expr (x.tree host p.actions)) :: fr s v :: stk, rest, p⟩ :=
    expr_steps hx hk nofun hs
  cases rest with
  | nil => exact Or.inl ⟨us, x, [], rfl, hne, .prim hx, hk, fun _ => ⟨nofun, nofun⟩⟩
  | cons o rest =>
    have hrest : rest.length ≤ n := (Nat.le_succ _).trans hn
    by_cases hbar : o.terminal = .bar
    · obtain rfl := Token.of_terminal_eq hbar
      apply steps_then (hstep.trans (steps_shift (next_operator hs).1))
      apply (ih hrest rfl (Or.inr (by decide))).imp_left
      rintro ⟨us', y, rest', rfl, -, hy, hk', hst⟩
      exact ⟨us ++ tBar :: us', .or x y, rest', by simp, by simp, .or hx hy, ⟨hk, hk'⟩, hst⟩
    · by_cases hamp : o.terminal = .amp
      · obtain rfl := Token.of_terminal_eq hamp
        apply steps_then (hstep.trans (steps_shift (next_operator hs).2))
        apply (ih hrest rfl (Or.inr (by decide))).imp_left
        rintro ⟨us', y, rest', rfl, -, hy, hk', hst⟩
        exact ⟨us ++ tAmp :: us', .and x y, rest', by simp, by simp, .and hx hy, ⟨hk, hk'⟩, hst⟩
      · exact Or.inl ⟨us, x, _, rfl, hne, .prim hx, hk, fun _ => ⟨hbar, hamp⟩⟩

/-- Induction on the length of the input. -/
theorem expr_or_abort (n : ℕ) : ExprOrAbort host p n := by
  induction n with
  | zero =>
    intro ts s s' v stk hn _ hf
    obtain rfl := List.length_eq_zero_iff.1 (Nat.le_zero.1 hn)
    rcases hf with hf | hf
    · exact absurd hf (by decide)
    · exact Or.inr (not_first_aborts hf (by decide))
  | succ n ih =>
    intro ts s s' v stk hn hs hf
    by_cases hfirst : look ts ∈ exprFirst
    swap
    · exact Or.inr (not_first_aborts (hf.resolve_left hfirst) hfirst)
    clear hf
    cases ts with
    | nil => exact absurd hfirst (by decide)
    | cons t ts =>
      have hts : ts.length ≤ n := Nat.le_of_succ_le_succ hn
      by_cases hbang : t.terminal = .bang
      · obtain rfl := Token.of_terminal_eq hbang
        apply steps_then (steps_shift (next_exprStart (by decide) hs))
        apply (ih hts rfl (Or.inr (by decide))).imp_left
        rintro ⟨us, x, rest, rfl, -, hx, hk, hst⟩
        exact ⟨_, _, rest, rfl, by simp, .not hx, hk, hst⟩
      rcases prim_or_abort ih hts hs hfirst hbang with h | ha
      swap
      · exact Or.inr ha
      obtain ⟨us, x, rest, he, hne, hx, hk, -⟩ := h
      have hlen : rest.length ≤ n := by
        have h1 := congrArg List.length he
        have h2 := List.length_pos_iff.2 hne
        simp only [List.length_cons, List.length_append] at h1
        omega
      rw [he]
      exact operator_or_abort ih hs hne hx hk hlen

/-! Entries. -/

theorem access_steps (hb : b.next (.n .access) = some s') {us : List Token} {a : DAAccess}
    (ha : DerivesAccess us a) :
    PSteps host ⟨fr b v :: stk, us ++ ts, p⟩ ⟨fr s' (.access a) :: fr b v :: stk, ts, p⟩ := by
  have hall : ∀ b ∈ PolicyState.all, (b.next (.n .access)).isSome = true →
      b.next (.t .ALLOW) = some .allow ∧ b.next (.t .DENY) = some .deny := by decide
  have hn := hall b b.mem_all (by rw [hb, Option.isSome_some])
  cases ha with
  | allow =>
    exact (steps_shift hn.1).trans (steps_reduce [] (by cases look ts <;> rfl) rfl hb rfl)
  | deny =>
    exact (steps_shift hn.2).trans (steps_reduce [] (by cases look ts <;> rfl) rfl hb rfl)

theorem access_of_terminal {t : Token} (h : t.terminal ∈ [.ALLOW, .DENY]) :
    ∃ a, DerivesAccess [t] a := by
  simp only [List.mem_cons, List.not_mem_nil, or_false] at h
  rcases h with h | h
  · obtain rfl := Token.of_terminal_eq h
    exact ⟨_, .allow⟩
  · obtain rfl := Token.of_terminal_eq h
    exact ⟨_, .deny⟩

/-- What follows does not belong to the entry. -/
def EntryStops (e : EntrySyntax) (ts : List Token) : Prop :=
  match e with
  | .expr _ none => Stops ts ∧ look ts ≠ .equal
  | _ => True

theorem afterExpr_of_entry (hs : s.next (.n .entry) = some s') :
    s.afterExpr = some .entryExpr ∧ s.next (.t .star) = some .star ∧
      (s' = .entry ∨ s' = .entriesEntry) := by
  have hall : ∀ s ∈ PolicyState.all, ∀ s' ∈ s.next (.n .entry),
      s.afterExpr = some .entryExpr ∧ s.next (.t .star) = some .star ∧
        (s' = .entry ∨ s' = .entriesEntry) := by decide
  exact hall s s.mem_all s' hs

theorem entry_steps (hs : s.next (.n .entry) = some s') {us : List Token} {e : EntrySyntax}
    (he : DerivesEntry us e) (hk : e.Known p.actions) (hst : EntryStops e ts) :
    PSteps host ⟨fr s v :: stk, us ++ ts, p⟩
      ⟨fr s' (.entry (e.entry host p.actions)) :: fr s v :: stk, ts, p⟩ := by
  obtain ⟨hx, hstar, -⟩ := afterExpr_of_entry hs
  cases he with
  | wildcard ha =>
    simp only [List.cons_append]
    refine (steps_shift hstar).trans ?_
    refine (steps_shift rfl).trans ?_
    refine (access_steps rfl ha).trans ?_
    exact steps_reduce [fr .starEqual _, fr .star _] (by cases look ts <;> rfl) rfl hs rfl
  | expr hd =>
    obtain ⟨hst, he⟩ := hst
    refine (expr_steps hd hk (fun _ => hst) hx).trans ?_
    refine steps_reduce (r := .entryExpr) [] ?_ rfl hs rfl
    cases hl : look ts <;>
      first | rfl | exact absurd hl he | exact absurd hl hst.1 | exact absurd hl hst.2
  | access hd ha =>
    rw [List.append_assoc, List.cons_append]
    refine (expr_steps hd hk (fun _ => stops_cons (by decide)) hx).trans ?_
    refine (steps_shift rfl).trans ?_
    refine (access_steps rfl ha).trans ?_
    exact steps_reduce [fr .exprEqual _, fr .entryExpr _] (by cases look ts <;> rfl) rfl hs rfl

/-- The terminals an entry starts with. -/
def entryFirst : List Terminal := .star :: exprFirst

theorem entry_or_abort (hs : s.next (.n .entry) = some s') (hf : look ts ∈ entryFirst) :
    (∃ us e rest, ts = us ++ rest ∧ us ≠ [] ∧ DerivesEntry us e ∧ e.Known p.actions ∧
      EntryStops e rest) ∨ PAborts host ⟨fr s v :: stk, ts, p⟩ := by
  obtain ⟨hx, hstar, -⟩ := afterExpr_of_entry hs
  rcases List.mem_cons.1 hf with hf | hf
  · cases ts with
    | nil => simp at hf
    | cons t ts =>
      obtain rfl := Token.of_terminal_eq hf
      apply steps_then (steps_shift hstar)
      apply expect_one .star .equal (by decide) (by decide)
      rintro _ ts rfl rfl
      apply steps_then (steps_shift rfl)
      apply expect .starEqual [.ALLOW, .DENY] (by decide) (by decide)
      rintro t ts ht rfl
      obtain ⟨a, ha⟩ := access_of_terminal ht
      exact Or.inl ⟨_, _, ts, rfl, by simp, .wildcard ha, trivial, trivial⟩
  · have h : ExprAhead .E p.actions ts ∨ PAborts host ⟨fr s v :: stk, ts, p⟩ :=
      expr_or_abort _ le_rfl hx (Or.inl hf)
    refine h.elim ?_ Or.inr
    rintro ⟨us, x, rest, rfl, hne, hd, hk, hst⟩
    by_cases he : look rest = .equal
    · cases rest with
      | nil => simp at he
      | cons t rest =>
        obtain rfl := Token.of_terminal_eq he
        apply steps_then ((expr_steps hd hk hst hx).trans (steps_shift rfl))
        apply expect .exprEqual [.ALLOW, .DENY] (by decide) (by decide)
        rintro t rest ht rfl
        obtain ⟨a, ha⟩ := access_of_terminal ht
        exact Or.inl ⟨us ++ tEqual :: [t], _, rest, by simp, by simp, .access hd ha, hk, trivial⟩
    · exact Or.inl ⟨us, _, rest, rfl, hne, .expr hd, hk, hst rfl, he⟩

/-! Lists of entries, with and without a version before them. -/

/-- The state of a list of entries, the state after its semicolon, and the stack
below the list. -/
inductive ListStack : PolicyState → PolicyState → List PFrame → Prop
  | plain (v0 : YYSTYPE) : ListStack .entries .entriesSemi [fr .start v0]
  | version (v2 v1 v0 : YYSTYPE) : ListStack .versionEntries .versionEntriesSemi
      [fr .versionSemi v2, fr .version v1, fr .start v0]

/-- The run ends with success and this parser. -/
def PAccepts (host : Host) (c : PConfig) (q : DAParser) : Prop :=
  ∃ c', PSteps host c c' ∧ step policyGrammar (policySemantics host) c' = .accept q

theorem PAccepts.of_steps {c c' : PConfig} {q : DAParser} (h : PSteps host c c')
    (ha : PAccepts host c' q) : PAccepts host c q := by
  obtain ⟨c'', h', ha⟩ := ha
  exact ⟨c'', h.trans h', ha⟩

variable {l m : PolicyState} {base : List PFrame}

variable (host ts p) in
/-- The list is over, with or without a last semicolon. -/
theorem list_policy (hb : ListStack l m base) (es : List DAParserEntry)
    (hts : look ts ≠ .semicolon) :
    ∃ v v0, PSteps host ⟨fr l (.list es) :: base, ts, p⟩
      ⟨[fr .policy v, fr .start v0], ts, daParserAddEntries p es⟩ := by
  cases hb with
  | plain v0 =>
    refine ⟨_, v0, steps_reduce (r := .policyEntries) [] ?_ rfl rfl rfl⟩
    cases hl : look ts <;> first | rfl | exact absurd hl hts
  | version v2 v1 v0 =>
    refine ⟨v1, v0, steps_reduce (r := .policyVersionEntries) [fr .versionSemi v2, fr .version v1]
      ?_ rfl rfl rfl⟩
    cases hl : look ts <;> first | rfl | exact absurd hl hts

variable (host ts p) in
theorem list_policy_end (hb : ListStack l m base) (es : List DAParserEntry)
    (hts : look ts ∉ entryFirst) :
    ∃ v v0, PSteps host ⟨fr m w :: fr l (.list es) :: base, ts, p⟩
      ⟨[fr .policy v, fr .start v0], ts, daParserAddEntries p es⟩ := by
  have hnot : ∀ a ∈ entryFirst, look ts ≠ a := fun a ha h => hts (h ▸ ha)
  cases hb with
  | plain v0 =>
    refine ⟨_, v0, steps_reduce (r := .policyEntriesEnd) [fr .entries (.list es)] ?_ rfl rfl rfl⟩
    cases hl : look ts <;> first | rfl | exact absurd hl (hnot _ (by decide))
  | version v2 v1 v0 =>
    refine ⟨v1, v0, steps_reduce (r := .policyVersionEntriesEnd)
      [fr .versionEntries (.list es), fr .versionSemi v2, fr .version v1] ?_ rfl rfl rfl⟩
    cases hl : look ts <;> first | rfl | exact absurd hl (hnot _ (by decide))

/-- The first entry of the list. -/
theorem list_first (hl : b.next (.n .entries) = some l) {e : DAParserEntry} :
    PSteps host ⟨fr .entry (.entry e) :: fr b w :: stk, ts, p⟩
      ⟨fr l (.list [e]) :: fr b w :: stk, ts, p⟩ :=
  steps_reduce [] (by cases look ts <;> rfl) rfl hl rfl

/-- One more entry of the list. -/
theorem list_more (hb : ListStack l m base) (es : List DAParserEntry) (e : DAParserEntry) :
    PSteps host ⟨fr .entriesEntry (.entry e) :: fr m w :: fr l (.list es) :: base, ts, p⟩
      ⟨fr l (.list (es ++ [e])) :: base, ts, p⟩ := by
  cases hb with
  | plain v0 =>
    exact steps_reduce (r := .entriesMore) [fr .entriesSemi w, fr .entries (.list es)]
      (by cases look ts <;> rfl) rfl rfl rfl
  | version v2 v1 v0 =>
    exact steps_reduce (r := .entriesMore) [fr .versionEntriesSemi w, fr .versionEntries (.list es)]
      (by cases look ts <;> rfl) rfl rfl rfl

theorem ListStack.next_semicolon (hb : ListStack l m base) :
    l.next (.t .semicolon) = some m ∧ m.next (.n .entry) = some .entriesEntry := by
  cases hb <;> exact ⟨rfl, rfl⟩

/-- An entry ends with the input or before a semicolon. -/
def EntryEnds (ts : List Token) : Prop := look ts = .eoi ∨ look ts = .semicolon

theorem EntryEnds.stops {ts : List Token} (h : EntryEnds ts) : Stops ts := by
  unfold Stops
  rcases h with h | h <;> rw [h] <;> decide

theorem DerivesMore.entryEnds {us : List Token} {es : List EntrySyntax} (h : DerivesMore us es) :
    EntryEnds us := by
  cases h with
  | none => exact Or.inl rfl
  | final => exact Or.inr rfl
  | entry => exact Or.inr rfl

theorem EntryEnds.entryStops (h : EntryEnds ts) (e : EntrySyntax) : EntryStops e ts := by
  unfold EntryStops
  split
  · refine ⟨h.stops, ?_⟩
    rcases h with h | h <;> rw [h] <;> decide
  · trivial

theorem policy_end (v v0 : YYSTYPE) (q : DAParser) :
    PAccepts host ⟨[fr .policy v, fr .start v0], [], q⟩ q :=
  ⟨_, .refl, step_accept⟩

/-- Induction on the derivation; the list grows at its end. -/
theorem more_accepts (hb : ListStack l m base) {us : List Token} {es : List EntrySyntax}
    (hm : DerivesMore us es) (hk : ∀ e ∈ es, e.Known p.actions) (L : List DAParserEntry) :
    PAccepts host ⟨fr l (.list L) :: base, us, p⟩
      (daParserAddEntries p (L ++ es.map (EntrySyntax.entry host p.actions))) := by
  obtain ⟨hsemi, hentry⟩ := hb.next_semicolon
  induction hm generalizing L with
  | none =>
    obtain ⟨v, v0, h⟩ := list_policy host [] p hb L (by decide)
    rw [List.map_nil, List.append_nil]
    exact .of_steps h (policy_end v v0 _)
  | final =>
    obtain ⟨v, v0, h⟩ := list_policy_end host [] p hb L (by decide)
    rw [List.map_nil, List.append_nil]
    exact .of_steps ((steps_shift hsemi).trans h) (policy_end v v0 _)
  | @entry ts e us es he hm ih =>
    have hke : e.Known p.actions := hk e (List.mem_cons_self ..)
    have h := ih (fun e' he' => hk e' (List.mem_cons_of_mem _ he')) (L ++ [e.entry host p.actions])
    rw [List.append_assoc, List.singleton_append, ← List.map_cons] at h
    rw [List.cons_append]
    refine .of_steps (steps_shift hsemi) ?_
    refine .of_steps (entry_steps hentry he hke (hm.entryEnds.entryStops e)) ?_
    exact .of_steps (list_more hb L _) h

theorem version_steps {n : ℤ} (hn : n = FORMAT_VERSION) :
    PSteps host ⟨fr .start v :: stk, .NUMBER n :: ts, p⟩
      ⟨fr .version (.number n) :: fr .start v :: stk, ts, p⟩ := by
  subst hn
  exact (steps_shift rfl).trans (steps_reduce [] rfl rfl rfl rfl)

theorem version_aborts {n : ℤ} (hn : n ≠ FORMAT_VERSION) :
    PAborts host ⟨fr .start v :: stk, .NUMBER n :: ts, p⟩ := by
  refine .of_steps (steps_shift rfl) ?_
  exact reduce_aborts [] rfl rfl (if_pos hn)

theorem policy_accepts {us : List Token} {pol : PolicySyntax} (h : DerivesPolicy us pol)
    (hv : pol.Valid p.actions) :
    PAccepts host ⟨[fr .start v], us, p⟩ (daParserAddEntries p (pol.result host p.actions)) := by
  cases h with
  | version n =>
    have hn : n = FORMAT_VERSION := hv.version n rfl
    have hp : daParserAddEntries p [] = p := by simp [daParserAddEntries]
    rw [PolicySyntax.result, List.map_nil, hp]
    refine .of_steps (version_steps hn) ?_
    exact .of_steps (steps_reduce [] rfl rfl rfl rfl) (policy_end _ _ _)
  | @versionEntries n ts e us es he hm =>
    have hn : n = FORMAT_VERSION := hv.version n rfl
    have hk := hv.known
    simp only [List.mem_cons, forall_eq_or_imp] at hk
    simp only [List.cons_append]
    refine .of_steps (version_steps hn) ?_
    refine .of_steps (steps_shift rfl) ?_
    refine .of_steps (entry_steps rfl he hk.1 (hm.entryEnds.entryStops e)) ?_
    refine .of_steps (list_first rfl) ?_
    exact more_accepts (.version _ _ _) hm hk.2 [e.entry host p.actions]
  | @entries ts e us es he hm =>
    have hk := hv.known
    simp only [List.mem_cons, forall_eq_or_imp] at hk
    refine .of_steps (entry_steps rfl he hk.1 (hm.entryEnds.entryStops e)) ?_
    refine .of_steps (list_first rfl) ?_
    exact more_accepts (.plain _) hm hk.2 [e.entry host p.actions]

/-! What is no policy makes the parser give up. -/

theorem Token.terminal_ne_eoi (t : Token) : t.terminal ≠ .eoi := fun h => Token.of_terminal_eq h

/-- After a whole policy nothing may follow. -/
theorem policy_aborts (t : Token) : PAborts host ⟨fr .policy v :: stk, t :: ts, p⟩ := by
  have h : ∀ a ∈ Terminal.all, a ≠ .eoi → PolicyState.policy.act a = .error := by decide
  exact error_aborts (h _ (Terminal.mem_all _) t.terminal_ne_eoi)

/-- Induction on the length of the input. -/
theorem more_or_abort (hb : ListStack l m base) (n : ℕ) :
    ∀ {ts : List Token} (L : List DAParserEntry), ts.length ≤ n →
      (∃ es, DerivesMore ts es ∧ ∀ e ∈ es, e.Known p.actions) ∨
        PAborts host ⟨fr l (.list L) :: base, ts, p⟩ := by
  obtain ⟨hsemi, hentry⟩ := hb.next_semicolon
  induction n with
  | zero =>
    intro ts L hn
    obtain rfl := List.length_eq_zero_iff.1 (Nat.le_zero.1 hn)
    exact Or.inl ⟨[], .none, by simp⟩
  | succ n ih =>
    intro ts L hn
    cases ts with
    | nil => exact Or.inl ⟨[], .none, by simp⟩
    | cons t ts =>
      simp only [List.length_cons] at hn
      by_cases ht : t.terminal = .semicolon
      swap
      · obtain ⟨v, v0, h⟩ := list_policy host (t :: ts) p hb L ht
        exact Or.inr (.of_steps h (policy_aborts t))
      obtain rfl := Token.of_terminal_eq ht
      apply steps_then (steps_shift hsemi)
      by_cases hf : look ts ∈ entryFirst
      swap
      · cases ts with
        | nil => exact Or.inl ⟨[], .final, by simp⟩
        | cons t ts =>
          obtain ⟨v, v0, h⟩ := list_policy_end host (t :: ts) p hb L hf
          exact Or.inr (.of_steps h (policy_aborts t))
      refine (entry_or_abort hentry hf).elim ?_ Or.inr
      rintro ⟨us, e, rest, rfl, hne, he, hk, hst⟩
      apply steps_then ((entry_steps hentry he hk hst).trans (list_more hb L _))
      have hlen : rest.length ≤ n := by
        have := List.length_pos_iff.2 hne
        rw [List.length_append] at hn
        omega
      apply (ih _ hlen).imp_left
      rintro ⟨es, hm, hks⟩
      exact ⟨e :: es, .entry he hm, List.forall_mem_cons.2 ⟨hk, hks⟩⟩

/-- The entries of a policy, where a list of them can start. -/
theorem entries_or_abort (hs : s.next (.n .entry) = some .entry)
    (hl : s.next (.n .entries) = some l) (hb : ListStack l m (fr s v :: stk))
    (hf : look ts ∈ entryFirst) :
    (∃ us e rest es, ts = us ++ rest ∧ DerivesEntry us e ∧ DerivesMore rest es ∧
      ∀ e' ∈ e :: es, e'.Known p.actions) ∨ PAborts host ⟨fr s v :: stk, ts, p⟩ := by
  refine (entry_or_abort hs hf).elim ?_ Or.inr
  rintro ⟨us, e, rest, rfl, -, he, hk, hst⟩
  apply steps_then (entry_steps hs he hk hst)
  apply steps_then (list_first hl)
  apply (more_or_abort hb _ _ le_rfl).imp_left
  rintro ⟨es, hm, hks⟩
  exact ⟨us, e, rest, es, rfl, he, hm, List.forall_mem_cons.2 ⟨hk, hks⟩⟩

theorem policy_or_abort (ts : List Token) :
    (∃ pol, DerivesPolicy ts pol ∧ pol.Valid p.actions) ∨
      PAborts host ⟨[fr .start v], ts, p⟩ := by
  apply expect .start (.NUMBER :: entryFirst) (by decide) (by decide)
  rintro t us ht rfl
  rcases List.mem_cons.1 ht with ht | ht
  swap
  · have hf : look (t :: us) ∈ entryFirst := ht
    apply (entries_or_abort rfl rfl (.plain v) hf).imp_left
    rintro ⟨us, e, rest, es, hts, he, hm, hk⟩
    rw [hts]
    exact ⟨_, .entries he hm, ⟨nofun, hk⟩⟩
  -- a version
  obtain ⟨n, rfl⟩ := Token.of_terminal_eq ht
  by_cases hn : n = FORMAT_VERSION
  swap
  · exact Or.inr (version_aborts hn)
  have hv : ∀ k ∈ some n, k = FORMAT_VERSION := by simpa using hn
  apply steps_then (version_steps hn)
  cases us with
  | nil => exact Or.inl ⟨_, .version n, ⟨hv, by simp⟩⟩
  | cons t us =>
    by_cases ht : t.terminal = .semicolon
    swap
    · have hr : PolicyState.version.act t.terminal = .reduce .policyVersion := by
        cases hl : t.terminal <;> first | rfl | exact absurd hl ht
      exact Or.inr (.of_steps (steps_reduce [] hr rfl rfl rfl) (policy_aborts t))
    obtain rfl := Token.of_terminal_eq ht
    apply steps_then (steps_shift rfl)
    apply expect .versionSemi entryFirst (by decide) (by decide)
    rintro t us ht rfl
    have hf : look (t :: us) ∈ entryFirst := ht
    apply (entries_or_abort rfl rfl (.version _ _ v) hf).imp_left
    rintro ⟨us, e, rest, es, hts, he, hm, hk⟩
    rw [hts]
    exact ⟨_, .versionEntries n he hm, ⟨hv, hk⟩⟩

end DbusAccess
