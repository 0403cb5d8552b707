import DbusAccess.Artifacts.PolicyStates
import DbusAccess.Spec.Grammar

/-! Steps of the generated parser, in terms of the named states: what a state
does with the next token, and how terms, the smallest phrases, are read. -/

namespace DbusAccess

open ShiftReduce PolicyState

abbrev PFrame := Frame GrammarRule YYSTYPE
abbrev PConfig := Config GrammarRule YYSTYPE Token DAParser

/-- A stack frame in a named state. -/
def fr (s : PolicyState) (v : YYSTYPE) : PFrame := ⟨s.items, v⟩

/-- The terminal the parser looks at. -/
def look (ts : List Token) : Terminal :=
  match ts with
  | [] => .eoi
  | t :: _ => t.terminal

@[simp] theorem look_nil : look [] = .eoi := rfl
@[simp] theorem look_cons (t : Token) (ts : List Token) : look (t :: ts) = t.terminal := rfl

abbrev PSteps (host : Host) : PConfig → PConfig → Prop :=
  Steps policyGrammar (policySemantics host)

abbrev PAborts (host : Host) : PConfig → Prop := Aborts policyGrammar (policySemantics host)

variable {host : Host} {s s' b : PolicyState} {v w : YYSTYPE} {stk : List PFrame}
  {ts : List Token} {p p' : DAParser}

private theorem lookahead_eq (host : Host) (ts : List Token) :
    lookahead policyGrammar (policySemantics host) ts = look ts := by
  cases ts <;> rfl

private theorem action_fr {a : Terminal} {x : Action GrammarRule} (h : s.act a = x) :
    action policyGrammar (fr s v).state a = x := by
  rw [← h]
  exact action_items s a

theorem steps_shift {t : Token} (h : s.next (.t t.terminal) = some s') :
    PSteps host ⟨fr s v :: stk, t :: ts, p⟩ ⟨fr s' t.yylval :: fr s v :: stk, ts, p⟩ := by
  refine .single ?_
  have ha : s.act t.terminal = .shift := by simp [act, h]
  refine (step_shift policyGrammar (policySemantics host) (action_fr ha)).trans ?_
  exact congrArg (fun I => Outcome.next ⟨⟨I, t.yylval⟩ :: fr s v :: stk, ts, p⟩) (goto_items h)

/-- A reduction pops the frames of the right side: the one on top and `fs`. -/
theorem steps_reduce {r : GrammarRule} (fs : List PFrame) (hs : s.act (look ts) = .reduce r)
    (hl : (fr s v :: fs).length = r.rhs.length) (hb : b.next (.n r.lhs) = some s') {v' : YYSTYPE}
    (hv : yyaction host r ((fr s v :: fs).reverse.map (·.value)) p = some (v', p')) :
    PSteps host ⟨fr s v :: fs ++ fr b w :: stk, ts, p⟩ ⟨fr s' v' :: fr b w :: stk, ts, p'⟩ := by
  refine .single ?_
  have ha := action_fr (v := v) hs
  rw [← lookahead_eq host] at ha
  refine (step_reduce policyGrammar (policySemantics host) ha hl).trans ?_
  rw [show (policySemantics host).act = yyaction host from rfl, hv]
  exact congrArg (fun I => Outcome.next ⟨⟨I, v'⟩ :: fr b w :: stk, ts, p'⟩) (goto_items hb)

theorem reduce_aborts {r : GrammarRule} (fs : List PFrame) (hs : s.act (look ts) = .reduce r)
    (hl : (fr s v :: fs).length = r.rhs.length)
    (hv : yyaction host r ((fr s v :: fs).reverse.map (·.value)) p = none) :
    PAborts host ⟨fr s v :: fs ++ fr b w :: stk, ts, p⟩ := by
  refine ⟨_, .refl, ?_⟩
  have ha := action_fr (v := v) hs
  rw [← lookahead_eq host] at ha
  refine (step_reduce policyGrammar (policySemantics host) ha hl).trans ?_
  rw [show (policySemantics host).act = yyaction host from rfl, hv]

theorem error_aborts (hs : s.act (look ts) = .error) : PAborts host ⟨fr s v :: stk, ts, p⟩ := by
  refine ⟨_, .refl, ?_⟩
  have ha := action_fr (v := v) hs
  rw [← lookahead_eq host] at ha
  exact step_error policyGrammar (policySemantics host) ha

theorem step_accept : step policyGrammar (policySemantics host) ⟨fr .policy v :: stk, [], p⟩ =
    .accept p := by
  have ha : action policyGrammar (fr .policy v).state .eoi = .shift := action_fr rfl
  rw [step]
  simp only [lookahead]
  rw [show policyGrammar.eoi = .eoi from rfl, ha]

/-- The tokens of a terminal. -/
def Terminal.Of : Terminal → Token → Prop
  | .NUMBER, t => ∃ n, t = .NUMBER n
  | .ID, t => ∃ s, t = .ID s
  | .WORD, t => ∃ s, t = .WORD s
  | .WILDCARD, t => ∃ s, t = .WILDCARD s
  | .STRING, t => ∃ s, t = .STRING s
  | .USER, t => t = .USER
  | .GROUP, t => t = .GROUP
  | .ALLOW, t => t = .ALLOW
  | .DENY, t => t = .DENY
  | .ERROR, t => t = .ERROR
  | .semicolon, t => t = tSemicolon
  | .star, t => t = tStar
  | .equal, t => t = tEqual
  | .bang, t => t = tBang
  | .lparen, t => t = tLparen
  | .rparen, t => t = tRparen
  | .bar, t => t = tBar
  | .amp, t => t = tAmp
  | .colon, t => t = tColon
  | .undef, _ => True
  | .eoi, _ => False

theorem Terminal.of_ite {c : UInt8} {d : Char} {a b : Terminal}
    (ha : c = ch d → a.Of (.char c)) (hb : b.Of (.char c)) :
    (if c = ch d then a else b).Of (.char c) := by
  by_cases hc : c = ch d
  · rw [if_pos hc]
    exact ha hc
  · rw [if_neg hc]
    exact hb

theorem Token.of_terminal (t : Token) : t.terminal.Of t := by
  cases t with
  | char c =>
    -- one character after the other
    repeat' refine Terminal.of_ite (congrArg Token.char) ?_
    trivial
  | NUMBER n => exact ⟨n, rfl⟩
  | ID s => exact ⟨s, rfl⟩
  | WORD s => exact ⟨s, rfl⟩
  | WILDCARD s => exact ⟨s, rfl⟩
  | STRING s => exact ⟨s, rfl⟩
  | _ => rfl

theorem Token.of_terminal_eq {t : Token} {a : Terminal} (h : t.terminal = a) : a.Of t :=
  h ▸ t.of_terminal

theorem steps_then {c c' : PConfig} (h : PSteps host c c') {P : Prop}
    (k : P ∨ PAborts host c') : P ∨ PAborts host c :=
  k.imp_right (.of_steps h)

/-- In a state that can only shift terminals of `L`, one of them is next or the
parser gives up. -/
theorem expect (s : PolicyState) (L : List Terminal) (he : .eoi ∉ L)
    (h : ∀ a ∈ Terminal.all, a ∉ L → s.act a = .error) {P : Prop}
    (k : ∀ t us, t.terminal ∈ L → ts = t :: us → P ∨ PAborts host ⟨fr s v :: stk, ts, p⟩) :
    P ∨ PAborts host ⟨fr s v :: stk, ts, p⟩ := by
  by_cases hl : look ts ∈ L
  · cases ts with
    | nil => exact absurd hl he
    | cons t us => exact k t us hl rfl
  · exact Or.inr (error_aborts (h _ (Terminal.mem_all _) hl))

/-- The same for a single terminal. -/
theorem expect_one (s : PolicyState) (a : Terminal) (he : a ≠ .eoi)
    (h : ∀ a' ∈ Terminal.all, a' ≠ a → s.act a' = .error) {P : Prop}
    (k : ∀ t us, a.Of t → ts = t :: us → P ∨ PAborts host ⟨fr s v :: stk, ts, p⟩) :
    P ∨ PAborts host ⟨fr s v :: stk, ts, p⟩ := by
  refine expect s [a] (by simpa using he.symm) (fun a' ha' hne => h a' ha' (by simpa using hne)) ?_
  intro t us ht hts
  exact k t us (Token.of_terminal_eq (List.mem_singleton.1 ht)) hts

/-! The actions on names. -/

theorem findAction_eq (p : DAParser) (name : CString) :
    daParserFindAction p name = firstAction p.actions name := by
  unfold daParserFindAction firstAction
  cases p.actions <;> rfl

theorem newExprCustom_of_known (host : Host) {name : CString} {param : Option CString}
    (h : (TermSyntax.action name param).Known p.actions) :
    daParserNewExprCustom p name param = (TermSyntax.action name param).tree host p.actions ∧
      daParserNewExprCustom p name param ≠ .null := by
  obtain ⟨a, ha, hp⟩ := h
  simp only [daParserNewExprCustom, findAction_eq, ha, TermSyntax.tree]
  cases param <;> simp_all

theorem newExprCustom_of_not_known {name : CString} {param : Option CString}
    (h : ¬ (TermSyntax.action name param).Known p.actions) :
    daParserNewExprCustom p name param = .null := by
  simp only [TermSyntax.Known, not_exists, not_and] at h
  simp only [daParserNewExprCustom, findAction_eq]
  split
  · rfl
  · rename_i a ha
    have := h a ha
    cases param <;> simp_all

/-! Terms. -/

theorem next_expr (h : s.afterExpr = some s') : s.next (.n .expr) = some s' := by
  cases s <;> simp [afterExpr] at h <;> exact congrArg some h

theorem next_exprStart {a : Terminal} (ha : a ∈ [.bang, .lparen, .USER, .GROUP, .ID])
    (h : s.afterExpr = some s') : s.next (.t a) = exprStart (.t a) := by
  have hall : ∀ s ∈ PolicyState.all, s.afterExpr.isSome = true →
      ∀ a ∈ [Terminal.bang, .lparen, .USER, .GROUP, .ID],
        s.next (.t a) = exprStart (.t a) := by decide
  exact hall s s.mem_all (by rw [h, Option.isSome_some]) a ha

theorem next_term (h : s.afterExpr = some s') : s.next (.n .term) = some .term := by
  cases s <;> first | rfl | simp [afterExpr] at h

theorem userId_steps {us : List Token} {u : IdSyntax} (hu : DerivesId us u) :
    PSteps host ⟨fr .userLparen v :: stk, us ++ ts, p⟩
      ⟨fr .userArg (.number (u.uid host)) :: fr .userLparen v :: stk, ts, p⟩ := by
  cases hu with
  | number n => exact (steps_shift rfl).trans (steps_reduce [] rfl rfl rfl rfl)
  | wildcard w => exact (steps_shift rfl).trans (steps_reduce [] rfl rfl rfl rfl)
  | word w => exact (steps_shift rfl).trans (steps_reduce [] rfl rfl rfl rfl)

/-- The two places of a group: alone, and after a user. -/
theorem groupId_steps (hb : b.next (.n .group) = some s') {us : List Token} {g : IdSyntax}
    (hg : DerivesId us g) :
    PSteps host ⟨fr b v :: stk, us ++ ts, p⟩
      ⟨fr s' (.number (g.gid host)) :: fr b v :: stk, ts, p⟩ := by
  have hn : ∀ a ∈ [Terminal.NUMBER, .WILDCARD, .WORD],
      b.next (.t a) = PolicyState.groupLparen.next (.t a) := by
    have hall : ∀ b ∈ PolicyState.all, (b.next (.n .group)).isSome = true →
        b = .groupLparen ∨ b = .userColon := by decide
    rcases hall b b.mem_all (by rw [hb, Option.isSome_some]) with rfl | rfl <;> decide
  cases hg with
  | number n =>
    exact (steps_shift (hn .NUMBER (by decide))).trans (steps_reduce [] rfl rfl hb rfl)
  | wildcard w =>
    exact (steps_shift (hn .WILDCARD (by decide))).trans (steps_reduce [] rfl rfl hb rfl)
  | word w =>
    exact (steps_shift (hn .WORD (by decide))).trans (steps_reduce [] rfl rfl hb rfl)

theorem param_steps {us : List Token} {x : CString} (hx : DerivesParam us x) :
    PSteps host ⟨fr .idLparen v :: stk, us ++ ts, p⟩
      ⟨fr .idParam (.string x) :: fr .idLparen v :: stk, ts, p⟩ := by
  cases hx <;> exact (steps_shift rfl).trans (steps_reduce [] rfl rfl rfl rfl)

/-- From the end of a term to the end of the expression it is. -/
theorem term_expr (hs : s.afterExpr = some s') {x : DAParserExpr} :
    PSteps host ⟨fr .term (.expr x) :: fr s v :: stk, ts, p⟩
      ⟨fr s' (.expr x) :: fr s v :: stk, ts, p⟩ :=
  steps_reduce [] (by cases look ts <;> rfl) rfl (next_expr hs) rfl

theorem term_steps {us : List Token} {t : TermSyntax} (ht : DerivesTerm us t)
    (hk : t.Known p.actions) (hs : s.afterExpr = some s') :
    PSteps host ⟨fr s v :: stk, us ++ ts, p⟩
      ⟨fr s' (.expr (t.tree host p.actions)) :: fr s v :: stk, ts, p⟩ := by
  refine Relation.ReflTransGen.trans ?_ (term_expr hs)
  have hterm := next_term hs
  cases ht with
  | user hu =>
    simp only [List.cons_append, List.append_assoc, List.nil_append]
    refine (steps_shift (next_exprStart (by decide) hs)).trans ?_
    refine (steps_shift rfl).trans ?_
    refine (userId_steps hu).trans ?_
    refine (steps_shift rfl).trans ?_
    exact steps_reduce [fr .userArg _, fr .userLparen _, fr .user _]
      (by cases look ts <;> rfl) rfl hterm rfl
  | userGroup hu hg =>
    simp only [List.cons_append, List.append_assoc, List.nil_append]
    refine (steps_shift (next_exprStart (by decide) hs)).trans ?_
    refine (steps_shift rfl).trans ?_
    refine (userId_steps hu).trans ?_
    refine (steps_shift rfl).trans ?_
    refine (groupId_steps rfl hg).trans ?_
    refine (steps_shift rfl).trans ?_
    exact steps_reduce [fr .userGroupArg _, fr .userColon _, fr .userArg _, fr .userLparen _,
      fr .user _] (by cases look ts <;> rfl) rfl hterm rfl
  | group hg =>
    simp only [List.cons_append, List.append_assoc, List.nil_append]
    refine (steps_shift (next_exprStart (by decide) hs)).trans ?_
    refine (steps_shift rfl).trans ?_
    refine (groupId_steps rfl hg).trans ?_
    refine (steps_shift rfl).trans ?_
    exact steps_reduce [fr .groupArg _, fr .groupLparen _, fr .group _]
      (by cases look ts <;> rfl) rfl hterm rfl
  | action name =>
    obtain ⟨he, hne⟩ := newExprCustom_of_known host hk
    simp only [List.cons_append, List.nil_append]
    refine (steps_shift (next_exprStart (by simp [Token.terminal]) hs)).trans ?_
    refine (steps_shift rfl).trans ?_
    refine (steps_shift rfl).trans ?_
    refine steps_reduce [fr .idLparen _, fr .id _] (by cases look ts <;> rfl) rfl hterm ?_
    rw [← he]
    exact if_neg hne
  | @actionParam name us x hx =>
    obtain ⟨he, hne⟩ := newExprCustom_of_known host hk
    simp only [List.cons_append, List.append_assoc, List.nil_append]
    refine (steps_shift (next_exprStart (by simp [Token.terminal]) hs)).trans ?_
    refine (steps_shift rfl).trans ?_
    refine (param_steps hx).trans ?_
    refine (steps_shift rfl).trans ?_
    refine steps_reduce [fr .idParam _, fr .idLparen _, fr .id _] (by cases look ts <;> rfl) rfl
      hterm ?_
    rw [← he]
    exact if_neg hne

/-! What is read where a term starts is a term of known actions, or the parser
gives up. -/

theorem id_of_terminal {t : Token} (h : t.terminal ∈ [.NUMBER, .WILDCARD, .WORD]) :
    ∃ u, DerivesId [t] u := by
  simp only [List.mem_cons, List.not_mem_nil, or_false] at h
  rcases h with h | h | h
  · obtain ⟨n, rfl⟩ := Token.of_terminal_eq h
    exact ⟨_, .number n⟩
  · obtain ⟨s, rfl⟩ := Token.of_terminal_eq h
    exact ⟨_, .wildcard s⟩
  · obtain ⟨w, rfl⟩ := Token.of_terminal_eq h
    exact ⟨_, .word w⟩

theorem param_of_terminal {t : Token} (h : t.terminal ∈ [.WORD, .STRING, .WILDCARD]) :
    ∃ x, DerivesParam [t] x := by
  simp only [List.mem_cons, List.not_mem_nil, or_false] at h
  rcases h with h | h | h
  · obtain ⟨s, rfl⟩ := Token.of_terminal_eq h
    exact ⟨_, .word s⟩
  · obtain ⟨s, rfl⟩ := Token.of_terminal_eq h
    exact ⟨_, .string s⟩
  · obtain ⟨s, rfl⟩ := Token.of_terminal_eq h
    exact ⟨_, .wildcard s⟩

/-- A term of known actions at the front of the input. -/
def TermAhead (actions : Option (List DAAction)) (ts : List Token) : Prop :=
  ∃ us t rest, ts = us ++ rest ∧ DerivesTerm us t ∧ t.Known actions

private theorem user_or_abort (hs : s.afterExpr = some s') :
    TermAhead p.actions (.USER :: ts) ∨ PAborts host ⟨fr s v :: stk, .USER :: ts, p⟩ := by
  refine steps_then (steps_shift (next_exprStart (by decide) hs)) ?_
  refine expect_one .user .lparen (by decide) (by decide) ?_
  rintro _ ts rfl rfl
  refine steps_then (steps_shift rfl) ?_
  refine expect .userLparen [.NUMBER, .WILDCARD, .WORD] (by decide) (by decide) ?_
  rintro t ts ht rfl
  obtain ⟨u, hu⟩ := id_of_terminal ht
  refine steps_then (userId_steps hu) ?_
  refine expect .userArg [.rparen, .colon] (by decide) (by decide) ?_
  rintro t' ts ht' rfl
  simp only [List.mem_cons, List.not_mem_nil, or_false] at ht'
  rcases ht' with ht' | ht'
  · obtain rfl := Token.of_terminal_eq ht'
    exact Or.inl ⟨_, _, ts, rfl, .user hu, trivial⟩
  · obtain rfl := Token.of_terminal_eq ht'
    refine steps_then (steps_shift rfl) ?_
    refine expect .userColon [.NUMBER, .WILDCARD, .WORD] (by decide) (by decide) ?_
    rintro t' ts ht' rfl
    obtain ⟨g, hg⟩ := id_of_terminal ht'
    refine steps_then (groupId_steps rfl hg) ?_
    refine expect_one .userGroupArg .rparen (by decide) (by decide) ?_
    rintro _ ts rfl rfl
    exact Or.inl ⟨_, _, ts, rfl, .userGroup hu hg, trivial⟩

private theorem group_or_abort (hs : s.afterExpr = some s') :
    TermAhead p.actions (.GROUP :: ts) ∨ PAborts host ⟨fr s v :: stk, .GROUP :: ts, p⟩ := by
  refine steps_then (steps_shift (next_exprStart (by decide) hs)) ?_
  refine expect_one .group .lparen (by decide) (by decide) ?_
  rintro _ ts rfl rfl
  refine steps_then (steps_shift rfl) ?_
  refine expect .groupLparen [.NUMBER, .WILDCARD, .WORD] (by decide) (by decide) ?_
  rintro t ts ht rfl
  obtain ⟨g, hg⟩ := id_of_terminal ht
  refine steps_then (groupId_steps rfl hg) ?_
  refine expect_one .groupArg .rparen (by decide) (by decide) ?_
  rintro _ ts rfl rfl
  exact Or.inl ⟨_, _, ts, rfl, .group hg, trivial⟩

/-- An unknown action, or one with the wrong number of parameters, is `YYERROR`. -/
private theorem action_or_abort (name : CString) (hs : s.afterExpr = some s') :
    TermAhead p.actions (.ID name :: ts) ∨ PAborts host ⟨fr s v :: stk, .ID name :: ts, p⟩ := by
  refine steps_then (steps_shift (next_exprStart (by simp [Token.terminal]) hs)) ?_
  refine expect_one .id .lparen (by decide) (by decide) ?_
  rintro _ ts rfl rfl
  refine steps_then (steps_shift rfl) ?_
  refine expect .idLparen [.rparen, .WORD, .STRING, .WILDCARD] (by decide) (by decide) ?_
  rintro t ts ht rfl
  rcases List.mem_cons.1 ht with ht | ht
  · obtain rfl := Token.of_terminal_eq ht
    by_cases hk : (TermSyntax.action name none).Known p.actions
    · exact Or.inl ⟨_, _, ts, rfl, .action name, hk⟩
    · refine steps_then (steps_shift rfl) (Or.inr ?_)
      refine reduce_aborts [fr .idLparen _, fr .id _] (by cases look ts <;> rfl) rfl ?_
      exact if_pos (newExprCustom_of_not_known hk)
  · obtain ⟨x, hx⟩ := param_of_terminal ht
    refine steps_then (param_steps hx) ?_
    refine expect_one .idParam .rparen (by decide) (by decide) ?_
    rintro _ ts rfl rfl
    by_cases hk : (TermSyntax.action name (some x)).Known p.actions
    · exact Or.inl ⟨_, _, ts, rfl, .actionParam name hx, hk⟩
    · refine steps_then (steps_shift rfl) (Or.inr ?_)
      refine reduce_aborts [fr .idParam _, fr .idLparen _, fr .id _]
        (by cases look ts <;> rfl) rfl ?_
      exact if_pos (newExprCustom_of_not_known hk)

theorem term_or_abort (hs : s.afterExpr = some s') (hl : look ts ∈ [.USER, .GROUP, .ID]) :
    TermAhead p.actions ts ∨ PAborts host ⟨fr s v :: stk, ts, p⟩ := by
  cases ts with
  | nil => simp at hl
  | cons t ts =>
    simp only [look_cons, List.mem_cons, List.not_mem_nil, or_false] at hl
    rcases hl with h | h | h
    · obtain rfl := Token.of_terminal_eq h
      exact user_or_abort hs
    · obtain rfl := Token.of_terminal_eq h
      exact group_or_abort hs
    · obtain ⟨name, rfl⟩ := Token.of_terminal_eq h
      exact action_or_abort name hs

end DbusAccess
