import DbusAccess.Lib.ShiftReduce

/-! The parser of `ShiftReduce` at work on a state: its scanner is asked for one token at
a time, when a token is needed, and scanner and actions may change the state or fail on
it. What relates both kinds of values and states from step to step relates their runs. -/

namespace ShiftReduce

variable {T N R : Type} [DecidableEq T] [DecidableEq N] (g : Grammar T N R)

/-- The scanner gives no token at the end of the input, and an action without result
makes the parser give up. -/
structure Effects (T R V K σ : Type) where
  sym : K → T
  val : K → V
  lex : StateT σ Option (Option K)
  act : R → List V → StateT σ Option (Option V)

/-- The rule of a state that is reduced before another token is read. -/
def defaultRule (I : List (Item R)) : Option R :=
  if I.any fun i => match i.next g with
    | some (.t _) => true
    | _ => false
  then none
  else complete g I

/-- Stack with its top first, and what the scanner gave when it was asked last, if that
is not used up. -/
structure EConfig (R V K : Type) where
  stack : List (Frame R V)
  look : Option (Option K)

inductive EOutcome (R V K : Type) where
  | next (c : EConfig R V K)
  | accept
  | abort

variable {V W K L σ τ : Type} (eff : Effects T R V K σ)

def EConfig.token (c : EConfig R V K) : StateT σ Option (Option K) :=
  match c.look with
  | some k => pure k
  | none => eff.lex

def symbol (k : Option K) : T :=
  match k with
  | none => g.eoi
  | some k => eff.sym k

def ereduce (r : R) (c : EConfig R V K) : StateT σ Option (EOutcome R V K) :=
  match c.stack.drop (g.rhs r).length with
  | [] => pure .abort
  | below :: rest => do
    match ← eff.act r ((c.stack.take (g.rhs r).length).reverse.map (·.value)) with
    | none => pure .abort
    | some v => pure (.next ⟨⟨goto g below.state (.n (g.lhs r)), v⟩ :: below :: rest, c.look⟩)

def estep (c : EConfig R V K) : StateT σ Option (EOutcome R V K) :=
  match c.stack with
  | [] => pure .abort
  | top :: _ =>
    match defaultRule g top.state with
    | some r => ereduce g eff r c
    | none => do
      let k ← c.token eff
      match action g top.state (symbol g eff k) with
      | .error => pure .abort
      | .reduce r => ereduce g eff r { c with look := some k }
      | .shift =>
        match k with
        | none => pure .accept
        | some k =>
          pure (.next ⟨⟨goto g top.state (.t (eff.sym k)), eff.val k⟩ :: c.stack, none⟩)

inductive EResult where
  | accept
  | abort
  | outOfFuel
  deriving DecidableEq

def erun : ℕ → EConfig R V K → StateT σ Option EResult
  | 0, _ => pure .outOfFuel
  | n + 1, c => do
    match ← estep g eff c with
    | .next c => erun n c
    | .accept => pure .accept
    | .abort => pure .abort

/-! Simulation. -/

variable (sem : Semantics T R W L τ)

/-- Only the end of the input leads on from the state, and it ends the parse. -/
def Halting (I : List (Item R)) : Prop :=
  ∀ a, action g I a = .error ∨ action g I a = .shift ∧ a = g.eoi

omit [DecidableEq T] in
/-- Without nonterminals to expand there is nothing to add. -/
theorem closure_of_terminals {J : List (Item R)} (h : nextNonterminals g J = []) :
    ShiftReduce.closure g J = J := by
  have hreach : ∀ n, reach g n [] = [] := by
    intro n
    cases n with
    | zero => rfl
    | succ n => simp [reach, nextNonterminals]
  simp [ShiftReduce.closure, h, hreach]

/-- `I` relates pairs of values, the tokens to come (unless the scanner has come to the
end), and the states: it holds for the token read ahead and the stack together, and the
scanner and the actions keep it. -/
structure Simulates (I : List (W × V) → Option (List L) → τ → σ → Prop) : Prop where
  lex_some : ∀ {vs k input u s}, I vs (some (k :: input)) u s →
    ∃ k' s', eff.lex s = some (some k', s') ∧ eff.sym k' = sem.sym k ∧ sem.sym k ≠ g.eoi ∧
      I ((sem.val k, eff.val k') :: vs) (some input) u s'
  lex_none : ∀ {vs u s}, I vs (some []) u s →
    ∃ s', eff.lex s = some (none, s') ∧ I vs none u s'
  forget : ∀ {vs input u s}, I vs input u s → I [] input u s
  act : ∀ {r l args vs input u s}, I (l ++ args ++ vs) input u s →
    match sem.act r (args.reverse.map Prod.fst) u with
    | none => ∃ s', eff.act r (args.reverse.map Prod.snd) s = some (none, s') ∧
        I [] input u s'
    | some (w, u') => ∃ v s', eff.act r (args.reverse.map Prod.snd) s = some (some v, s') ∧
        (I (l ++ (w, v) :: vs) input u' s' ∨
          I [] input u' s' ∧ ∀ J, Halting g (goto g J (.n (g.lhs r))))

/-- The token read ahead, with the tokens to come. -/
inductive Ahead : Option (Option K) → List L → List (W × V) → Option (List L) → Prop
  | unread (input : List L) : Ahead none input [] (some input)
  | token {k : L} {k' : K} (input : List L) : eff.sym k' = sem.sym k → sem.sym k ≠ g.eoi →
      Ahead (some (some k')) (k :: input) [(sem.val k, eff.val k')] (some input)
  | eoi : Ahead (some none) [] [] none

/-- The frames of two stacks with the same states. -/
inductive Frames : List (Frame R W) → List (Frame R V) → List (W × V) → Prop
  | nil : Frames [] [] []
  | cons {I : List (Item R)} {w : W} {v : V} {fs fs' vs} : Frames fs fs' vs →
      Frames (⟨I, w⟩ :: fs) (⟨I, v⟩ :: fs') ((w, v) :: vs)

variable {g eff sem} {I : List (W × V) → Option (List L) → τ → σ → Prop}
  {fs : List (Frame R W)} {fs' : List (Frame R V)} {vs : List (W × V)}

theorem Frames.drop (h : Frames fs fs' vs) (n : ℕ) : Frames (fs.drop n) (fs'.drop n) (vs.drop n) := by
  induction h generalizing n with
  | nil => simpa using Frames.nil
  | cons h ih =>
    cases n with
    | zero => exact h.cons
    | succ n => exact ih n

theorem Frames.take (h : Frames fs fs' vs) (n : ℕ) :
    (vs.take n).map Prod.fst = (fs.take n).map (·.value) ∧
      (vs.take n).map Prod.snd = (fs'.take n).map (·.value) := by
  induction h generalizing n with
  | nil => simp
  | cons h ih =>
    cases n with
    | zero => simp
    | succ n => simp [ih n]

theorem defaultRule_action {J : List (Item R)} {r : R} (h : defaultRule g J = some r) (a : T) :
    action g J a = .reduce r := by
  unfold defaultRule at h
  split_ifs at h with hany
  have hs : shiftable g J a = false := by
    rw [Bool.eq_false_iff]
    intro hs
    obtain ⟨i, hi, hia⟩ := List.any_eq_true.1 hs
    refine hany (List.any_eq_true.2 ⟨i, hi, ?_⟩)
    rw [decide_eq_true_iff] at hia
    rw [hia]
  simp [action, h, hs]

/-- Configurations that belong together: their values are related, or their states do not
lead on. -/
inductive Related (g : Grammar T N R) (eff : Effects T R V K σ) (sem : Semantics T R W L τ)
    (I : List (W × V) → Option (List L) → τ → σ → Prop) :
    Config R W L τ → EConfig R V K → σ → Prop
  | live {fs fs' vs look input l input' u s} : Frames fs fs' vs →
      Ahead g eff sem look input l input' → I (l ++ vs) input' u s →
      Related g eff sem I ⟨fs, input, u⟩ ⟨fs', look⟩ s
  | halting {J : List (Item R)} {w v fs fs' look input l input' u s} : Halting g J →
      Ahead g eff sem look input l input' → I [] input' u s →
      Related g eff sem I ⟨⟨J, w⟩ :: fs, input, u⟩ ⟨⟨J, v⟩ :: fs', look⟩ s

/-- The state at the end of a run. -/
def Ended (I : List (W × V) → Option (List L) → τ → σ → Prop) (u : τ) (s : σ) : Prop :=
  ∃ input, I [] input u s

def Simulated (g : Grammar T N R) (eff : Effects T R V K σ) (sem : Semantics T R W L τ)
    (I : List (W × V) → Option (List L) → τ → σ → Prop) (u : τ) :
    Outcome R W L τ → Option (EOutcome R V K × σ) → Prop
  | .next c, o => ∃ c' s, o = some (.next c', s) ∧ Related g eff sem I c c' s
  | .accept u, o => ∃ s, o = some (.accept, s) ∧ Ended I u s
  | .abort, o => ∃ s, o = some (.abort, s) ∧ Ended I u s

variable {look : Option (Option K)} {input : List L} {l : List (W × V)} {input' : Option (List L)}
  {u : τ} {s : σ}

theorem ereduce_simulated (hsim : Simulates g eff sem I) (r : R) (hf : Frames fs fs' vs)
    (ha : Ahead g eff sem look input l input') (hI : I (l ++ vs) input' u s) :
    Simulated g eff sem I u (reduce g sem r ⟨fs, input, u⟩) (ereduce g eff r ⟨fs', look⟩ s) := by
  have hd := hf.drop (g.rhs r).length
  have ht := hf.take (g.rhs r).length
  rw [← List.take_append_drop (g.rhs r).length vs, ← List.append_assoc] at hI
  have hact := hsim.act (r := r) hI
  rw [List.map_reverse, List.map_reverse, ht.1, ht.2, ← List.map_reverse, ← List.map_reverse] at hact
  unfold reduce ereduce
  generalize fs.drop (g.rhs r).length = gs at hd ⊢
  generalize fs'.drop (g.rhs r).length = gs' at hd ⊢
  generalize hvs : vs.drop (g.rhs r).length = ws at hd hact
  cases hd with
  | nil => exact ⟨s, rfl, input', hsim.forget hI⟩
  | @cons J w v gs gs' ws hgs =>
    simp only
    cases hs : sem.act r ((fs.take (g.rhs r).length).reverse.map (·.value)) u with
    | none =>
      rw [hs] at hact
      obtain ⟨s', he, hI'⟩ := hact
      refine ⟨s', ?_, input', hI'⟩
      change (eff.act _ _ s).bind _ = _
      rw [he]
      rfl
    | some wu =>
      obtain ⟨w', u'⟩ := wu
      rw [hs] at hact
      obtain ⟨v', s', he, hI'⟩ := hact
      refine ⟨⟨⟨goto g J (.n (g.lhs r)), v'⟩ :: ⟨J, v⟩ :: gs', look⟩, s', ?_, ?_⟩
      · change (eff.act _ _ s).bind _ = _
        rw [he]
        rfl
      · rcases hI' with hI' | ⟨hI', hh⟩
        · exact .live hgs.cons.cons ha hI'
        · exact .halting (hh J) ha hI'

theorem token_simulated (hsim : Simulates g eff sem I) (ha : Ahead g eff sem look input l input')
    (fs' : List (Frame R V)) (hI : I (l ++ vs) input' u s) :
    ∃ k s' l' input'', (⟨fs', look⟩ : EConfig R V K).token eff s = some (k, s') ∧
      Ahead g eff sem (some k) input l' input'' ∧ I (l' ++ vs) input'' u s' := by
  cases ha with
  | unread =>
    cases input with
    | nil =>
      obtain ⟨s', he, hI'⟩ := hsim.lex_none hI
      exact ⟨none, s', [], none, he, .eoi, hI'⟩
    | cons k input =>
      obtain ⟨k', s', he, hk, hne, hI'⟩ := hsim.lex_some hI
      exact ⟨some k', s', _, _, he, .token input hk hne, hI'⟩
  | token input hk hne => exact ⟨_, s, _, _, rfl, .token input hk hne, hI⟩
  | eoi => exact ⟨_, s, _, _, rfl, .eoi, hI⟩

theorem token_halting (hsim : Simulates g eff sem I) (ha : Ahead g eff sem look input l input')
    (fs' : List (Frame R V)) (hI : I [] input' u s) :
    ∃ k s' l' input'', (⟨fs', look⟩ : EConfig R V K).token eff s = some (k, s') ∧
      Ahead g eff sem (some k) input l' input'' ∧ I [] input'' u s' := by
  cases ha with
  | unread input =>
    obtain ⟨k, s', l', input'', he, ha, hI⟩ := token_simulated hsim (.unread input) fs'
      (show I ([] ++ []) (some input) u s from hI)
    exact ⟨k, s', l', input'', he, ha, hsim.forget hI⟩
  | token input hk hne => exact ⟨_, s, _, _, rfl, .token input hk hne, hI⟩
  | eoi => exact ⟨_, s, _, _, rfl, .eoi, hI⟩

omit [DecidableEq T] in
/-- What comes after the token is known. -/
theorem token_then {fs' : List (Frame R V)} {k : Option K} {s' : σ} {β : Type}
    (h : (⟨fs', look⟩ : EConfig R V K).token eff s = some (k, s'))
    (f : Option K → StateT σ Option β) :
    ((⟨fs', look⟩ : EConfig R V K).token eff >>= f) s = f k s' := by
  change Option.bind _ _ = _
  rw [h]
  rfl

omit [DecidableEq N] [DecidableEq T] in
theorem Ahead.symbol {k : Option K} (ha : Ahead g eff sem (some k) input l input') :
    symbol g eff k = lookahead g sem input := by
  cases ha with
  | token input hk => exact hk
  | eoi => rfl

/-- One step of both. -/
theorem estep_simulated (hsim : Simulates g eff sem I) {c : Config R W L τ} {c' : EConfig R V K}
    (h : Related g eff sem I c c' s) :
    Simulated g eff sem I c.user (step g sem c) (estep g eff c' s) := by
  cases h with
  | @live fs fs' vs look input l input' u s hf ha hI =>
    cases hf with
    | nil => exact ⟨s, rfl, input', hsim.forget hI⟩
    | @cons J w v fs fs' vs hf =>
      simp only [step, estep]
      cases hd : defaultRule g J with
      | some r =>
        rw [defaultRule_action hd]
        exact ereduce_simulated hsim r hf.cons ha hI
      | none =>
        obtain ⟨k, s', l', input'', he, ha', hI'⟩ := token_simulated hsim ha (⟨J, v⟩ :: fs') hI
        simp only [token_then he, ha'.symbol]
        cases haction : action g J (lookahead g sem input) with
        | error => exact ⟨s', rfl, input'', hsim.forget hI'⟩
        | reduce r => exact ereduce_simulated hsim r hf.cons ha' hI'
        | shift =>
          cases ha' with
          | eoi => exact ⟨s', rfl, none, hsim.forget hI'⟩
          | token input hk hne =>
            simp only [hk]
            exact ⟨_, s', rfl, .live hf.cons.cons (.unread input) hI'⟩
  | @halting J w v fs fs' look input l input' u s hh ha hI =>
    simp only [step, estep]
    have hd : defaultRule g J = none := by
      cases hd : defaultRule g J with
      | none => rfl
      | some r => rcases hh g.eoi with h | h <;> simp [defaultRule_action hd] at h
    obtain ⟨k, s', l', input'', he, ha', hI'⟩ := token_halting hsim ha (⟨J, v⟩ :: fs') hI
    simp only [hd, token_then he, ha'.symbol]
    rcases hh (lookahead g sem input) with h | ⟨h, heoi⟩
    · rw [h]
      exact ⟨s', rfl, input'', hI'⟩
    · rw [h]
      cases ha' with
      | eoi => exact ⟨s', rfl, none, hI'⟩
      | token input hk hne => exact absurd heoi hne

def SameResult (I : List (W × V) → Option (List L) → τ → σ → Prop) :
    Result τ → Option (EResult × σ) → Prop
  | .accept u, o => ∃ s, o = some (.accept, s) ∧ Ended I u s
  | .abort, o => ∃ s u, o = some (.abort, s) ∧ Ended I u s
  | .outOfFuel, _ => True

/-- Whole runs. -/
theorem erun_simulated (hsim : Simulates g eff sem I) (n : ℕ) {c : Config R W L τ}
    {c' : EConfig R V K} (h : Related g eff sem I c c' s) :
    SameResult I (run g sem n c) (erun g eff n c' s) := by
  induction n generalizing c c' s with
  | zero => trivial
  | succ n ih =>
    have hstep := estep_simulated hsim h
    rw [run, erun]
    change SameResult I _ ((estep g eff c' s).bind _)
    cases hs : step g sem c with
    | next d =>
      rw [hs] at hstep
      obtain ⟨d', s', he, hr⟩ := hstep
      rw [he]
      exact ih hr
    | accept u =>
      rw [hs] at hstep
      obtain ⟨s', he, hu⟩ := hstep
      rw [he]
      exact ⟨s', rfl, hu⟩
    | abort =>
      rw [hs] at hstep
      obtain ⟨s', he, hu⟩ := hstep
      rw [he]
      exact ⟨s', c.user, rfl, hu⟩

end ShiftReduce
