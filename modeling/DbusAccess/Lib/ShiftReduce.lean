import Mathlib.Data.List.Basic
import Mathlib.Logic.Relation

/-! The parser that an LALR generator in the tradition of yacc derives from a
grammar. States are the sets of items of the LR(0) automaton. A token that can
be shifted is shifted unless the declared precedences prefer the reduction, and
every other token leads to the reduction of the state, if there is one: this is
the generated table whenever no state has two complete items and precedence
settles a conflict only on tokens that can follow the reduced rule. -/

namespace ShiftReduce

inductive GrammarSymbol (T N : Type) where
  | t (a : T)
  | n (X : N)
  deriving DecidableEq

inductive Assoc where
  | left
  | right
  | nonassoc
  deriving DecidableEq

/-- Rules in the order of the file, the augmenting one first; `eoi` is the end of
input, which occurs in the augmenting rule only. -/
structure Grammar (T N R : Type) where
  rules : List R
  lhs : R → N
  rhs : R → List (GrammarSymbol T N)
  prec : T → Option (ℕ × Assoc)
  accept : R
  eoi : T

structure Item (R : Type) where
  rule : R
  dot : ℕ
  deriving DecidableEq

variable {T N R : Type} [DecidableEq T] [DecidableEq N] (g : Grammar T N R)

/-- The symbol after the dot. -/
def Item.next (i : Item R) : Option (GrammarSymbol T N) := (g.rhs i.rule)[i.dot]?

def nextNonterminals (I : List (Item R)) : List N :=
  I.filterMap fun i => match i.next g with
    | some (.n X) => some X
    | _ => none

/-- Nonterminals that start an expansion of one of `Xs`, in at most `k` rounds. -/
def reach : ℕ → List N → List N
  | 0, Xs => Xs
  | k + 1, Xs =>
    match (nextNonterminals g ((g.rules.filter fun r => g.lhs r ∈ Xs).map (⟨·, 0⟩))).filter
        (· ∉ Xs) with
    | [] => Xs
    | Y :: _ => reach k (Y :: Xs)

def closure (I : List (Item R)) : List (Item R) :=
  let Xs := reach g g.rules.length (nextNonterminals g I)
  I ++ (g.rules.filter fun r => g.lhs r ∈ Xs).map (⟨·, 0⟩)

def goto (I : List (Item R)) (X : GrammarSymbol T N) : List (Item R) :=
  closure g (I.filterMap fun i => if i.next g = some X then some ⟨i.rule, i.dot + 1⟩ else none)

def initial : List (Item R) := closure g [⟨g.accept, 0⟩]

/-- The rule a state reduces; the first in the file when there are several. -/
def complete (I : List (Item R)) : Option R :=
  (I.find? fun i => (i.next g).isNone).map (·.rule)

def shiftable (I : List (Item R)) (a : T) : Bool := I.any fun i => i.next g = some (.t a)

inductive Action (R : Type) where
  | shift
  | reduce (r : R)
  | error
  deriving DecidableEq

/-- A rule has the precedence of its last terminal. -/
def rulePrec (r : R) : Option (ℕ × Assoc) :=
  match ((g.rhs r).filterMap fun X => match X with
    | .t a => some a
    | .n _ => none).getLast? with
  | some a => g.prec a
  | none => none

/-- A shift/reduce conflict is settled by precedence when both the rule and the
token have one, and otherwise by shifting. -/
def resolve (r : R) (a : T) : Action R :=
  match rulePrec g r, g.prec a with
  | some (m, _), some (k, assoc) =>
    if m < k then .shift
    else if k < m then .reduce r
    else match assoc with
      | .left => .reduce r
      | .right => .shift
      | .nonassoc => .error
  | _, _ => .shift

def action (I : List (Item R)) (a : T) : Action R :=
  match complete g I with
  | none => if shiftable g I a then .shift else .error
  | some r => if shiftable g I a then resolve g r a else .reduce r

structure Frame (R V : Type) where
  state : List (Item R)
  value : V

/-- Stack with its top first, unread tokens, and the data the actions work on. -/
structure Config (R V K σ : Type) where
  stack : List (Frame R V)
  input : List K
  user : σ

/-- How tokens are classified and valued, and what the actions compute; an action
without result makes the parser give up. -/
structure Semantics (T R V K σ : Type) where
  sym : K → T
  val : K → V
  act : R → List V → σ → Option (V × σ)

inductive Outcome (R V K σ : Type) where
  | next (c : Config R V K σ)
  | accept (user : σ)
  | abort

variable {V K σ : Type} (sem : Semantics T R V K σ)

def lookahead (input : List K) : T :=
  match input with
  | [] => g.eoi
  | k :: _ => sem.sym k

def reduce (r : R) (c : Config R V K σ) : Outcome R V K σ :=
  match c.stack.drop (g.rhs r).length with
  | [] => .abort
  | below :: rest =>
    match sem.act r ((c.stack.take (g.rhs r).length).reverse.map (·.value)) c.user with
    | none => .abort
    | some (v, user) =>
      .next ⟨⟨goto g below.state (.n (g.lhs r)), v⟩ :: below :: rest, c.input, user⟩

def step (c : Config R V K σ) : Outcome R V K σ :=
  match c.stack with
  | [] => .abort
  | top :: rest =>
    match action g top.state (lookahead g sem c.input) with
    | .error => .abort
    | .reduce r => reduce g sem r c
    | .shift =>
      match c.input with
      -- only the augmenting rule has the end of input
      | [] => .accept c.user
      | k :: input =>
        .next ⟨⟨goto g top.state (.t (sem.sym k)), sem.val k⟩ :: top :: rest, input, c.user⟩

inductive Result (σ : Type) where
  | accept (user : σ)
  | abort
  | outOfFuel

def run : ℕ → Config R V K σ → Result σ
  | 0, _ => .outOfFuel
  | k + 1, c =>
    match step g sem c with
    | .next c' => run k c'
    | .accept user => .accept user
    | .abort => .abort

theorem step_shift {top : Frame R V} {rest : List (Frame R V)} {k : K} {input : List K} {user : σ}
    (h : action g top.state (sem.sym k) = .shift) :
    step g sem ⟨top :: rest, k :: input, user⟩ =
      .next ⟨⟨goto g top.state (.t (sem.sym k)), sem.val k⟩ :: top :: rest, input, user⟩ := by
  simp only [step, lookahead, h]

theorem step_error {top : Frame R V} {rest : List (Frame R V)} {input : List K} {user : σ}
    (h : action g top.state (lookahead g sem input) = .error) :
    step g sem ⟨top :: rest, input, user⟩ = .abort := by
  simp only [step, h]

/-- A reduction pops as many frames as the rule has symbols. -/
theorem step_reduce {top below : Frame R V} {fs rest : List (Frame R V)} {input : List K}
    {user : σ} {r : R} (h : action g top.state (lookahead g sem input) = .reduce r)
    (hl : (top :: fs).length = (g.rhs r).length) :
    step g sem ⟨top :: fs ++ below :: rest, input, user⟩ =
      match sem.act r ((top :: fs).reverse.map (·.value)) user with
      | none => .abort
      | some (v, user) =>
        .next ⟨⟨goto g below.state (.n (g.lhs r)), v⟩ :: below :: rest, input, user⟩ := by
  have hd : (top :: fs ++ below :: rest).drop (g.rhs r).length = below :: rest := by
    rw [← hl, List.drop_left]
  have ht : (top :: fs ++ below :: rest).take (g.rhs r).length = top :: fs := by
    rw [← hl, List.take_left]
  simp only [List.cons_append] at hd ht
  simp only [step, List.cons_append, h, reduce, hd, ht]

/-- One step that goes on. -/
def Step (c c' : Config R V K σ) : Prop := step g sem c = .next c'

/-- Finitely many such steps. -/
abbrev Steps : Config R V K σ → Config R V K σ → Prop := Relation.ReflTransGen (Step g sem)

/-- Finitely many steps lead to giving up. -/
def Aborts (c : Config R V K σ) : Prop := ∃ c', Steps g sem c c' ∧ step g sem c' = .abort

variable {g sem} in
theorem Aborts.of_steps {c c' : Config R V K σ} (h : Steps g sem c c') (ha : Aborts g sem c') :
    Aborts g sem c := by
  obtain ⟨c'', h', ha⟩ := ha
  exact ⟨c'', h.trans h', ha⟩

theorem run_of_steps {c c' : Config R V K σ} (h : Steps g sem c c') :
    ∃ k, ∀ m, run g sem (k + m) c = run g sem m c' := by
  induction h using Relation.ReflTransGen.head_induction_on with
  | refl => exact ⟨0, fun m => by rw [Nat.zero_add]⟩
  | @head a b hab _ ih =>
    obtain ⟨k, hk⟩ := ih
    refine ⟨k + 1, fun m => ?_⟩
    have hab : step g sem a = .next b := hab
    rw [show k + 1 + m = (k + m) + 1 by omega, run, hab]
    exact hk m

theorem run_add {k : ℕ} {c : Config R V K σ} {r : Result σ} (h : run g sem k c = r)
    (hr : r ≠ .outOfFuel) (m : ℕ) : run g sem (k + m) c = r := by
  induction k generalizing c with
  | zero => exact absurd h.symm hr
  | succ k ih =>
    rw [show k + 1 + m = (k + m) + 1 by omega, run]
    rw [run] at h
    cases hs : step g sem c with
    | next c' => rw [hs] at h; exact ih h
    | accept user => rw [hs] at h; exact h
    | abort => rw [hs] at h; exact h

/-! Termination. A grammar without empty rules and without cycles of unit rules
admits a rank of its nonterminals, and the rank bounds the number of steps. -/

/-- Unit rules go up in `level`, which is at most `L`. -/
structure Ranked (level : N → ℕ) (L : ℕ) : Prop where
  nonempty : ∀ r, g.rhs r ≠ []
  unit : ∀ r Y, g.rhs r = [.n Y] → level (g.lhs r) < level Y
  bound : ∀ X, level X ≤ L

/-- Number of unit reductions that can follow in a state. -/
def unitRank (level : N → ℕ) (I : List (Item R)) : ℕ :=
  match complete g I with
  | some r => if (g.rhs r).length = 1 then level (g.lhs r) + 1 else 0
  | none => 0

def potential (level : N → ℕ) (L : ℕ) (c : Config R V K σ) : ℕ :=
  (2 * L + 4) * c.input.length + (L + 2) * c.stack.length +
    match c.stack with
    | [] => 0
    | top :: _ => unitRank g level top.state

variable {g} {level : N → ℕ} {L : ℕ}

theorem complete_of_action {I : List (Item R)} {a : T} {r : R} (h : action g I a = .reduce r) :
    complete g I = some r := by
  unfold action at h
  split at h
  · split_ifs at h
  · rename_i r' hr'
    split_ifs at h
    · unfold resolve at h
      split at h
      · split_ifs at h
        · rw [hr', Action.reduce.inj h]
        · split at h
          · rw [hr', Action.reduce.inj h]
          · simp at h
          · simp at h
      · simp at h
    · rw [hr', Action.reduce.inj h]

omit [DecidableEq T] [DecidableEq N] in
theorem unitRank_le (hg : Ranked g level L) (I : List (Item R)) : unitRank g level I ≤ L + 1 := by
  unfold unitRank
  split
  · split_ifs
    · have := hg.bound (g.lhs ‹R›); omega
    · omega
  · omega

theorem complete_goto {I : List (Item R)} {X : GrammarSymbol T N} {r : R}
    (h : complete g (goto g I X) = some r) (hl : (g.rhs r).length = 1) : g.rhs r = [X] := by
  obtain ⟨i, hi, rfl⟩ := Option.map_eq_some_iff.1 h
  have hmem := List.mem_of_find?_eq_some hi
  have hnone := List.find?_some hi
  simp only [Option.isNone_iff_eq_none, Item.next, List.getElem?_eq_none_iff, hl] at hnone
  rcases List.mem_append.1 hmem with hk | hc
  · -- a kernel item: the dot has just passed `X`
    obtain ⟨j, -, hj⟩ := List.mem_filterMap.1 hk
    split_ifs at hj with hX
    obtain rfl := Option.some.inj hj
    obtain ⟨hlt, hX⟩ := List.getElem?_eq_some_iff.1 hX
    obtain ⟨Y, hY⟩ := List.length_eq_one_iff.1 hl
    simp only [hY, List.length_singleton] at hlt
    have hd : j.dot = 0 := by omega
    simp only [hY, hd, List.getElem_cons_zero] at hX
    rw [hY, hX]
  · -- an added item has its dot at the left end
    obtain ⟨r, -, rfl⟩ := List.mem_map.1 hc
    simp at hnone

theorem unitRank_goto_lt (hg : Ranked g level L) {I J : List (Item R)} {r : R}
    (h : complete g J = some r) (hl : (g.rhs r).length = 1) :
    unitRank g level (goto g I (.n (g.lhs r))) < unitRank g level J := by
  have hJ : unitRank g level J = level (g.lhs r) + 1 := by simp [unitRank, h, hl]
  rw [hJ]
  unfold unitRank
  split
  · rename_i r' hr'
    split_ifs with hl'
    · have := hg.unit r' _ (complete_goto hr' hl')
      omega
    · omega
  · omega

/-- Every step lowers the potential. -/
theorem potential_lt (hg : Ranked g level L) {c c' : Config R V K σ} (h : Step g sem c c') :
    potential g level L c' < potential g level L c := by
  obtain ⟨stack, input, user⟩ := c
  unfold Step step at h
  cases stack with
  | nil => simp at h
  | cons top rest =>
    simp only at h
    cases ha : action g top.state (lookahead g sem input) with
    | error => simp [ha] at h
    | shift =>
      simp only [ha] at h
      cases input with
      | nil => simp at h
      | cons k input =>
        obtain rfl := Outcome.next.inj h
        have := unitRank_le hg (goto g top.state (.t (sem.sym k)))
        simp only [potential, List.length_cons, Nat.mul_succ]
        omega
    | reduce r =>
      simp only [ha, reduce] at h
      have hne := List.length_pos_iff.2 (hg.nonempty r)
      cases hd : (top :: rest).drop (g.rhs r).length with
      | nil => simp [hd] at h
      | cons below rest' =>
        have hlen := congrArg List.length hd
        simp only [List.length_drop, List.length_cons] at hlen
        simp only [hd] at h
        split at h
        · simp at h
        · obtain rfl := Outcome.next.inj h
          simp only [potential, List.length_cons]
          have hle := unitRank_le hg (goto g below.state (.n (g.lhs r)))
          by_cases h1 : (g.rhs r).length = 1
          · have := unitRank_goto_lt hg (I := below.state) (complete_of_action ha) h1
            have hs : rest.length = rest'.length + 1 := by omega
            rw [hs]
            omega
          · have hs : rest'.length + 2 ≤ rest.length := by omega
            have := Nat.mul_le_mul_left (L + 2) hs
            simp only [Nat.mul_succ] at this ⊢
            omega

/-- With fuel above the potential the run comes to an end. -/
theorem run_ne_outOfFuel (hg : Ranked g level L) {k : ℕ} {c : Config R V K σ}
    (h : potential g level L c < k) : run g sem k c ≠ .outOfFuel := by
  induction k generalizing c with
  | zero => omega
  | succ k ih =>
    rw [run]
    cases hs : step g sem c with
    | next c' =>
      have := potential_lt sem hg (show Step g sem c c' from hs)
      exact ih (by omega)
    | accept user => simp
    | abort => simp

variable {sem}

private theorem run_eq (hg : Ranked g level L) {k : ℕ} {c c' : Config R V K σ} {r : Result σ}
    (h : potential g level L c < k) (hs : Steps g sem c c')
    (hr : ∀ m, run g sem (m + 1) c' = r) : run g sem k c = r := by
  obtain ⟨n, hn⟩ := run_of_steps g sem hs
  have h1 := run_add g sem rfl (run_ne_outOfFuel sem hg h) (n + 1)
  rw [← h1, show k + (n + 1) = n + (k + 1) by omega, hn, hr]

theorem run_accept (hg : Ranked g level L) {k : ℕ} {c c' : Config R V K σ} {user : σ}
    (h : potential g level L c < k) (hs : Steps g sem c c')
    (ha : step g sem c' = .accept user) : run g sem k c = .accept user :=
  run_eq hg h hs fun m => by rw [run, ha]

theorem run_abort (hg : Ranked g level L) {k : ℕ} {c : Config R V K σ}
    (h : potential g level L c < k) (ha : Aborts g sem c) : run g sem k c = .abort := by
  obtain ⟨c', hs, ha⟩ := ha
  exact run_eq hg h hs fun m => by rw [run, ha]

end ShiftReduce
