import Mathlib.Data.List.Induction

/-! Systems that run by one action after another, and the rules for what holds in
all of their runs. -/

namespace Transition

variable {σ τ α β : Type}

/-- An action is enabled where the surroundings may take it; taking it may still
fail. -/
structure System (σ α : Type) where
  init : σ
  enabled : σ → α → Prop
  exec : σ → α → Option σ

/-- The states after the actions of a run. -/
inductive Run (S : System σ α) : List α → σ → Prop
  | nil : Run S [] S.init
  | snoc {acts : List α} {a : α} {s s' : σ} : Run S acts s → S.enabled s a →
      S.exec s a = some s' → Run S (acts ++ [a]) s'

variable {S : System σ α} {T : System τ β} {acts : List α} {s s' : σ}

/-- What holds initially and is kept by every action, depending on the actions
taken so far. -/
theorem Run.induct_history {I : List α → σ → Prop} (h : Run S acts s) (hinit : I [] S.init)
    (hstep : ∀ acts s a s', Run S acts s → I acts s → S.enabled s a → S.exec s a = some s' →
      I (acts ++ [a]) s') : I acts s := by
  induction h with
  | nil => exact hinit
  | snoc hrun hen hex ih => exact hstep _ _ _ _ hrun ih hen hex

theorem Run.invariant {I : σ → Prop} (h : Run S acts s) (hinit : I S.init)
    (hstep : ∀ s a s', I s → S.enabled s a → S.exec s a = some s' → I s') : I s :=
  h.induct_history (I := fun _ s => I s) hinit fun _ s a s' _ hI => hstep s a s' hI

/-- What is seen of a state is what the last action that speaks of it said. -/
theorem Run.recalls {γ : Type} (see : σ → γ) (about : α → Option γ) (h : Run S acts s)
    (hstep : ∀ acts s a s', Run S acts s → S.enabled s a → S.exec s a = some s' →
      see s' = (about a).getD (see s)) :
    see s = (acts.filterMap about).getLast?.getD (see S.init) := by
  induction h with
  | nil => rfl
  | @snoc acts a s s' hrun hen hex ih =>
    rw [hstep _ _ _ _ hrun hen hex, ih, List.filterMap_append, List.filterMap_cons, List.filterMap_nil]
    cases about a with
    | none => simp
    | some said => simp

/-- The last action of a run. -/
theorem Run.snoc_inv {a : α} (h : Run S (acts ++ [a]) s') :
    ∃ s, Run S acts s ∧ S.enabled s a ∧ S.exec s a = some s' := by
  generalize hl : acts ++ [a] = l at h
  cases h with
  | nil => simp at hl
  | snoc hrun hen hex =>
    obtain ⟨rfl, rfl⟩ := List.append_inj' hl rfl |>.imp id List.singleton_inj.1
    exact ⟨_, hrun, hen, hex⟩

theorem Run.functional (h : Run S acts s) (h' : Run S acts s') : s = s' := by
  induction h generalizing s' with
  | nil =>
    generalize hl : ([] : List α) = l at h'
    cases h' with
    | nil => rfl
    | snoc => simp at hl
  | snoc _ _ hex ih =>
    obtain ⟨t, ht, -, hex'⟩ := h'.snoc_inv
    rw [ih ht, hex'] at hex
    exact (Option.some_inj.1 hex).symm

theorem Run.left {acts' : List α} (h : Run S (acts ++ acts') s) : ∃ t, Run S acts t := by
  induction acts' using List.reverseRecOn generalizing s with
  | nil => exact ⟨s, by rwa [List.append_nil] at h⟩
  | append_singleton acts' a ih =>
    rw [← List.append_assoc] at h
    obtain ⟨t, ht, -⟩ := h.snoc_inv
    exact ih ht

/-- What holds at some time and is kept by every action, depending on the actions taken
since then. -/
theorem Run.induct_since {I : List α → σ → Prop} {acts' : List α} (h : Run S acts s) (hI : I [] s)
    (hstep : ∀ l s a s', Run S (acts ++ l) s → I l s → S.enabled s a → S.exec s a = some s' →
      I (l ++ [a]) s') (h' : Run S (acts ++ acts') s') : I acts' s' := by
  induction acts' using List.reverseRecOn generalizing s' with
  | nil =>
    rw [List.append_nil] at h'
    exact h.functional h' ▸ hI
  | append_singleton acts' a ih =>
    rw [← List.append_assoc] at h'
    obtain ⟨t, ht, hen, hex⟩ := h'.snoc_inv
    exact hstep acts' t a s' ht (ih ht) hen hex

/-- What a state has, and every action of the system keeps, holds from then on. -/
theorem Run.kept {P : σ → Prop} {acts' : List α} (h : Run S acts s) (hP : P s)
    (hstep : ∀ acts s a s', Run S acts s → S.enabled s a → S.exec s a = some s' → P s → P s')
    (h' : Run S (acts ++ acts') s') : P s' :=
  h.induct_since (I := fun _ s => P s) hP
    (fun _ _ _ _ hrun hs hen hex => hstep _ _ _ _ hrun hen hex hs) h'

/-- The step of this number is the one that brings about `P`. -/
def Becomes (S : System σ α) (P : σ → Prop) (acts : List α) (n : ℕ) : Prop :=
  ∃ s s', Run S (acts.take n) s ∧ Run S (acts.take (n + 1)) s' ∧ ¬ P s ∧ P s'

/-- What does not hold initially, holds now and is never undone came about in one
step. -/
theorem Run.becomes_once {P : σ → Prop} (h : Run S acts s) (hinit : ¬ P S.init) (hP : P s)
    (hstep : ∀ acts s a s', Run S acts s → S.enabled s a → S.exec s a = some s' → P s → P s') :
    ∃! n, Becomes S P acts n := by
  have hexists : ∃ n, Becomes S P acts n := by
    induction h with
    | nil => exact absurd hP hinit
    | @snoc acts a s s' hrun hen hex ih =>
      by_cases hs : P s
      · obtain ⟨n, t, t', ht, ht', hn, hn'⟩ := ih hs
        have hlt : n < acts.length := by
          by_contra hle
          rw [List.take_of_length_le (by omega)] at ht ht'
          exact hn (ht.functional ht' ▸ hn')
        refine ⟨n, t, t', ?_, ?_, hn, hn'⟩
        · rwa [List.take_append_of_le_length (by omega)]
        · rwa [List.take_append_of_le_length (by omega)]
      · refine ⟨acts.length, s, s', ?_, ?_, hs, hP⟩
        · rwa [List.take_left]
        · rw [List.take_of_length_le (by simp)]
          exact hrun.snoc hen hex
  -- of two such steps the first one would be undone
  have horder : ∀ m n, m < n → Becomes S P acts m → ¬ Becomes S P acts n := by
    rintro m n hlt ⟨-, t, -, ht, -, hPt⟩ ⟨u, -, hu, -, hnot, -⟩
    have hsplit := List.take_append_drop (m + 1) (acts.take n)
    rw [List.take_take, Nat.min_eq_left hlt] at hsplit
    rw [← hsplit] at hu
    exact hnot (ht.kept hPt hstep hu)
  obtain ⟨n, hn⟩ := hexists
  refine ⟨n, hn, fun m hm => ?_⟩
  rcases Nat.lt_trichotomy m n with hlt | heq | hlt
  · exact absurd hn (horder m n hlt hm)
  · exact heq
  · exact absurd hm (horder n m hlt hn)

/-- Runs of given actions can be computed. -/
def System.replay (S : System σ α) [∀ s a, Decidable (S.enabled s a)] (s : σ) :
    List α → Option σ
  | [] => some s
  | a :: acts => if S.enabled s a then (S.exec s a).bind fun s => S.replay s acts else none

theorem Run.replay [∀ s a, Decidable (S.enabled s a)] {acts' : List α} (h : Run S acts s)
    (hr : S.replay s acts' = some s') : Run S (acts ++ acts') s' := by
  induction acts' generalizing acts s with
  | nil =>
    rw [System.replay, Option.some_inj] at hr
    rwa [List.append_nil, ← hr]
  | cons a acts' ih =>
    rw [System.replay] at hr
    split_ifs at hr with hen
    obtain ⟨t, hex, ht⟩ := Option.bind_eq_some_iff.1 hr
    have hrun := ih (h.snoc hen hex) ht
    rwa [List.append_assoc, List.singleton_append] at hrun

/-- What the runs of one system keep, seen through `f`, when each of its actions
is no step or one step of the other system. -/
theorem Run.project (f : σ → τ) (h : Run S acts s) (hinit : f S.init = T.init)
    (hstep : ∀ s a s', S.enabled s a → S.exec s a = some s' →
      f s' = f s ∨ ∃ b, T.enabled (f s) b ∧ T.exec (f s) b = some (f s')) :
    ∃ acts', Run T acts' (f s) := by
  induction h with
  | nil => exact ⟨[], hinit ▸ .nil⟩
  | snoc _ hen hex ih =>
    obtain ⟨acts', hrun⟩ := ih
    rcases hstep _ _ _ hen hex with heq | ⟨b, hen', hex'⟩
    · exact ⟨acts', heq ▸ hrun⟩
    · exact ⟨acts' ++ [b], hrun.snoc hen' hex'⟩

/-- What is lost in the course of a run is lost in one of its steps. -/
theorem Run.lost {P : σ → Prop} {acts' : List α} (h : Run S acts s) (hP : P s)
    (h' : Run S (acts ++ acts') s') (hnot : ¬ P s') : ∃ l a r t t', acts' = l ++ a :: r ∧
      Run S (acts ++ l) t ∧ P t ∧ S.enabled t a ∧ S.exec t a = some t' ∧ ¬ P t' := by
  induction acts' using List.reverseRecOn generalizing s' with
  | nil =>
    rw [List.append_nil] at h'
    exact absurd (h.functional h' ▸ hP) hnot
  | append_singleton acts' a ih =>
    rw [← List.append_assoc] at h'
    obtain ⟨t, ht, hen, hex⟩ := h'.snoc_inv
    by_cases hPt : P t
    · exact ⟨acts', a, [], t, s', rfl, ht, hPt, hen, hex, hnot⟩
    · obtain ⟨l, a', r, u, u', rfl, hu, hPu, hen', hex', hnot'⟩ := ih ht hPt
      exact ⟨l, a', r ++ [a], u, u', by simp, hu, hPu, hen', hex', hnot'⟩

/-- An action taken again and again. -/
theorem Run.iterate {a : α} (f : ℕ → σ) (h : Run S acts (f 0)) (n : ℕ)
    (hstep : ∀ k < n, S.enabled (f k) a ∧ S.exec (f k) a = some (f (k + 1))) :
    Run S (acts ++ List.replicate n a) (f n) := by
  induction n with
  | zero => rwa [List.replicate_zero, List.append_nil]
  | succ n ih =>
    obtain ⟨hen, hex⟩ := hstep n n.lt_succ_self
    rw [List.replicate_succ', ← List.append_assoc]
    exact (ih fun k hk => hstep k (Nat.lt_succ_of_lt hk)).snoc hen hex

/-- The same system, where an action is taken only when `ok` allows it. -/
def System.restrict (S : System σ α) (ok : σ → α → Prop) : System σ α :=
  { S with enabled := fun s a => S.enabled s a ∧ ok s a }

variable {ok : σ → α → Prop}

theorem Run.of_restrict (h : Run (S.restrict ok) acts s) : Run S acts s := by
  induction h with
  | nil => exact .nil
  | snoc _ hen hex ih => exact ih.snoc hen.1 hex

/-- The actions of another system that those of a run amount to, one for each. -/
inductive Labelled (S : System σ α) (lab : σ → α → β) : List α → List β → Prop
  | nil : Labelled S lab [] []
  | snoc {acts : List α} {bs : List β} {s : σ} {a : α} : Labelled S lab acts bs → Run S acts s →
      Labelled S lab (acts ++ [a]) (bs ++ [lab s a])

/-- A system simulates the other one through `f`, when each step does there what its
label says. -/
theorem Run.simulate (f : σ → τ) (lab : σ → α → β) (h : Run S acts s) (hinit : f S.init = T.init)
    (hstep : ∀ acts s a s', Run S acts s → S.enabled s a → S.exec s a = some s' →
      T.enabled (f s) (lab s a) ∧ T.exec (f s) (lab s a) = some (f s')) :
    ∃ bs, Labelled S lab acts bs ∧ Run T bs (f s) := by
  induction h with
  | nil => exact ⟨[], .nil, hinit ▸ .nil⟩
  | snoc hrun hen hex ih =>
    obtain ⟨bs, hlab, hbs⟩ := ih
    obtain ⟨hen', hex'⟩ := hstep _ _ _ _ hrun hen hex
    exact ⟨_, hlab.snoc hrun, hbs.snoc hen' hex'⟩

/-- In the course of a run an action was taken where `P` holds. -/
def Occurred (S : System σ α) (P : σ → α → Prop) (acts : List α) : Prop :=
  ∃ before a after s, acts = before ++ a :: after ∧ Run S before s ∧ P s a

theorem Occurred.snoc {P : σ → α → Prop} (h : Occurred S P acts) (a : α) :
    Occurred S P (acts ++ [a]) := by
  obtain ⟨before, b, after, s, rfl, hs, hP⟩ := h
  exact ⟨before, b, after ++ [a], s, by simp, hs, hP⟩

theorem Run.occurred {P : σ → α → Prop} {a : α} (h : Run S acts s) (hP : P s a) :
    Occurred S P (acts ++ [a]) :=
  ⟨acts, a, [], s, rfl, h, hP⟩

theorem Run.occurred_snoc {P : σ → α → Prop} {a : α} (h : Run S acts s) :
    Occurred S P (acts ++ [a]) ↔ Occurred S P acts ∨ P s a := by
  refine ⟨?_, fun hP => hP.elim (fun hP => hP.snoc a) h.occurred⟩
  rintro ⟨before, b, after, t, hsplit, ht, hP⟩
  rcases List.eq_nil_or_concat after with rfl | ⟨after, c, rfl⟩
  · obtain ⟨rfl, hb⟩ := List.append_inj' hsplit rfl
    obtain rfl := List.singleton_inj.1 hb
    exact Or.inr (h.functional ht ▸ hP)
  · rw [List.concat_eq_append, ← List.cons_append, ← List.append_assoc] at hsplit
    obtain ⟨rfl, -⟩ := List.append_inj' hsplit rfl
    exact Or.inl ⟨before, b, after, t, rfl, ht, hP⟩

end Transition
