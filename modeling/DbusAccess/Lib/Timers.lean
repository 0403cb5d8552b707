import DbusAccess.Lib.Transition

/-! Systems with timers, and the clock. A timer is due when its interval has passed
since it was started. The main loop may call back a little early or late, and the clock
does not pass a timer that is as late as that. -/

namespace Timers

open Transition

variable {σ α : Type}

/-- The interval of each pending timer, and the timer that an action is the callback of. -/
structure Timed (S : System σ α) where
  interval : σ → ℕ → Option ℕ
  fires : α → Option ℕ
  early : ℕ
  late : ℕ

structure Clocked (σ : Type) where
  state : σ
  now : ℕ
  due : ℕ → ℕ

inductive TimedAct (α : Type) where
  | act (a : α)
  | tick

variable {S : System σ α} (T : Timed S) {c c' : Clocked σ} {s s' : σ} {a : α} {id : ℕ}
  {acts acts' : List (TimedAct α)}

/-- When timers are due after a step, with those it has started. -/
def Timed.start (c : Clocked σ) (s : σ) (id : ℕ) : ℕ :=
  match T.interval c.state id, T.interval s id with
  | none, some n => c.now + n
  | _, _ => c.due id

def Timed.enabled (c : Clocked σ) : TimedAct α → Prop
  | .act a => S.enabled c.state a ∧ ∀ id, T.fires a = some id → c.due id ≤ c.now + T.early
  | .tick => ∀ id, (T.interval c.state id).isSome → c.now < c.due id + T.late

def Timed.exec (c : Clocked σ) : TimedAct α → Option (Clocked σ)
  | .act a => (S.exec c.state a).map fun s => ⟨s, c.now, T.start c s⟩
  | .tick => some { c with now := c.now + 1 }

def Timed.system : System (Clocked σ) (TimedAct α) where
  init := ⟨S.init, 0, fun _ => 0⟩
  enabled := T.enabled
  exec := T.exec

variable {T}

theorem Timed.start_of_pending {n : ℕ} (h : T.interval c.state id = some n) (s : σ) :
    T.start c s id = c.due id := by
  rw [Timed.start, h]

theorem Timed.start_new {n : ℕ} (h : T.interval c.state id = none)
    (h' : T.interval s id = some n) : T.start c s id = c.now + n := by
  rw [Timed.start, h, h']

theorem Timed.exec_act (h : T.exec c (.act a) = some c') :
    S.exec c.state a = some c'.state ∧ c'.now = c.now ∧ c'.due = T.start c c'.state := by
  obtain ⟨s, hs, rfl⟩ := Option.map_eq_some_iff.1 h
  exact ⟨hs, rfl, rfl⟩

/-! Runs. -/

/-- A step of the system in time. -/
theorem Timed.step (h : Run T.system acts c) (hen : T.enabled c (.act a))
    (hs : S.exec c.state a = some s) :
    Run T.system (acts ++ [.act a]) ⟨s, c.now, T.start c s⟩ := by
  refine h.snoc hen ?_
  change (S.exec c.state a).map _ = _
  rw [hs, Option.map_some]

/-- Without the clock. -/
theorem Timed.untimed (h : Run T.system acts c) : ∃ acts', Run S acts' c.state := by
  refine h.project Clocked.state rfl ?_
  intro c x c' hen hex
  cases x with
  | tick =>
    obtain rfl := Option.some.inj hex
    exact Or.inl rfl
  | act a => exact Or.inr ⟨a, hen.1, (Timed.exec_act hex).1⟩

theorem Timed.now_le {n : ℕ} (h : Run T.system acts c) (hn : n ≤ c.now)
    (h' : Run T.system (acts ++ acts') c') : n ≤ c'.now := by
  refine h.kept (P := fun c => n ≤ c.now) hn (fun _ c x c' _ _ hex hle => ?_) h'
  cases x with
  | tick =>
    obtain rfl := Option.some.inj hex
    exact Nat.le_succ_of_le hle
  | act a =>
    rw [(Timed.exec_act hex).2.1]
    exact hle

/-- No timer is later than the main loop may be. -/
theorem Timed.not_overdue (h : Run T.system acts c) : ∀ id, (T.interval c.state id).isSome →
    c.now ≤ c.due id + T.late := by
  refine h.invariant (I := fun c => ∀ id, (T.interval c.state id).isSome →
    c.now ≤ c.due id + T.late) (fun _ _ => Nat.zero_le _) ?_
  intro c x c' hc hen hex id hid
  cases x with
  | tick =>
    obtain rfl := Option.some.inj hex
    exact hen id hid
  | act a =>
    obtain ⟨-, hnow, hdue⟩ := Timed.exec_act hex
    obtain ⟨n, hn⟩ := Option.isSome_iff_exists.1 hid
    rw [hnow, hdue]
    cases hold : T.interval c.state id with
    | none =>
      rw [Timed.start_new hold hn]
      omega
    | some m =>
      rw [Timed.start_of_pending hold]
      exact hc id (by rw [hold]; rfl)

/-- Time passes as long as no timer gets too late. -/
theorem Timed.ticks (h : Run T.system acts c) (n : ℕ)
    (hn : ∀ id, (T.interval c.state id).isSome → c.now + n ≤ c.due id + T.late) :
    Run T.system (acts ++ List.replicate n .tick) { c with now := c.now + n } := by
  have hrun : Run T.system acts { c with now := c.now + 0 } := h
  refine hrun.iterate (a := .tick) (fun k => { c with now := c.now + k }) n fun k hk => ⟨?_, rfl⟩
  intro id hid
  exact Nat.lt_of_lt_of_le (Nat.add_lt_add_left hk _) (hn id hid)

end Timers
