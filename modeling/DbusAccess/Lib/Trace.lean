import Mathlib.Control.Monad.Writer

/-! Programs that record what they do, and the rules for what holds of everything
that they record. -/

/-- A program with a result, and the events of its run in their order. -/
abbrev Trace (ε α : Type) : Type := Writer (List ε) α

namespace Trace

variable {ε α β : Type} {P P' : ε → Prop} {Q Q' : α → Prop} {R : β → Prop}

def value (m : Trace ε α) : α := m.run.1

def events (m : Trace ε α) : List ε := m.run.2

def emit (e : ε) : Trace ε PUnit := tell [e]

@[simp] theorem value_pure (a : α) : (pure a : Trace ε α).value = a := rfl

@[simp] theorem value_emit (e : ε) : (emit e).value = ⟨⟩ := rfl

@[simp] theorem value_bind (m : Trace ε α) (f : α → Trace ε β) :
    (m >>= f).value = (f m.value).value := rfl

@[simp] theorem value_ite (c : Prop) [Decidable c] (m m' : Trace ε α) :
    (if c then m else m').value = if c then m.value else m'.value :=
  apply_ite value c m m'

/-- `P` holds of all events. -/
def All (P : ε → Prop) (m : Trace ε α) : Prop := ∀ e ∈ m.events, P e

@[simp] theorem all_pure (a : α) : All P (pure a : Trace ε α) ↔ True :=
  iff_true_intro fun _ he => absurd he List.not_mem_nil

@[simp] theorem all_emit (e : ε) : All P (emit e) ↔ P e :=
  List.forall_mem_singleton

@[simp] theorem all_bind (m : Trace ε α) (f : α → Trace ε β) :
    All P (m >>= f) ↔ All P m ∧ All P (f m.value) :=
  List.forall_mem_append

@[simp] theorem all_ite (c : Prop) [Decidable c] (m m' : Trace ε α) :
    All P (if c then m else m') ↔ if c then All P m else All P m' := by
  split_ifs <;> rfl

theorem All.imp {m : Trace ε α} (h : All P m) (hP : ∀ e, P e → P' e) : All P' m :=
  fun e he => hP e (h e he)

/-- The events satisfy `P` and the result satisfies `Q`. -/
def Sat (P : ε → Prop) (m : Trace ε α) (Q : α → Prop) : Prop := All P m ∧ Q m.value

theorem Sat.pure {a : α} (h : Q a) : Sat P (Pure.pure a : Trace ε α) Q :=
  ⟨(all_pure a).2 trivial, h⟩

theorem Sat.bind {m : Trace ε α} {f : α → Trace ε β} (h : Sat P m Q)
    (hf : ∀ a, Q a → Sat P (f a) R) : Sat P (m >>= f) R :=
  ⟨(all_bind m f).2 ⟨h.1, (hf _ h.2).1⟩, (hf _ h.2).2⟩

theorem Sat.ite {c : Prop} [Decidable c] {m m' : Trace ε α} (h : c → Sat P m Q)
    (h' : ¬ c → Sat P m' Q) : Sat P (if c then m else m') Q := by
  by_cases hc : c
  · rw [if_pos hc]
    exact h hc
  · rw [if_neg hc]
    exact h' hc

theorem Sat.imp {m : Trace ε α} (h : Sat P m Q) (hQ : ∀ a, Q a → Q' a) : Sat P m Q' :=
  ⟨h.1, hQ _ h.2⟩

end Trace
