import Mathlib.Algebra.BigOperators.Group.List.Basic
import Mathlib.Algebra.Order.Monoid.Defs
import Mathlib.Data.Finmap
import Mathlib.Order.ConditionallyCompleteLattice.Basic
import Mathlib.Order.CompletePartialOrder

/-! Programs over a heap of blocks, and a logic for them in which an assertion speaks
of the blocks it owns. Assertions form a commutative monoid: a product holds where the
blocks can be divided among its factors, and the unit owns nothing. -/

namespace Separation

variable {α γ β : Type}

/-- Blocks and their contents. -/
abbrev Blocks (β : Type) := Finmap fun _ : ℕ => β

/-- The blocks that are allocated, under numbers that are never used again. -/
structure Heap (β : Type) where
  blocks : Blocks β
  next : ℕ
  fresh : ∀ p ∈ blocks, p < next

namespace Heap

def empty : Heap β := ⟨∅, 0, fun _ h => absurd h Finmap.notMem_empty⟩

theorem notMem_next (h : Heap β) : h.next ∉ h.blocks := fun hm => (h.fresh _ hm).false

def alloc (h : Heap β) (b : β) : Heap β where
  blocks := h.blocks.insert h.next b
  next := h.next + 1
  fresh p hp := by
    rcases Finmap.mem_insert.1 hp with rfl | hp
    · omega
    · exact Nat.lt_succ_of_lt (h.fresh p hp)

def write (h : Heap β) (p : ℕ) (b : β) (hp : p ∈ h.blocks) : Heap β where
  blocks := h.blocks.insert p b
  next := h.next
  fresh q hq := by
    rcases Finmap.mem_insert.1 hq with rfl | hq
    · exact h.fresh _ hp
    · exact h.fresh q hq

def free (h : Heap β) (p : ℕ) : Heap β where
  blocks := h.blocks.erase p
  next := h.next
  fresh q hq := h.fresh q (Finmap.mem_erase.1 hq).2

end Heap

/-- A program fails where it uses a block that is not allocated. -/
abbrev Prog (β α : Type) := StateT (Heap β) Option α

def alloc (b : β) : Prog β ℕ := fun h => some (h.next, h.alloc b)

def read (p : ℕ) : Prog β β := fun h => (h.blocks.lookup p).map (·, h)

def write (p : ℕ) (b : β) : Prog β Unit := fun h =>
  if hp : p ∈ h.blocks then some ((), h.write p b hp) else none

def free (p : ℕ) : Prog β Unit := fun h => if p ∈ h.blocks then some ((), h.free p) else none

/-- Fails on a block of another kind. -/
def freeIf (ok : β → Bool) (p : ℕ) : Prog β Unit := do
  if ok (← read p) then free p else failure

/-- How many blocks there have been, a bound for walks from block to block. -/
def bound : Prog β ℕ := fun h => some (h.next, h)

theorem run_bind {c : Prog β α} {f : α → Prog β γ} {h h' : Heap β} {a : α}
    (hc : c h = some (a, h')) : (c >>= f) h = f a h' := by
  change (c h).bind _ = _
  rw [hc]
  rfl

theorem bind_eq_some {c : Prog β α} {f : α → Prog β γ} {h : Heap β} {r : γ × Heap β} :
    (c >>= f) h = some r ↔ ∃ a h', c h = some (a, h') ∧ f a h' = some r := by
  change (c h).bind (fun x => f x.1 x.2) = some r ↔ _
  rw [Option.bind_eq_some_iff]
  exact ⟨fun ⟨⟨a, h'⟩, hc, hf⟩ => ⟨a, h', hc, hf⟩, fun ⟨a, h', hc, hf⟩ => ⟨(a, h'), hc, hf⟩⟩

/-- What a program keeps when it does not fail. -/
def Keeps (I : Heap β → Prop) (c : Prog β α) : Prop :=
  ∀ h a h', I h → c h = some (a, h') → I h'

namespace Keeps

variable {I : Heap β → Prop} {c : Prog β α} {f : α → Prog β γ}

theorem pure (a : α) : Keeps I (Pure.pure a : Prog β α) := by
  intro h a' h' hI hex
  obtain ⟨-, rfl⟩ := Prod.mk.inj (Option.some.inj hex)
  exact hI

theorem failure : Keeps I (Alternative.failure : Prog β α) := fun _ _ _ _ hex => by cases hex

theorem bind (hc : Keeps I c) (hf : ∀ a, Keeps I (f a)) : Keeps I (c >>= f) := by
  intro h b h' hI hex
  obtain ⟨a, h1, h1eq, hex⟩ := bind_eq_some.1 hex
  exact hf a h1 b h' (hc h a h1 hI h1eq) hex

theorem read (p : ℕ) : Keeps I (Separation.read p : Prog β β) := by
  intro h b h' hI hex
  obtain ⟨_, _, heq⟩ := Option.map_eq_some_iff.1 hex
  obtain ⟨-, rfl⟩ := Prod.mk.inj heq
  exact hI

theorem freeIf {ok : β → Bool} {p : ℕ}
    (hfree : ∀ h b, I h → h.blocks.lookup p = some b → ok b = true → I (h.free p)) :
    Keeps I (Separation.freeIf ok p) := by
  intro h a h' hI hex
  obtain ⟨b, h1, hb, hex⟩ := bind_eq_some.1 hex
  obtain ⟨b', hlookup, heq⟩ := Option.map_eq_some_iff.1 hb
  obtain ⟨rfl, rfl⟩ := Prod.mk.inj heq
  split_ifs at hex with hok
  · unfold free at hex
    split_ifs at hex with hmem
    obtain ⟨-, rfl⟩ := Prod.mk.inj (Option.some.inj hex)
    exact hfree h b' hI hlookup hok
  · cases hex

end Keeps

/-- What is said about the blocks that are owned. -/
def Assertion (β : Type) := Blocks β → Prop

namespace Assertion

instance : CompleteLattice (Assertion β) :=
  inferInstanceAs (CompleteLattice (Blocks β → Prop))

theorem ext {P Q : Assertion β} (h : ∀ b, P b ↔ Q b) : P = Q := funext fun b => propext (h b)

instance : One (Assertion β) := ⟨fun b => b = ∅⟩

instance : Mul (Assertion β) :=
  ⟨fun P Q b => ∃ b1 b2, b1.Disjoint b2 ∧ b = b1 ∪ b2 ∧ P b1 ∧ Q b2⟩

private theorem sep_comm (P Q : Assertion β) : P * Q = Q * P := by
  refine ext fun b => ⟨?_, ?_⟩ <;>
  · rintro ⟨b1, b2, hd, rfl, h1, h2⟩
    exact ⟨b2, b1, hd.symm, Finmap.union_comm_of_disjoint hd, h2, h1⟩

private theorem sep_assoc (P Q R : Assertion β) : P * Q * R = P * (Q * R) := by
  refine ext fun b => ⟨?_, ?_⟩
  · rintro ⟨-, b3, hd, rfl, ⟨b1, b2, hd', rfl, h1, h2⟩, h3⟩
    rw [Finmap.disjoint_union_left] at hd
    exact ⟨b1, b2 ∪ b3, Finmap.disjoint_union_right _ _ _ |>.2 ⟨hd', hd.1⟩,
      Finmap.union_assoc, h1, b2, b3, hd.2, rfl, h2, h3⟩
  · rintro ⟨b1, -, hd, rfl, h1, b2, b3, hd', rfl, h2, h3⟩
    rw [Finmap.disjoint_union_right] at hd
    exact ⟨b1 ∪ b2, b3, Finmap.disjoint_union_left _ _ _ |>.2 ⟨hd.2, hd'⟩,
      Finmap.union_assoc.symm, ⟨b1, b2, hd.1, rfl, h1, h2⟩, h3⟩

private theorem one_sep (P : Assertion β) : 1 * P = P := by
  refine ext fun b => ⟨?_, fun h => ?_⟩
  · rintro ⟨-, b2, -, rfl, rfl, h⟩
    rwa [Finmap.empty_union]
  · exact ⟨∅, b, Finmap.disjoint_empty b, Finmap.empty_union.symm, rfl, h⟩

instance : CommMonoid (Assertion β) where
  mul_assoc := sep_assoc
  mul_comm := sep_comm
  one_mul := one_sep
  mul_one P := by rw [sep_comm, one_sep]

instance : IsOrderedMonoid (Assertion β) where
  mul_le_mul_left P Q h R := by
    rintro b ⟨b1, b2, hd, rfl, h1, h2⟩
    exact ⟨b1, b2, hd, rfl, h _ h1, h2⟩

/-- The one block, with this content. -/
def single (p : ℕ) (c : β) : Assertion β := fun b => b = (Finmap.singleton p c : Blocks β)

/-- These blocks and no others. -/
def exactly (b : Blocks β) : Assertion β := fun b' => b' = b

/-- Owns nothing and says something. -/
def fact (φ : Prop) : Assertion β := fun b => φ ∧ b = ∅

theorem fact_mul {φ : Prop} {P : Assertion β} {b : Blocks β} :
    (fact φ * P : Assertion β) b ↔ φ ∧ P b := by
  refine ⟨?_, fun h => ⟨∅, b, Finmap.disjoint_empty b, Finmap.empty_union.symm, ⟨h.1, rfl⟩, h.2⟩⟩
  rintro ⟨-, b2, -, rfl, ⟨hφ, rfl⟩, h⟩
  rw [Finmap.empty_union]
  exact ⟨hφ, h⟩

theorem fact_true {φ : Prop} (h : φ) : (fact φ : Assertion β) = 1 :=
  ext fun _ => ⟨And.right, fun hb => ⟨h, hb⟩⟩

theorem iSup_iff {P : α → Assertion β} {b : Blocks β} :
    (⨆ a, P a : Assertion β) b ↔ ∃ a, P a b := by
  have h : (⨆ a, P a) b ↔ (⨆ a, P a b) := by
    rw [show (⨆ a, P a) b = ⨆ a, P a b from iSup_apply]
  rw [h, iSup_Prop_eq]

theorem iSup_mul (P : α → Assertion β) (Q : Assertion β) : (⨆ a, P a) * Q = ⨆ a, P a * Q := by
  refine ext fun b => ?_
  rw [iSup_iff]
  refine ⟨?_, ?_⟩
  · rintro ⟨b1, b2, hd, rfl, h1, h2⟩
    obtain ⟨a, h1⟩ := iSup_iff.1 h1
    exact ⟨a, b1, b2, hd, rfl, h1, h2⟩
  · rintro ⟨a, b1, b2, hd, rfl, h1, h2⟩
    exact ⟨b1, b2, hd, rfl, iSup_iff.2 ⟨a, h1⟩, h2⟩

theorem mul_iSup (Q : Assertion β) (P : α → Assertion β) : Q * (⨆ a, P a) = ⨆ a, Q * P a := by
  simp only [mul_comm Q, iSup_mul]

/-- A block among others. -/
theorem single_mul {p : ℕ} {c : β} {P : Assertion β} {b : Blocks β} :
    (single p c * P : Assertion β) b ↔ b.lookup p = some c ∧ P (b.erase p) := by
  constructor
  · rintro ⟨-, b2, hd, rfl, rfl, h⟩
    have hp : p ∉ b2 := fun hp => hd p (Finmap.mem_singleton _ _ _ |>.2 rfl) hp
    have hs : p ∈ (Finmap.singleton p c : Blocks β) := Finmap.mem_singleton _ _ _ |>.2 rfl
    refine ⟨by rw [Finmap.lookup_union_left hs, Finmap.lookup_singleton_eq], ?_⟩
    have he : ((Finmap.singleton p c : Blocks β) ∪ b2).erase p = b2 := by
      refine Finmap.ext_lookup fun q => ?_
      by_cases hq : q = p
      · rw [hq, Finmap.lookup_erase, Finmap.lookup_eq_none.2 hp]
      · rw [Finmap.lookup_erase_ne hq, Finmap.lookup_union_right]
        rwa [Finmap.mem_singleton]
    rwa [he]
  · rintro ⟨hc, h⟩
    refine ⟨Finmap.singleton p c, b.erase p, fun q hq => ?_, ?_, rfl, h⟩
    · rw [Finmap.mem_singleton] at hq
      exact hq ▸ Finmap.notMem_erase_self
    · refine Finmap.ext_lookup fun q => ?_
      by_cases hq : q = p
      · rw [hq, Finmap.lookup_union_left (Finmap.mem_singleton _ _ _ |>.2 rfl),
          Finmap.lookup_singleton_eq, hc]
      · rw [Finmap.lookup_union_right (by rwa [Finmap.mem_singleton]), Finmap.lookup_erase_ne hq]

/-- A block is not owned twice. -/
theorem single_twice {p : ℕ} {c c' : β} {P : Assertion β} {b : Blocks β}
    (h : (single p c * (single p c' * P) : Assertion β) b) : False := by
  have hl := (single_mul.1 (single_mul.1 h).2).1
  rw [Finmap.lookup_erase] at hl
  cases hl

/-- These blocks, with these contents. -/
def owned (l : List (ℕ × β)) : Assertion β := (l.map fun c => single c.1 c.2).prod

theorem owned_cons (c : ℕ × β) (l : List (ℕ × β)) : owned (c :: l) = single c.1 c.2 * owned l := by
  rw [owned, List.map_cons, List.prod_cons, owned]

theorem owned_mem {p : ℕ} {c : β} {l : List (ℕ × β)} (h : (p, c) ∈ l) :
    ∃ R, owned l = single p c * R := by
  obtain ⟨s, t, rfl⟩ := List.append_of_mem h
  refine ⟨owned s * owned t, ?_⟩
  rw [owned, List.map_append, List.prod_append, List.map_cons, List.prod_cons, mul_left_comm]
  rfl

end Assertion

open Assertion

/-- From blocks with `P` the program does not fail and leads to blocks with `Q`, whatever
other blocks there are; those stay as they are. -/
def Triple (P : Assertion β) (c : Prog β α) (Q : α → Assertion β) : Prop :=
  ∀ (h : Heap β) (F : Assertion β), (P * F) h.blocks →
    ∃ a h', c h = some (a, h') ∧ (Q a * F) h'.blocks

namespace Triple

variable {P R : Assertion β} {Q Q' : α → Assertion β} {S : γ → Assertion β} {c : Prog β α}
  {f : α → Prog β γ}

theorem pure {a : α} (h : P ≤ Q a) : Triple P (Pure.pure a) Q := fun hp _ hP =>
  ⟨a, hp, rfl, mul_le_mul_left h _ _ hP⟩

theorem frame (h : Triple P c Q) (R : Assertion β) : Triple (P * R) c fun a => Q a * R := by
  intro hp F hP
  rw [mul_assoc] at hP
  simpa only [mul_assoc] using h hp (R * F) hP

theorem bind (h : Triple P c Q) (hf : ∀ a, Triple (Q a) (f a) S) : Triple P (c >>= f) S := by
  intro hp F hP
  obtain ⟨a, hp', hc, hQ⟩ := h hp F hP
  obtain ⟨b, hp'', hb, hS⟩ := hf a hp' F hQ
  refine ⟨b, hp'', ?_, hS⟩
  change (c hp).bind _ = _
  rw [hc]
  exact hb

theorem mono (h : Triple P c Q) (hR : R ≤ P) (hQ : ∀ a, Q a ≤ Q' a) : Triple R c Q' := by
  intro hp F hP
  obtain ⟨a, hp', hc, hQF⟩ := h hp F (mul_le_mul_left hR F _ hP)
  exact ⟨a, hp', hc, mul_le_mul_left (hQ a) F _ hQF⟩

/-- What is owned is looked at in another way. -/
theorem pre (P' : Assertion β) (hP : P = P') (h : Triple P' c Q) : Triple P c Q := hP ▸ h

theorem post (h : Triple P c Q) (hQ : ∀ a, Q a ≤ Q' a) : Triple P c Q' := h.mono le_rfl hQ

theorem fact {φ : Prop} (h : φ → Triple P c Q) : Triple (fact φ * P) c Q := by
  intro hp F hP
  rw [mul_assoc, fact_mul] at hP
  exact h hP.1 hp F hP.2

/-- What an assertion implies is known. -/
theorem sure {φ : Prop} (hP : ∀ b, P b → φ) (h : φ → Triple (P * R) c Q) :
    Triple (P * R) c Q := by
  intro hp F hPF
  have hφ : φ := by
    rw [mul_assoc] at hPF
    obtain ⟨b1, -, -, -, hb, -⟩ := hPF
    exact hP b1 hb
  exact h hφ hp F hPF

theorem exist {ι : Type} {P : ι → Assertion β} (h : ∀ i, Triple (P i) c Q) :
    Triple (⨆ i, P i) c Q := by
  intro hp F hP
  rw [iSup_mul, iSup_iff] at hP
  obtain ⟨i, hP⟩ := hP
  exact h i hp F hP

/-- A call, with what it does not need beside it. -/
theorem call (h : Triple P c Q) (hf : ∀ a, Triple (Q a * R) (f a) S) :
    Triple (P * R) (c >>= f) S := (h.frame R).bind hf

/-- A call at the end of a program. -/
theorem last (h : Triple P (c >>= Pure.pure) Q) : Triple P c Q := by rwa [bind_pure] at h

end Triple

/-- The program finds out a value, and leaves everything as it is. -/
def Observes (P : Assertion β) (c : Prog β α) (v : α) : Prop :=
  Triple P c fun a => Assertion.fact (a = v) * P

namespace Observes

variable {P R : Assertion β} {Q : γ → Assertion β} {c : Prog β α} {v : α} {f : α → Prog β γ}

theorem pure (v : α) : Observes P (Pure.pure v) v :=
  Triple.pure (by rw [fact_true rfl, one_mul])

theorem frame (h : Observes P c v) (R : Assertion β) : Observes (P * R) c v := by
  have hf := Triple.frame h R
  simp only [mul_assoc] at hf
  exact hf

theorem bind (h : Observes P c v) (hf : Triple P (f v) Q) : Triple P (c >>= f) Q :=
  Triple.bind h fun _ => .fact fun ha => ha ▸ hf

theorem within (P' : Assertion β) (hP : P = P') (h : Observes P' c v) : Observes P c v := hP ▸ h

theorem fact {φ : Prop} (h : φ → Observes P c v) : Observes (Assertion.fact φ * P) c v := by
  refine Triple.fact fun hφ => ?_
  rw [fact_true hφ, one_mul]
  exact h hφ

/-- What is found out in a run. -/
theorem run {F : Assertion β} {h : Heap β} (hc : Observes P c v) (hP : (P * F) h.blocks) :
    ∃ h', c h = some (v, h') ∧ (P * F) h'.blocks := by
  obtain ⟨v', h', he, hP⟩ := hc h F hP
  rw [mul_assoc] at hP
  obtain rfl := (fact_mul.1 hP).1
  exact ⟨h', he, (fact_mul.1 hP).2⟩

theorem map (h : Observes P c v) (k : α → γ) :
    Observes P (c >>= fun a => Pure.pure (k a)) (k v) := h.bind (pure (k v))

theorem post (h : Observes P c v) (hP : P ≤ R) :
    Triple P c fun a => Assertion.fact (a = v) * R :=
  Triple.post h fun _ => mul_le_mul_right hP _

theorem and {c1 c2 : Prog β Bool} {v1 v2 : Bool} (h1 : Observes P c1 v1)
    (h2 : Observes P c2 v2) : Observes P (c1 <&&> c2) (v1 && v2) := by
  refine h1.bind ?_
  cases v1 with
  | false => exact pure false
  | true => exact h2

theorem or {c1 c2 : Prog β Bool} {v1 v2 : Bool} (h1 : Observes P c1 v1)
    (h2 : Observes P c2 v2) : Observes P (c1 <||> c2) (v1 || v2) := by
  refine h1.bind ?_
  cases v1 with
  | false => exact h2
  | true => exact pure true

end Observes

/-! How many blocks an assertion owns at least. -/

def AtLeast (n : ℕ) (P : Assertion β) : Prop := ∀ b, P b → n ≤ b.keys.card

namespace AtLeast

variable {m n : ℕ} {P Q : Assertion β}

theorem zero (P : Assertion β) : AtLeast 0 P := fun _ _ => Nat.zero_le _

theorem single (p : ℕ) (c : β) : AtLeast 1 (single p c) := by
  rintro _ rfl
  rw [Finmap.keys_singleton, Finset.card_singleton]

theorem mul (hP : AtLeast m P) (hQ : AtLeast n Q) : AtLeast (m + n) (P * Q) := by
  rintro _ ⟨b1, b2, hd, rfl, h1, h2⟩
  have hk : Disjoint b1.keys b2.keys := by
    rw [Finset.disjoint_left]
    exact fun p hp1 hp2 => hd p (Finmap.mem_keys.1 hp1) (Finmap.mem_keys.1 hp2)
  rw [Finmap.keys_union, Finset.card_union_of_disjoint hk]
  exact Nat.add_le_add (hP b1 h1) (hQ b2 h2)

theorem iSup {ι : Type} {P : ι → Assertion β} (h : ∀ i, AtLeast n (P i)) :
    AtLeast n (⨆ i, P i) := by
  intro b hb
  obtain ⟨i, hi⟩ := iSup_iff.1 hb
  exact h i b hi

theorem fact_mul {φ : Prop} (h : φ → AtLeast n P) : AtLeast n (fact φ * P) := by
  intro b hb
  obtain ⟨hφ, hP⟩ := Assertion.fact_mul.1 hb
  exact h hφ b hP

theorem le (h : AtLeast n P) (hmn : m ≤ n) : AtLeast m P := fun b hb => hmn.trans (h b hb)

end AtLeast

theorem Heap.card_le (h : Heap β) : h.blocks.keys.card ≤ h.next := by
  have hs : h.blocks.keys ⊆ Finset.range h.next := fun p hp =>
    Finset.mem_range.2 (h.fresh p (Finmap.mem_keys.1 hp))
  calc h.blocks.keys.card ≤ (Finset.range h.next).card := Finset.card_le_card hs
    _ = h.next := Finset.card_range _

section Primitives

variable {R : Assertion β} {S : γ → Assertion β} {p : ℕ} {b b' : β}

theorem alloc_triple (b : β) : Triple 1 (alloc b) fun p => single p b := by
  intro h F hF
  rw [one_mul] at hF
  refine ⟨h.next, h.alloc b, rfl, single_mul.2 ⟨Finmap.lookup_insert _, ?_⟩⟩
  have he : (h.alloc b).blocks.erase h.next = h.blocks := by
    refine Finmap.ext_lookup fun q => ?_
    by_cases hq : q = h.next
    · rw [hq, Finmap.lookup_erase, Finmap.lookup_eq_none.2 h.notMem_next]
    · rw [Finmap.lookup_erase_ne hq, Heap.alloc, Finmap.lookup_insert_of_ne _ hq]
  rwa [he]

theorem read_triple : Triple (single p b) (read p) fun c => fact (c = b) * single p b := by
  intro h F hF
  have hl := (single_mul.1 hF).1
  refine ⟨b, h, by rw [read, hl]; rfl, ?_⟩
  rw [mul_assoc]
  exact fact_mul.2 ⟨rfl, hF⟩

theorem write_triple : Triple (single p b) (write p b') fun _ => single p b' := by
  intro h F hF
  obtain ⟨hl, hF⟩ := single_mul.1 hF
  have hp : p ∈ h.blocks := Finmap.mem_of_lookup_eq_some hl
  refine ⟨(), h.write p b' hp, by rw [write, dif_pos hp], ?_⟩
  refine single_mul.2 ⟨Finmap.lookup_insert _, ?_⟩
  have he : (h.write p b' hp).blocks.erase p = h.blocks.erase p := by
    refine Finmap.ext_lookup fun q => ?_
    by_cases hq : q = p
    · rw [hq, Finmap.lookup_erase, Finmap.lookup_erase]
    · rw [Finmap.lookup_erase_ne hq, Finmap.lookup_erase_ne hq, Heap.write,
        Finmap.lookup_insert_of_ne _ hq]
  rwa [he]

theorem free_triple : Triple (single p b) (free p) fun _ => 1 := by
  intro h F hF
  obtain ⟨hl, hF⟩ := single_mul.1 hF
  refine ⟨(), h.free p, by rw [free, if_pos (Finmap.mem_of_lookup_eq_some hl)], ?_⟩
  rwa [one_mul]

/-- What comes behind an access to a block. -/
theorem Triple.alloc {f : ℕ → Prog β γ} (h : ∀ p, Triple (single p b * R) (f p) S) :
    Triple R (alloc b >>= f) S := by
  have := (alloc_triple b).call h
  rwa [one_mul] at this

theorem Triple.read {f : β → Prog β γ} (h : Triple (single p b * R) (f b) S) :
    Triple (single p b * R) (read p >>= f) S := by
  refine read_triple.call fun c => ?_
  rw [mul_assoc]
  exact .fact fun hc => hc ▸ h

/-- Access to one of several blocks. -/
theorem Triple.look {l : List (ℕ × β)} {f : β → Prog β γ} (hp : (p, b) ∈ l)
    (h : Triple (owned l * R) (f b) S) : Triple (owned l * R) (Separation.read p >>= f) S := by
  obtain ⟨R', hR⟩ := owned_mem hp
  rw [hR, mul_assoc] at h ⊢
  exact .read h

theorem Triple.write {f : Unit → Prog β γ} (h : Triple (single p b' * R) (f ()) S) :
    Triple (single p b * R) (write p b' >>= f) S := write_triple.call fun _ => h

theorem Triple.free {f : Unit → Prog β γ} (h : Triple R (f ()) S) :
    Triple (single p b * R) (free p >>= f) S := free_triple.call fun _ => by rwa [one_mul]

theorem Triple.freeIf {ok : β → Bool} {f : Unit → Prog β γ} (hok : ok b = true)
    (h : Triple R (f ()) S) : Triple (single p b * R) (freeIf ok p >>= f) S := by
  unfold Separation.freeIf
  rw [bind_assoc]
  refine .read ?_
  rw [if_pos hok]
  exact .free h

theorem Triple.twice {c : Prog β γ} : Triple (single p b * (single p b' * R)) c S := by
  intro h F hF
  rw [mul_assoc, mul_assoc] at hF
  exact (single_twice hF).elim

theorem Triple.bound {n : ℕ} {P : Assertion β} {f : ℕ → Prog β γ} (hP : AtLeast n P)
    (h : ∀ m, n ≤ m → Triple P (f m) S) : Triple P (bound >>= f) S := by
  intro hp F hF
  have hn : n ≤ hp.next := ((hP.mul (.zero F)) _ hF).trans hp.card_le
  exact h hp.next hn hp F hF

end Primitives

end Separation
