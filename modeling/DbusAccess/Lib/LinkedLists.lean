import DbusAccess.Lib.Separation

/-! Singly linked lists in a heap: what a chain of links owns, and the walks along it. -/

namespace Separation

open Assertion

variable {β δ γ : Type}

/-- The blocks that are links: how one is made of its data and the next pointer, and how
these are read. -/
structure Linked (β δ : Type) where
  node : δ → Option ℕ → β
  view : β → Option (δ × Option ℕ)
  view_node : ∀ d n, view (node d n) = some (d, n)

variable (k : Linked β δ)

/-- The links from one pointer to another, with their addresses and data. -/
def Chain : Option ℕ → List (ℕ × δ) → Option ℕ → Assertion β
  | p, [], q => fact (p = q)
  | p, c :: l, q => fact (p = some c.1) * ⨆ n, single c.1 (k.node c.2 n) * Chain n l q

/-- Something is done for every link, with a value that is handed on. -/
def walk (func : γ → δ → Prog β γ) : ℕ → γ → Option ℕ → Prog β γ
  | _, c, none => pure c
  | 0, _, some _ => failure
  | n + 1, c, some a => do
    match k.view (← read a) with
    | some (d, q) => do
      let c ← func c d
      walk func n c q
    | none => failure

/-- The last link. -/
def lastLink : ℕ → ℕ → Prog β ℕ
  | 0, _ => failure
  | n + 1, a => do
    match k.view (← read a) with
    | some (_, some b) => lastLink n b
    | some (_, none) => pure a
    | none => failure

/-- The last link gets a next one. -/
def setLast (a : ℕ) (q : Option ℕ) : Prog β Unit := do
  let n ← bound
  let last ← lastLink k n a
  match k.view (← read last) with
  | some (d, _) => write last (k.node d q)
  | none => failure

def freeLinks (ok : β → Bool) : ℕ → Option ℕ → Prog β Unit
  | _, none => pure ()
  | 0, some _ => failure
  | n + 1, some a => do
    match k.view (← read a) with
    | some (_, q) => do
      freeIf ok a
      freeLinks ok n q
    | none => failure

variable {k} {p q r : Option ℕ} {a : ℕ} {d : δ} {c : ℕ × δ} {l l' : List (ℕ × δ)}

theorem chain_nil : Chain k p [] q = fact (p = q) := by rw [Chain]

theorem chain_cons : Chain k p (c :: l) q =
    fact (p = some c.1) * ⨆ n, single c.1 (k.node c.2 n) * Chain k n l q := by
  rw [Chain]

/-- A link in front. -/
theorem chain_push (n : Option ℕ) :
    single a (k.node d n) * Chain k n l q ≤ Chain k (some a) ((a, d) :: l) q := by
  rw [chain_cons, fact_true rfl, one_mul]
  exact le_iSup (fun n => single a (k.node d n) * Chain k n l q) n

theorem chain_append : Chain k p (l ++ l') r = ⨆ q, Chain k p l q * Chain k q l' r := by
  induction l generalizing p with
  | nil =>
    refine Assertion.ext fun b => ?_
    simp only [List.nil_append, chain_nil, iSup_iff, fact_mul]
    exact ⟨fun h => ⟨p, rfl, h⟩, fun ⟨q, hq, h⟩ => hq ▸ h⟩
  | cons c l ih =>
    simp only [List.cons_append, chain_cons, ih, mul_iSup, iSup_mul, mul_assoc]
    rw [iSup_comm]

theorem chain_atLeast : AtLeast l.length (Chain k p l q) := by
  induction l generalizing p with
  | nil => exact .zero _
  | cons c l ih =>
    rw [chain_cons, List.length_cons, Nat.add_comm]
    exact .fact_mul fun _ => .iSup fun n => (AtLeast.single _ _).mul ih

variable {R : Assertion β} {Q S : γ → Assertion β}

/-- A chain in front of an assertion is taken apart. -/
theorem Triple.chain {f : Prog β γ}
    (hnil : l = [] → p = q → Triple R f S)
    (hcons : ∀ c l' n, l = c :: l' → p = some c.1 →
      Triple (single c.1 (k.node c.2 n) * (Chain k n l' q * R)) f S) :
    Triple (Chain k p l q * R) f S := by
  cases l with
  | nil =>
    rw [chain_nil]
    exact .fact (hnil rfl)
  | cons c l' =>
    rw [chain_cons, mul_assoc]
    refine .fact fun hp => ?_
    rw [iSup_mul]
    refine .exist fun n => ?_
    rw [mul_assoc]
    exact hcons c l' n rfl hp

/-- The invariant of a walk speaks of the data that is still to come. -/
theorem walk_triple {I : List δ → γ → Assertion β} {func : γ → δ → Prog β γ}
    (hfunc : ∀ d ds c, Triple (I (d :: ds) c) (func c d) (I ds)) (n : ℕ) (hn : l.length ≤ n)
    (c : γ) : Triple (Chain k p l none * I (l.map Prod.snd) c) (walk k func n c p)
      fun c => Chain k p l none * I [] c := by
  induction l generalizing n p c with
  | nil =>
    rw [chain_nil]
    refine .fact fun hp => ?_
    rw [hp, fact_true rfl]
    simp only [one_mul]
    cases n with
    | zero => exact .pure le_rfl
    | succ n => exact .pure le_rfl
  | cons e l ih =>
    obtain ⟨n, rfl⟩ : ∃ m, n = m + 1 := ⟨n - 1, by rw [List.length_cons] at hn; omega⟩
    rw [List.length_cons] at hn
    refine .chain (fun h => by simp at h) fun e' l' q he hp => ?_
    obtain ⟨rfl, rfl⟩ := List.cons_eq_cons.1 he
    rw [hp, walk]
    refine .read ?_
    simp only [k.view_node, List.map_cons]
    refine .pre (I (e.2 :: l.map Prod.snd) c * (single e.1 (k.node e.2 q) * Chain k q l none))
      (by ac_rfl) ?_
    refine (hfunc e.2 (l.map Prod.snd) c).call fun c' => ?_
    refine .pre (Chain k q l none * I (l.map Prod.snd) c' * single e.1 (k.node e.2 q))
      (by ac_rfl) ?_
    refine ((ih n (by omega) c').frame _).post fun c'' => ?_
    calc Chain k q l none * I [] c'' * single e.1 (k.node e.2 q)
        = single e.1 (k.node e.2 q) * Chain k q l none * I [] c'' := by ac_rfl
      _ ≤ _ := mul_le_mul_left (chain_push q) _

theorem chain_singleton : Chain k p [c] q =
    fact (p = some c.1) * single c.1 (k.node c.2 q) := by
  rw [chain_cons]
  refine Assertion.ext fun b => ?_
  simp only [chain_nil, fact_mul, iSup_iff, mul_comm (single _ _)]
  exact ⟨fun ⟨h, n, hn, hb⟩ => ⟨h, hn ▸ hb⟩, fun ⟨h, hb⟩ => ⟨h, q, rfl, hb⟩⟩

theorem lastLink_triple (l : List (ℕ × δ)) (n : ℕ) (hn : l.length < n) (a : ℕ) :
    Triple (Chain k (some a) (l ++ [c]) none) (lastLink k n a)
      fun b => fact (b = c.1) * Chain k (some a) (l ++ [c]) none := by
  obtain ⟨n, rfl⟩ : ∃ m, n = m + 1 := ⟨n - 1, by omega⟩
  induction l generalizing n a with
  | nil =>
    rw [List.nil_append, chain_singleton]
    refine .fact fun ha => ?_
    rw [lastLink, ← mul_one (single _ _), Option.some_inj.1 ha]
    refine .read ?_
    simp only [k.view_node]
    exact .pure (by rw [fact_true rfl, one_mul, fact_true trivial, one_mul, mul_one])
  | cons e l ih =>
    rw [List.length_cons] at hn
    refine .pre _ (mul_one _).symm (.chain (fun h => by simp at h) fun e' l' m he ha => ?_)
    obtain ⟨rfl, rfl⟩ := List.cons_eq_cons.1 he
    rw [Option.some_inj.1 ha, lastLink, mul_one]
    refine .read ?_
    simp only [k.view_node]
    obtain ⟨m', hm⟩ : ∃ m', n = m' + 1 := ⟨n - 1, by omega⟩
    cases m with
    | none =>
      -- there is at least one more link
      refine .pre (Chain k none (l ++ [c]) none * single e.1 (k.node e.2 none)) (by ac_rfl) ?_
      exact .chain (fun h => by simp at h) fun _ _ _ _ h => by simp at h
    | some b =>
      refine .pre (Chain k (some b) (l ++ [c]) none * single e.1 (k.node e.2 (some b)))
        (by ac_rfl) ?_
      rw [hm]
      refine ((ih b m' (by omega)).frame _).post fun b' => ?_
      calc fact (b' = c.1) * Chain k (some b) (l ++ [c]) none * single e.1 (k.node e.2 (some b))
          = fact (b' = c.1) *
              (single e.1 (k.node e.2 (some b)) * Chain k (some b) (l ++ [c]) none) := by ac_rfl
        _ ≤ _ := mul_le_mul_right (chain_push (some b)) _

theorem setLast_triple (hl : l ≠ []) :
    Triple (Chain k (some a) l none * Chain k q l' r) (setLast k a q)
      fun _ => Chain k (some a) (l ++ l') r := by
  obtain ⟨l, c, rfl⟩ := List.eq_nil_or_concat l |>.resolve_left hl
  rw [List.concat_eq_append]
  refine .bound (chain_atLeast.mul (.zero _)) fun n hn => ?_
  rw [List.length_append, List.length_singleton] at hn
  refine (lastLink_triple l n (by omega) a).call fun b => ?_
  rw [mul_assoc]
  refine .fact fun hb => ?_
  rw [hb, chain_append, iSup_mul]
  refine .exist fun m => ?_
  rw [chain_singleton]
  refine .pre (fact (m = some c.1) * (single c.1 (k.node c.2 none) *
    (Chain k (some a) l m * Chain k q l' r))) (by ac_rfl) ?_
  refine .fact fun hm => .read ?_
  simp only [k.view_node]
  refine .last (.write (.pure ?_))
  rw [List.append_assoc, chain_append]
  refine le_trans ?_ (le_iSup _ (some c.1))
  calc single c.1 (k.node c.2 q) * (Chain k (some a) l m * Chain k q l' r)
      = Chain k (some a) l m * (single c.1 (k.node c.2 q) * Chain k q l' r) := by ac_rfl
    _ ≤ Chain k (some a) l (some c.1) * Chain k (some c.1) ([c] ++ l') r := by
      rw [hm]
      exact mul_le_mul_right (chain_push q) _

theorem freeLinks_triple {ok : β → Bool} (hok : ∀ d n, ok (k.node d n) = true) (n : ℕ)
    (hn : l.length ≤ n) : Triple (Chain k p l none) (freeLinks k ok n p) fun _ => 1 := by
  induction l generalizing n p with
  | nil =>
    rw [chain_nil]
    refine .pre _ (mul_one _).symm (.fact fun hp => ?_)
    rw [hp]
    cases n with
    | zero => exact .pure le_rfl
    | succ n => exact .pure le_rfl
  | cons e l ih =>
    obtain ⟨n, rfl⟩ : ∃ m, n = m + 1 := ⟨n - 1, by rw [List.length_cons] at hn; omega⟩
    rw [List.length_cons] at hn
    refine .pre _ (mul_one _).symm (.chain (fun h => by simp at h) fun e' l' q he hp => ?_)
    obtain ⟨rfl, rfl⟩ := List.cons_eq_cons.1 he
    rw [hp, mul_one, freeLinks]
    refine .read ?_
    simp only [k.view_node]
    exact .freeIf (hok _ _) (ih n (by omega))

/-! Links in the middle. -/

/-- The pointer to the first link. -/
def front (l : List (ℕ × δ)) : Option ℕ := l.head?.map Prod.fst

theorem chain_front : Chain k p l none = fact (p = front l) * Chain k (front l) l none := by
  cases l with
  | nil => rw [chain_nil, chain_nil, front, List.head?_nil, Option.map_none, fact_true rfl, mul_one]
  | cons c l =>
    rw [chain_cons, chain_cons, front, List.head?_cons, Option.map_some, fact_true rfl, one_mul]

theorem chain_from : Chain k p (c :: l) none =
    fact (p = some c.1) * (single c.1 (k.node c.2 (front l)) * Chain k (front l) l none) := by
  rw [chain_cons]
  refine congrArg _ (le_antisymm (iSup_le fun n => ?_) (le_iSup (fun n => single c.1
    (k.node c.2 n) * Chain k n l none) (front l)))
  rw [chain_front]
  intro b hb
  obtain ⟨rfl, hb⟩ := fact_mul.1 (mul_left_comm (single c.1 _) _ (Chain _ _ _ _) ▸ hb)
  exact hb

/-- A chain with a link in the middle. -/
theorem chain_middle : Chain k p (l ++ c :: l') none = Chain k p l (some c.1) *
    (single c.1 (k.node c.2 (front l')) * Chain k (front l') l' none) := by
  rw [chain_append]
  refine le_antisymm (iSup_le fun q => ?_) ?_
  · rw [chain_from]
    intro b hb
    obtain ⟨rfl, hb⟩ := fact_mul.1 (mul_left_comm (Chain k p l q) _ _ ▸ hb)
    exact hb
  · refine le_trans (mul_le_mul_right ?_ _) (le_iSup (fun q => Chain k p l q *
      Chain k q (c :: l') none) (some c.1))
    rw [chain_from, fact_true rfl, one_mul]

/-- A link is read where it is. -/
theorem Triple.chainLook {f : β → Prog β γ}
    (h : Triple (Chain k p (l ++ c :: l') none * R) (f (k.node c.2 (front l'))) S) :
    Triple (Chain k p (l ++ c :: l') none * R) (Separation.read c.1 >>= f) S := by
  have hc : Chain k p (l ++ c :: l') none * R = single c.1 (k.node c.2 (front l')) *
      (Chain k p l (some c.1) * (Chain k (front l') l' none * R)) := by
    rw [chain_middle]
    ac_rfl
  rw [hc] at h ⊢
  exact .read h

end Separation
