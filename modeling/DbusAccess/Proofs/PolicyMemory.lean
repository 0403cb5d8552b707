import DbusAccess.Spec.PolicyMemory

/-! The functions of `dbusaccess_policy.c` on a policy in memory give what they give for
the policy as a value. -/

namespace DbusAccess.InMemory

open Separation Assertion

variable {σ γ : Type} {g : GPattern σ} {p q : Option Addr} {a : Addr}

/-! Both binary operations at once. -/

def BinaryType.node : BinaryType → DbusAccess.DAPolicyExpr σ → DbusAccess.DAPolicyExpr σ →
    DbusAccess.DAPolicyExpr σ
  | .and => .and
  | .or => .or

@[elab_as_elim]
theorem expr_induction {motive : DbusAccess.DAPolicyExpr σ → Prop} (null : motive .null)
    (binary : ∀ type left right, motive left → motive right →
      motive (BinaryType.node type left right))
    (not : ∀ operand, motive operand → motive (.not operand))
    (identity : ∀ uid gid, motive (.identity uid gid))
    (custom : ∀ action pattern, motive (.custom action pattern)) (x) : motive x := by
  induction x with
  | null => exact null
  | and left right ihl ihr => exact binary .and left right ihl ihr
  | or left right ihl ihr => exact binary .or left right ihl ihr
  | not operand ih => exact not operand ih
  | identity uid gid => exact identity uid gid
  | custom action pattern => exact custom action pattern

variable {R : Assertion (Block σ)} {f : Prog (Block σ) γ} {S : γ → Assertion (Block σ)}
  {x y left right operand : DbusAccess.DAPolicyExpr σ}

theorem exprAt_node (type : BinaryType) :
    ExprAt (type.node left right) (some a) = ⨆ l, ⨆ r,
      single a (.policyExpr (.binary type l r)) * (ExprAt left l * ExprAt right r) := by
  cases type <;> rfl

theorem exprAt_none : ExprAt x none = fact (x = .null) := by
  cases x <;> simp [ExprAt]

/-- An expression in memory is taken apart. -/
theorem null_triple (h : p = none → Triple R f S) : Triple (ExprAt .null p * R) f S := .fact h

theorem binary_triple {type : BinaryType}
    (h : ∀ a l r, p = some a →
      Triple (single a (.policyExpr (.binary type l r)) * (ExprAt left l * (ExprAt right r * R)))
        f S) :
    Triple (ExprAt (type.node left right) p * R) f S := by
  cases p with
  | none =>
    rw [exprAt_none]
    exact .fact fun h => by cases type <;> cases h
  | some a =>
    rw [exprAt_node, iSup_mul]
    refine .exist fun l => ?_
    rw [iSup_mul]
    refine .exist fun r => ?_
    rw [mul_assoc, mul_assoc]
    exact h a l r rfl

theorem not_triple
    (h : ∀ a q, p = some a →
      Triple (single a (.policyExpr (.unary q)) * (ExprAt operand q * R)) f S) :
    Triple (ExprAt (.not operand) p * R) f S := by
  cases p with
  | none => exact .fact False.elim
  | some a =>
    rw [ExprAt, iSup_mul]
    refine .exist fun q => ?_
    rw [mul_assoc]
    exact h a q rfl

theorem identity_triple {uid gid : ℤ}
    (h : ∀ a, p = some a → Triple (single a (.policyExpr (.identity uid gid)) * R) f S) :
    Triple (ExprAt (.identity uid gid) p * R) f S := by
  cases p with
  | none => exact .fact False.elim
  | some a => exact h a rfl

theorem custom_triple {action : UInt32} {pattern : Option σ}
    (hnone : ∀ a, p = some a → pattern = none →
      Triple (single a (.policyExpr (.custom action none)) * R) f S)
    (hsome : ∀ a q pspec, p = some a → pattern = some pspec →
      Triple (single a (.policyExpr (.custom action (some q))) *
        (single q (.gPatternSpec pspec) * R)) f S) :
    Triple (ExprAt (.custom action pattern) p * R) f S := by
  cases p with
  | none => cases pattern <;> exact .fact False.elim
  | some a =>
    cases pattern with
    | none => exact hnone a rfl rfl
    | some pspec =>
      rw [ExprAt, iSup_mul]
      refine .exist fun q => ?_
      rw [mul_assoc]
      exact hsome a q pspec rfl rfl

/-- A bound on how deep the recursions go. -/
def depth : DbusAccess.DAPolicyExpr σ → ℕ
  | .null => 0
  | .and left right | .or left right => max (depth left) (depth right) + 1
  | .not operand => depth operand + 1
  | .identity _ _ | .custom _ _ => 1

theorem depth_node (type : BinaryType) :
    depth (type.node left right) = max (depth left) (depth right) + 1 := by
  cases type <;> rfl

theorem exprAt_atLeast (x : DbusAccess.DAPolicyExpr σ) : AtLeast (depth x) (ExprAt x p) := by
  induction x using expr_induction generalizing p with
  | null => exact .zero _
  | binary type left right ihl ihr =>
    cases p with
    | none =>
      rw [exprAt_none, ← mul_one (fact _)]
      exact .fact_mul fun h => by cases type <;> cases h
    | some a =>
      rw [exprAt_node, depth_node]
      refine .iSup fun l => .iSup fun r => ((AtLeast.single a _).mul (ihl.mul ihr)).le ?_
      omega
  | not operand ih =>
    cases p with
    | none => exact fun b hb => hb.1.elim
    | some a =>
      refine .iSup fun q => ((AtLeast.single a _).mul ih).le ?_
      rw [depth, Nat.add_comm]
  | identity uid gid =>
    cases p with
    | none => exact fun b hb => hb.1.elim
    | some a => exact .single a _
  | custom action pattern =>
    cases p with
    | none => cases pattern <;> exact fun b hb => hb.1.elim
    | some a =>
      cases pattern with
      | none => exact .single a _
      | some pspec => exact .iSup fun q => ((AtLeast.single a _).mul (.zero _)).le le_rfl

/-! Release. -/

theorem release_triple {k : Allocation} {b : Block σ} {f : Unit → Prog (Block σ) γ}
    (hk : b.allocation = k) (h : Triple R (f ()) S) :
    Triple (single a b * R) (release k a >>= f) S := .freeIf (decide_eq_true hk) h

theorem exprFree_triple (n : ℕ) (hn : depth x ≤ n) :
    Triple (ExprAt x p) (exprFree n p) fun _ => 1 := by
  induction x using expr_induction generalizing n p with
  | null =>
    refine .pre _ (mul_one _).symm (null_triple fun hp => ?_)
    rw [hp]
    cases n <;> exact .pure le_rfl
  | binary type left right ihl ihr =>
    rw [depth_node] at hn
    obtain ⟨n, rfl⟩ : ∃ m, n = m + 1 := ⟨n - 1, by omega⟩
    refine .pre _ (mul_one _).symm (binary_triple fun a l r hp => ?_)
    rw [hp, exprFree]
    refine .read ?_
    refine .pre (ExprAt left l * (ExprAt right r * single a _)) (by rw [mul_one]; ac_rfl) ?_
    refine (ihl n (by omega)).call fun _ => ?_
    rw [one_mul]
    refine (ihr n (by omega)).call fun _ => ?_
    rw [mul_comm]
    exact .last (release_triple rfl (.pure le_rfl))
  | not operand ih =>
    rw [depth] at hn
    obtain ⟨n, rfl⟩ : ∃ m, n = m + 1 := ⟨n - 1, by omega⟩
    refine .pre _ (mul_one _).symm (not_triple fun a q hp => ?_)
    rw [hp, exprFree]
    refine .read ?_
    refine .pre (ExprAt operand q * single a _) (by rw [mul_one]; ac_rfl) ?_
    refine (ih n (by omega)).call fun _ => ?_
    rw [mul_comm]
    exact .last (release_triple rfl (.pure le_rfl))
  | identity uid gid =>
    obtain ⟨n, rfl⟩ : ∃ m, n = m + 1 := ⟨n - 1, by rw [depth] at hn; omega⟩
    refine .pre _ (mul_one _).symm (identity_triple fun a hp => ?_)
    rw [hp, exprFree]
    exact .read (.last (release_triple rfl (.pure le_rfl)))
  | custom action pattern =>
    obtain ⟨n, rfl⟩ : ∃ m, n = m + 1 := ⟨n - 1, by rw [depth] at hn; omega⟩
    refine .pre _ (mul_one _).symm (custom_triple (fun a hp _ => ?_) fun a q pspec hp _ => ?_)
    · rw [hp, exprFree]
      refine .read ?_
      exact .last (release_triple rfl (.pure le_rfl))
    · rw [hp, exprFree]
      refine .read ?_
      rw [mul_left_comm]
      refine release_triple rfl ?_
      exact .last (release_triple rfl (.pure le_rfl))

theorem daPolicyExprFree_triple : Triple (ExprAt x p) (daPolicyExprFree p) fun _ => 1 :=
  .bound (exprAt_atLeast x) fun n hn => exprFree_triple n hn

/-! Checks. -/

theorem exprAt_binary (type : BinaryType) (a : Addr) (l r : Option Addr) :
    single a (.policyExpr (.binary type l r)) * (ExprAt left l * ExprAt right r) ≤
      ExprAt (type.node left right) (some a) := by
  rw [exprAt_node]
  exact le_iSup₂ (f := fun l r => single a (Block.policyExpr (.binary type l r)) *
    (ExprAt left l * ExprAt right r)) l r

theorem exprAt_not (a : Addr) (q : Option Addr) :
    single a (.policyExpr (.unary q)) * ExprAt operand q ≤ ExprAt (.not operand) (some a) :=
  le_iSup (fun q => single a (.policyExpr (.unary q)) * ExprAt operand q) q

theorem exprAt_custom (a : Addr) (action : UInt32) (q : Addr) (pspec : σ) :
    single a (.policyExpr (.custom action (some q))) * single q (.gPatternSpec pspec) ≤
      ExprAt (.custom action (some pspec)) (some a) :=
  le_iSup (fun q => single a (Block.policyExpr (.custom action (some q))) *
    single q (.gPatternSpec pspec)) q

theorem customMatch_none (action : UInt32) (pc : DAPolicyCheck) :
    Observes R (daPolicyExprCustomMatch g action none pc)
      (DbusAccess.daPolicyExprCustomMatch g action none pc) := by
  unfold daPolicyExprCustomMatch DbusAccess.daPolicyExprCustomMatch
  split_ifs with hc
  · cases pc.arg <;> exact .pure true
  · exact .pure false

theorem customMatch_some (action : UInt32) (q : Addr) (pspec : σ) (pc : DAPolicyCheck) :
    Observes (single q (.gPatternSpec pspec)) (daPolicyExprCustomMatch g action (some q) pc)
      (DbusAccess.daPolicyExprCustomMatch g action (some pspec) pc) := by
  unfold daPolicyExprCustomMatch DbusAccess.daPolicyExprCustomMatch
  split_ifs with hc
  · cases pc.arg with
    | none => exact .pure false
    | some arg =>
      refine .pre _ (mul_one _).symm (.read ?_)
      rw [mul_one]
      exact Observes.pure _
  · exact .pure false

theorem exprMatch_triple (pc : DAPolicyCheck) (n : ℕ) (hn : depth x ≤ n) :
    Observes (ExprAt x p) (exprMatch g pc n p) (DbusAccess.daPolicyExprMatch g pc x) := by
  induction x using expr_induction generalizing n p with
  | null =>
    refine .pre _ (mul_one _).symm (null_triple fun hp => ?_)
    rw [hp, ExprAt, fact_true rfl]
    cases n <;> exact Observes.pure true
  | binary type left right ihl ihr =>
    rw [depth_node] at hn
    obtain ⟨n, rfl⟩ : ∃ m, n = m + 1 := ⟨n - 1, by omega⟩
    refine .pre _ (mul_one _).symm (binary_triple fun a l r hp => ?_)
    rw [hp, exprMatch, mul_one]
    refine .read (Observes.post ?_ (exprAt_binary type a l r))
    have hl := ((ihl n (by omega) : Observes (ExprAt left l) _ _).frame (ExprAt right r)).frame
      (single a (.policyExpr (.binary type l r)))
    have hr := ((ihr n (by omega) : Observes (ExprAt right r) _ _).frame (ExprAt left l)).frame
      (single a (.policyExpr (.binary type l r)))
    rw [mul_comm] at hl hr
    rw [mul_comm (ExprAt right r)] at hr
    cases type with
    | and => exact hl.and hr
    | or => exact hl.or hr
  | not operand ih =>
    rw [depth] at hn
    obtain ⟨n, rfl⟩ : ∃ m, n = m + 1 := ⟨n - 1, by omega⟩
    refine .pre _ (mul_one _).symm (not_triple fun a q hp => ?_)
    rw [hp, exprMatch, mul_one]
    refine .read (Observes.post ?_ (exprAt_not a q))
    have hq := (ih n (by omega) : Observes (ExprAt operand q) _ _).frame
      (single a (.policyExpr (.unary q)))
    rw [mul_comm] at hq
    exact hq.map Bool.not
  | identity uid gid =>
    obtain ⟨n, rfl⟩ : ∃ m, n = m + 1 := ⟨n - 1, by rw [depth] at hn; omega⟩
    refine .pre _ (mul_one _).symm (identity_triple fun a hp => ?_)
    rw [hp, exprMatch]
    refine .read ?_
    rw [mul_one]
    exact Observes.pure (daPolicyExprIdentityMatch uid gid pc)
  | custom action pattern =>
    obtain ⟨n, rfl⟩ : ∃ m, n = m + 1 := ⟨n - 1, by rw [depth] at hn; omega⟩
    refine .pre _ (mul_one _).symm (custom_triple (fun a hp hpat => ?_) fun a q pspec hp hpat => ?_)
    · rw [hp, hpat, exprMatch]
      refine .read ?_
      rw [mul_one]
      exact customMatch_none action pc
    · rw [hp, hpat, exprMatch]
      refine .read ?_
      rw [mul_one]
      have hq := (customMatch_some (g := g) action q pspec pc).frame
        (single a (.policyExpr (.custom action (some q))))
      rw [mul_comm] at hq
      exact hq.post (exprAt_custom a action q pspec)

theorem daPolicyExprMatch_triple (pc : DAPolicyCheck) :
    Observes (ExprAt x p) (daPolicyExprMatch g pc p) (DbusAccess.daPolicyExprMatch g pc x) :=
  .bound (exprAt_atLeast x) fun n hn => exprMatch_triple pc n hn

/-! Comparisons. -/

/-- What an expression owns beside its first block. -/
def Below : DbusAccess.DAPolicyExpr σ → DAPolicyExpr → Assertion (Block σ)
  | .and left right, .binary .and l r => ExprAt left l * ExprAt right r
  | .or left right, .binary .or l r => ExprAt left l * ExprAt right r
  | .not operand, .unary q => ExprAt operand q
  | .identity uid gid, .identity uid' gid' => fact (uid' = uid ∧ gid' = gid)
  | .custom action none, .custom action' none => fact (action' = action)
  | .custom action (some pspec), .custom action' (some q) =>
    fact (action' = action) * single q (.gPatternSpec pspec)
  | _, _ => fact False

def exprType : DbusAccess.DAPolicyExpr σ → Option DAPolicyExprType
  | .null => none
  | .and _ _ => some .and
  | .or _ _ => some .or
  | .not _ => some .not
  | .identity _ _ => some .identity
  | .custom _ _ => some .custom

theorem exprType_node (type : BinaryType) (l r : Option Addr) :
    exprType (type.node left right) = some (DAPolicyExpr.binary type l r).type := by
  cases type <;> rfl

theorem below_node (type : BinaryType) (l r : Option Addr) :
    Below (type.node left right) (.binary type l r) = ExprAt left l * ExprAt right r := by
  cases type <;> rfl

/-- Every expression but NULL has a first block. -/
theorem headed_triple (hx : x ≠ .null)
    (h : ∀ a e, p = some a → exprType x = some e.type →
      Triple (single a (.policyExpr e) * (Below x e * R)) f S) :
    Triple (ExprAt x p * R) f S := by
  induction x using expr_induction with
  | null => exact absurd rfl hx
  | binary type left right =>
    refine binary_triple fun a l r hp => ?_
    have := h a (.binary type l r) hp (exprType_node type l r)
    rwa [below_node, mul_assoc (ExprAt left l)] at this
  | not operand => exact not_triple fun a q hp => h a (.unary q) hp rfl
  | identity uid gid =>
    refine identity_triple fun a hp => ?_
    have := h a (.identity uid gid) hp rfl
    rwa [Below, fact_true ⟨rfl, rfl⟩, one_mul] at this
  | custom action pattern =>
    refine custom_triple (fun a hp hpat => ?_) fun a q pspec hp hpat => ?_
    · have := h a (.custom action none) hp rfl
      rwa [hpat, Below, fact_true rfl, one_mul] at this
    · have := h a (.custom action (some q)) hp rfl
      rwa [hpat, Below, fact_true rfl, one_mul] at this

theorem below_le (x : DbusAccess.DAPolicyExpr σ) (e : DAPolicyExpr) (a : Addr) :
    single a (.policyExpr e) * Below x e ≤ ExprAt x (some a) := by
  have hf : ∀ Q : Assertion (Block σ), single a (.policyExpr e) * fact False ≤ Q := by
    intro Q b hb
    rw [mul_comm] at hb
    exact (fact_mul.1 hb).1.elim
  induction x using expr_induction with
  | null => exact hf _
  | binary type left right =>
    cases e with
    | binary type' l r =>
      by_cases ht : type = type'
      · rw [← ht, below_node]
        exact exprAt_binary type a l r
      · cases type <;> cases type' <;> first | exact hf _ | exact absurd rfl ht
    | _ => cases type <;> exact hf _
  | not operand =>
    cases e with
    | unary q => exact exprAt_not a q
    | _ => exact hf _
  | identity uid gid =>
    cases e with
    | identity uid' gid' =>
      intro b hb
      rw [Below, mul_comm] at hb
      obtain ⟨⟨rfl, rfl⟩, hs⟩ := fact_mul.1 hb
      exact hs
    | _ => exact hf _
  | custom action pattern =>
    cases e with
    | custom action' pattern' =>
      intro b hb
      cases pattern with
      | none =>
        cases pattern' with
        | none =>
          rw [Below, mul_comm] at hb
          obtain ⟨rfl, hs⟩ := fact_mul.1 hb
          exact hs
        | some q => exact hf _ b hb
      | some pspec =>
        cases pattern' with
        | none => exact hf _ b hb
        | some q =>
          rw [Below, mul_left_comm] at hb
          obtain ⟨rfl, hs⟩ := fact_mul.1 hb
          exact exprAt_custom a action' q pspec b hs
    | _ => cases pattern <;> exact hf _

/-- Expressions of different types are different. -/
theorem exprEqual_of_type_ne (h : exprType x ≠ exprType y) :
    DbusAccess.daPolicyExprEqual g x y = false := by
  cases x <;> cases y <;> first | rfl | exact absurd rfl h

/-- Two expressions that are not NULL, up to the comparison for their common type. -/
theorem exprEqual_headed {n : ℕ} (hx : x ≠ .null) (hy : y ≠ .null)
    (h : ∀ e e', exprType x = some e.type → exprType y = some e'.type → e.type = e'.type →
      Observes (Below x e * Below y e') (typeEqual g (exprEqual g n) e e')
        (DbusAccess.daPolicyExprEqual g x y)) :
    Observes (ExprAt x p * ExprAt y q) (exprEqual g (n + 1) p q)
      (DbusAccess.daPolicyExprEqual g x y) := by
  refine headed_triple hx fun a e hp he => ?_
  refine .pre (ExprAt y q * (single a (.policyExpr e) * Below x e)) (by ac_rfl) ?_
  refine headed_triple hy fun a' e' hq he' => ?_
  rw [hp, hq, exprEqual]
  split_ifs with haa
  · rw [haa]
    refine .pre (single a' (.policyExpr e') * (single a' (.policyExpr e) *
      (Below y e' * Below x e))) (by ac_rfl) .twice
  · refine .pre (single a (.policyExpr e) * (single a' (.policyExpr e') *
      (Below y e' * Below x e))) (by ac_rfl) (.read ?_)
    rw [mul_left_comm]
    refine .read ?_
    have hle : single a' (.policyExpr e') * (single a (.policyExpr e) *
        (Below y e' * Below x e)) ≤ ExprAt x (some a) * ExprAt y (some a') := by
      calc single a' (.policyExpr e') * (single a (.policyExpr e) * (Below y e' * Below x e))
          = single a (.policyExpr e) * Below x e *
              (single a' (.policyExpr e') * Below y e') := by ac_rfl
        _ ≤ _ := mul_le_mul' (below_le x e a) (below_le y e' a')
    refine Observes.post ?_ hle
    change Observes _ (if e.type = e'.type then _ else _) _
    split_ifs with ht
    · have hb := (h e e' he he' ht).frame
        (single a' (.policyExpr e') * single a (.policyExpr e))
      rwa [show Below x e * Below y e' * (single a' (.policyExpr e') * single a (.policyExpr e)) =
        single a' (.policyExpr e') * (single a (.policyExpr e) * (Below y e' * Below x e)) by
          ac_rfl] at hb
    · rw [exprEqual_of_type_ne fun hxy => ht (by rwa [he, he', Option.some_inj] at hxy)]
      exact .pure false

theorem pointer_triple (h : (p = none ↔ x = .null) → Triple (ExprAt x p * R) f S) :
    Triple (ExprAt x p * R) f S := by
  by_cases hx : x = .null
  · rw [hx] at h ⊢
    refine null_triple fun hp => ?_
    rw [hp, ExprAt, fact_true rfl, one_mul] at h
    exact h (iff_of_true rfl rfl)
  · cases p with
    | none =>
      rw [exprAt_none]
      exact .fact fun h => absurd h hx
    | some a => exact h (iff_of_false (Option.some_ne_none a) hx)

theorem exprEqual_of_null (h : x = .null ∨ y = .null) (n : ℕ) :
    Observes (ExprAt x p * ExprAt y q) (exprEqual g n p q)
      (DbusAccess.daPolicyExprEqual g x y) := by
  refine pointer_triple fun hp => ?_
  rw [mul_comm]
  refine pointer_triple fun hq => ?_
  rw [← Option.isNone_iff_eq_none] at hp hq
  have hprog : exprEqual g n p q = pure (p.isNone && q.isNone) := by
    rcases h with h | h
    · cases p with
      | none => cases n <;> rfl
      | some a => exact absurd (hp.2 h) Bool.false_ne_true
    · cases q with
      | none => cases n <;> cases p <;> rfl
      | some a => exact absurd (hq.2 h) Bool.false_ne_true
  have hval : (p.isNone && q.isNone) = DbusAccess.daPolicyExprEqual g x y := by
    rw [Bool.eq_iff_iff, Bool.and_eq_true, hp, hq]
    rcases h with rfl | rfl
    · cases y <;> simp [DbusAccess.daPolicyExprEqual]
    · cases x <;> simp [DbusAccess.daPolicyExprEqual]
  rw [hprog, hval]
  exact Observes.pure _

theorem node_of_type {type : BinaryType}
    (h : exprType y = exprType (type.node left right)) : ∃ l r, y = type.node l r := by
  cases type <;> cases y <;> first | exact ⟨_, _, rfl⟩ | cases h

theorem binary_of_type {type : BinaryType} {e : DAPolicyExpr}
    (h : exprType (type.node left right) = some e.type) : ∃ l r, e = .binary type l r := by
  cases type <;> cases e with
  | binary type' l r => cases type' <;> first | exact ⟨_, _, rfl⟩ | cases h
  | _ => cases h

theorem type_not {e : DAPolicyExpr} (h : e.type = .not) : ∃ q, e = .unary q := by
  cases e with
  | unary q => exact ⟨q, rfl⟩
  | binary type l r => cases type <;> cases h
  | _ => cases h

theorem type_identity {e : DAPolicyExpr} (h : e.type = .identity) :
    ∃ uid gid, e = .identity uid gid := by
  cases e with
  | identity uid gid => exact ⟨uid, gid, rfl⟩
  | binary type l r => cases type <;> cases h
  | _ => cases h

theorem type_custom {e : DAPolicyExpr} (h : e.type = .custom) :
    ∃ action q, e = .custom action q := by
  cases e with
  | custom action q => exact ⟨action, q, rfl⟩
  | binary type l r => cases type <;> cases h
  | _ => cases h

theorem exprType_not (h : exprType y = some .not) : ∃ operand, y = .not operand := by
  cases y <;> first | exact ⟨_, rfl⟩ | cases h

theorem exprType_identity (h : exprType y = some .identity) :
    ∃ uid gid, y = .identity uid gid := by
  cases y <;> first | exact ⟨_, _, rfl⟩ | cases h

theorem exprType_custom (h : exprType y = some .custom) :
    ∃ action pattern, y = .custom action pattern := by
  cases y <;> first | exact ⟨_, _, rfl⟩ | cases h

theorem exprEqual_node (type : BinaryType) (left' right' : DbusAccess.DAPolicyExpr σ) :
    DbusAccess.daPolicyExprEqual g (type.node left right) (type.node left' right') =
      (DbusAccess.daPolicyExprEqual g left left' && DbusAccess.daPolicyExprEqual g right right' ||
        DbusAccess.daPolicyExprEqual g left right' &&
          DbusAccess.daPolicyExprEqual g right left') := by
  cases type <;> rfl

/-- The pattern of a custom expression. -/
def PatternAt : Option σ → Option Addr → Assertion (Block σ)
  | none, q => fact (q = none)
  | some pspec, some q => single q (.gPatternSpec pspec)
  | some _, none => fact False

theorem below_custom {action action' : UInt32} {pattern : Option σ} {q : Option Addr} :
    Below (.custom action pattern) (.custom action' q) =
      fact (action' = action) * PatternAt pattern q := by
  have hf : ∀ P : Assertion (Block σ), fact False = P * fact False := by
    refine fun P => Assertion.ext fun b => ?_
    rw [mul_comm, fact_mul]
    exact ⟨fun h => h.1.elim, fun h => h.1.elim⟩
  cases pattern with
  | none =>
    cases q with
    | none => rw [Below, PatternAt, fact_true rfl, mul_one]
    | some q =>
      have hq : ((some q : Option Addr) = none) = False := eq_false (Option.some_ne_none q)
      rw [PatternAt, hq]
      exact hf _
  | some pspec =>
    cases q with
    | none => exact hf _
    | some q => rfl

theorem patterns_triple {action : UInt32} {pattern pattern' : Option σ} {q q' : Option Addr} :
    Observes (PatternAt pattern q * PatternAt pattern' q')
      (daPolicyExprCustomEqual g action q action q')
      (DbusAccess.daPolicyExprCustomEqual g action pattern action pattern') := by
  unfold daPolicyExprCustomEqual DbusAccess.daPolicyExprCustomEqual
  rw [if_pos rfl, beq_self_eq_true, Bool.true_and]
  cases pattern with
  | none =>
    refine .fact fun hq => ?_
    cases pattern' with
    | none =>
      refine .within _ (mul_one _).symm (.fact fun hq' => ?_)
      rw [hq, hq']
      exact .pure true
    | some pspec' =>
      cases q' with
      | none => exact .within _ (mul_one _).symm (.fact False.elim)
      | some q' =>
        rw [hq]
        exact .pure false
  | some pspec =>
    cases q with
    | none => exact .fact False.elim
    | some q =>
      cases pattern' with
      | none =>
        rw [mul_comm]
        refine .fact fun hq' => ?_
        rw [hq']
        exact .pure false
      | some pspec' =>
        cases q' with
        | none =>
          rw [mul_comm]
          exact .fact False.elim
        | some q' =>
          refine .read ?_
          simp only [PatternAt]
          rw [mul_comm]
          exact .read (Observes.pure _)

theorem customEqual_triple {action action' action1 action2 : UInt32} {pattern pattern' : Option σ}
    {q1 q2 : Option Addr} :
    Observes (Below (.custom action pattern) (.custom action1 q1) *
        Below (.custom action' pattern') (.custom action2 q2))
      (daPolicyExprCustomEqual g action1 q1 action2 q2)
      (DbusAccess.daPolicyExprCustomEqual g action pattern action' pattern') := by
  rw [below_custom, below_custom]
  refine .within (fact (action1 = action) * (fact (action2 = action') *
    (PatternAt pattern q1 * PatternAt pattern' q2))) (by ac_rfl) ?_
  refine .fact fun h1 => .fact fun h2 => ?_
  rw [h1, h2]
  by_cases h : action = action'
  · rw [h]
    exact patterns_triple
  · have hval : DbusAccess.daPolicyExprCustomEqual g action pattern action' pattern' = false := by
      simp [DbusAccess.daPolicyExprCustomEqual, h]
    rw [hval]
    unfold daPolicyExprCustomEqual
    rw [if_neg h]
    exact Observes.pure false

theorem exprEqual_triple (n : ℕ) (hn : depth x ≤ n) :
    Observes (ExprAt x p * ExprAt y q) (exprEqual g n p q)
      (DbusAccess.daPolicyExprEqual g x y) := by
  induction x using expr_induction generalizing y n p q with
  | null => exact exprEqual_of_null (.inl rfl) n
  | binary type left right ihl ihr =>
    by_cases hy : y = .null
    · exact exprEqual_of_null (.inr hy) n
    rw [depth_node] at hn
    obtain ⟨n, rfl⟩ : ∃ m, n = m + 1 := ⟨n - 1, by omega⟩
    refine exprEqual_headed (by cases type <;> exact fun h => by cases h) hy
      fun e e' he he' ht => ?_
    obtain ⟨left', right', rfl⟩ := node_of_type (he'.trans (ht ▸ he.symm))
    obtain ⟨l, r, rfl⟩ := binary_of_type he
    obtain ⟨l', r', rfl⟩ := binary_of_type he'
    rw [below_node, below_node, exprEqual_node]
    -- the four comparisons of operands, each beside the other two
    refine .or (.and ?_ ?_) (.and ?_ ?_)
    · exact .within (ExprAt left l * ExprAt left' l' * (ExprAt right r * ExprAt right' r'))
        (by ac_rfl) ((ihl n (by omega)).frame _)
    · exact .within (ExprAt right r * ExprAt right' r' * (ExprAt left l * ExprAt left' l'))
        (by ac_rfl) ((ihr n (by omega)).frame _)
    · exact .within (ExprAt left l * ExprAt right' r' * (ExprAt right r * ExprAt left' l'))
        (by ac_rfl) ((ihl n (by omega)).frame _)
    · exact .within (ExprAt right r * ExprAt left' l' * (ExprAt left l * ExprAt right' r'))
        (by ac_rfl) ((ihr n (by omega)).frame _)
  | not operand ih =>
    by_cases hy : y = .null
    · exact exprEqual_of_null (.inr hy) n
    rw [depth] at hn
    obtain ⟨n, rfl⟩ : ∃ m, n = m + 1 := ⟨n - 1, by omega⟩
    refine exprEqual_headed (fun h => by cases h) hy fun e e' he he' ht => ?_
    obtain ⟨operand', rfl⟩ := exprType_not (he'.trans (ht ▸ he.symm))
    obtain ⟨q, rfl⟩ := type_not (Option.some_inj.1 he.symm)
    obtain ⟨q', rfl⟩ := type_not (Option.some_inj.1 he'.symm)
    exact ih n (by omega)
  | identity uid gid =>
    by_cases hy : y = .null
    · exact exprEqual_of_null (.inr hy) n
    obtain ⟨n, rfl⟩ : ∃ m, n = m + 1 := ⟨n - 1, by rw [depth] at hn; omega⟩
    refine exprEqual_headed (fun h => by cases h) hy fun e e' he he' ht => ?_
    obtain ⟨uid', gid', rfl⟩ := exprType_identity (he'.trans (ht ▸ he.symm))
    obtain ⟨u, i, rfl⟩ := type_identity (Option.some_inj.1 he.symm)
    obtain ⟨u', i', rfl⟩ := type_identity (Option.some_inj.1 he'.symm)
    refine .fact fun h => .within _ (mul_one _).symm (.fact fun h' => ?_)
    rw [h.1, h.2, h'.1, h'.2]
    exact .pure _
  | custom action pattern =>
    by_cases hy : y = .null
    · exact exprEqual_of_null (.inr hy) n
    obtain ⟨n, rfl⟩ : ∃ m, n = m + 1 := ⟨n - 1, by rw [depth] at hn; omega⟩
    refine exprEqual_headed (fun h => by cases h) hy fun e e' he he' ht => ?_
    obtain ⟨action', pattern', rfl⟩ := exprType_custom (he'.trans (ht ▸ he.symm))
    obtain ⟨action1, q, rfl⟩ := type_custom (Option.some_inj.1 he.symm)
    obtain ⟨action2, q', rfl⟩ := type_custom (Option.some_inj.1 he'.symm)
    exact customEqual_triple

theorem daPolicyExprEqual_triple :
    Observes (ExprAt x p * ExprAt y q) (daPolicyExprEqual g p q)
      (DbusAccess.daPolicyExprEqual g x y) :=
  .bound ((exprAt_atLeast x).mul (.zero _)) fun n hn => exprEqual_triple n hn

end DbusAccess.InMemory
