import DbusAccess.Proofs.PolicyDecision

/-! Equality of policies is equality up to the order of operands. -/

namespace DbusAccess

variable {σ : Type} {g : GPattern σ} {x y z : DAPolicyExpr σ} {nodes : List Bool → Bool}

/-- Equal patterns, as an equivalence. -/
def GPattern.Equal (g : GPattern σ) (p q : σ) : Prop := g.gPatternSpecEqual p q = true

/-- Operands are the same one by one, or crosswise. -/
inductive UpToOrder (g : GPattern σ) : DAPolicyExpr σ → DAPolicyExpr σ → Prop
  | null : UpToOrder g .null .null
  | and {l r l' r' : DAPolicyExpr σ} : UpToOrder g l l' → UpToOrder g r r' →
      UpToOrder g (.and l r) (.and l' r')
  | andCross {l r l' r' : DAPolicyExpr σ} : UpToOrder g l r' → UpToOrder g r l' →
      UpToOrder g (.and l r) (.and l' r')
  | or {l r l' r' : DAPolicyExpr σ} : UpToOrder g l l' → UpToOrder g r r' →
      UpToOrder g (.or l r) (.or l' r')
  | orCross {l r l' r' : DAPolicyExpr σ} : UpToOrder g l r' → UpToOrder g r l' →
      UpToOrder g (.or l r) (.or l' r')
  | not {x x' : DAPolicyExpr σ} : UpToOrder g x x' → UpToOrder g (.not x) (.not x')
  | identity (uid gid : ℤ) : UpToOrder g (.identity uid gid) (.identity uid gid)
  | noPattern (action : UInt32) : UpToOrder g (.custom action none) (.custom action none)
  | pattern (action : UInt32) {p p' : σ} : g.Equal p p' →
      UpToOrder g (.custom action (some p)) (.custom action (some p'))

/-! The comparison. -/

theorem upToOrder_of_equal (h : daPolicyExprEqual g x y = true) : UpToOrder g x y := by
  induction x generalizing y with
  | null => cases y <;> first | exact .null | cases h
  | and l r ihl ihr =>
    cases y with
    | and l' r' =>
      simp only [daPolicyExprEqual, Bool.or_eq_true, Bool.and_eq_true] at h
      rcases h with ⟨hl, hr⟩ | ⟨hl, hr⟩
      · exact .and (ihl hl) (ihr hr)
      · exact .andCross (ihl hl) (ihr hr)
    | _ => cases h
  | or l r ihl ihr =>
    cases y with
    | or l' r' =>
      simp only [daPolicyExprEqual, Bool.or_eq_true, Bool.and_eq_true] at h
      rcases h with ⟨hl, hr⟩ | ⟨hl, hr⟩
      · exact .or (ihl hl) (ihr hr)
      · exact .orCross (ihl hl) (ihr hr)
    | _ => cases h
  | not x ih =>
    cases y with
    | not y => exact .not (ih h)
    | _ => cases h
  | identity uid gid =>
    cases y with
    | identity uid' gid' =>
      simp only [daPolicyExprEqual, Bool.and_eq_true, beq_iff_eq] at h
      rw [h.1, h.2]
      exact .identity uid' gid'
    | _ => cases h
  | custom action pattern =>
    cases y with
    | custom action' pattern' =>
      simp only [daPolicyExprEqual, daPolicyExprCustomEqual, Bool.and_eq_true, beq_iff_eq] at h
      obtain ⟨rfl, h⟩ := h
      cases pattern with
      | none =>
        cases pattern' with
        | none => exact .noPattern action
        | some q => cases h
      | some p =>
        cases pattern' with
        | none => cases h
        | some q => exact .pattern action h
    | _ => cases h

theorem UpToOrder.equal (h : UpToOrder g x y) : daPolicyExprEqual g x y = true := by
  induction h with
  | null => rfl
  | and _ _ ihl ihr | or _ _ ihl ihr =>
    simp only [daPolicyExprEqual, ihl, ihr, Bool.and_self, Bool.true_or]
  | andCross _ _ ihl ihr | orCross _ _ ihl ihr =>
    simp only [daPolicyExprEqual, ihl, ihr, Bool.and_self, Bool.or_true]
  | not _ ih => exact ih
  | identity => simp only [daPolicyExprEqual, beq_self_eq_true, Bool.and_self]
  | noPattern => simp only [daPolicyExprEqual, daPolicyExprCustomEqual, beq_self_eq_true,
      Bool.and_self]
  | pattern action hp =>
    simp only [daPolicyExprEqual, daPolicyExprCustomEqual, beq_self_eq_true, Bool.true_and]
    exact hp

/-! Nodes that change places. -/

/-- The nodes of both operands, and the operator itself. -/
def joinNodes (here : Bool) (left right : List Bool → Bool) : List Bool → Bool
  | [] => here
  | false :: way => left way
  | true :: way => right way

/-- Each operator that was compared crosswise is one of the nodes. -/
theorem UpToOrder.exchange (h : UpToOrder g x y) : ∃ nodes, SameTree g (x.exchange nodes) y := by
  induction h with
  | null => exact ⟨fun _ => false, .null⟩
  | and _ _ ihl ihr =>
    obtain ⟨nodes1, h1⟩ := ihl
    obtain ⟨nodes2, h2⟩ := ihr
    exact ⟨joinNodes false nodes1 nodes2, .and h1 h2⟩
  | andCross _ _ ihl ihr =>
    obtain ⟨nodes1, h1⟩ := ihl
    obtain ⟨nodes2, h2⟩ := ihr
    exact ⟨joinNodes true nodes1 nodes2, .and h2 h1⟩
  | or _ _ ihl ihr =>
    obtain ⟨nodes1, h1⟩ := ihl
    obtain ⟨nodes2, h2⟩ := ihr
    exact ⟨joinNodes false nodes1 nodes2, .or h1 h2⟩
  | orCross _ _ ihl ihr =>
    obtain ⟨nodes1, h1⟩ := ihl
    obtain ⟨nodes2, h2⟩ := ihr
    exact ⟨joinNodes true nodes1 nodes2, .or h2 h1⟩
  | not _ ih =>
    obtain ⟨nodes, hx⟩ := ih
    exact ⟨joinNodes false nodes nodes, .not hx⟩
  | identity uid gid => exact ⟨fun _ => false, .identity uid gid⟩
  | noPattern action => exact ⟨fun _ => false, .noPattern action⟩
  | pattern action hp => exact ⟨fun _ => false, .pattern action hp⟩

theorem upToOrder_of_exchange (h : SameTree g (x.exchange nodes) y) : UpToOrder g x y := by
  induction x generalizing nodes y with
  | and l r ihl ihr =>
    simp only [DAPolicyExpr.exchange] at h
    split_ifs at h with hnode
    · cases h with
      | and hr hl => exact .andCross (ihl hl) (ihr hr)
    · cases h with
      | and hl hr => exact .and (ihl hl) (ihr hr)
  | or l r ihl ihr =>
    simp only [DAPolicyExpr.exchange] at h
    split_ifs at h with hnode
    · cases h with
      | or hr hl => exact .orCross (ihl hl) (ihr hr)
    · cases h with
      | or hl hr => exact .or (ihl hl) (ihr hr)
  | not x ih =>
    cases h with
    | not h => exact .not (ih h)
  | null =>
    cases h
    exact .null
  | identity uid gid =>
    cases h
    exact .identity uid gid
  | custom action pattern =>
    cases h with
    | noPattern => exact .noPattern action
    | pattern _ hp => exact .pattern action hp

/-! Equivalence. -/

theorem UpToOrder.refl (hg : Equivalence g.Equal) (x : DAPolicyExpr σ) : UpToOrder g x x := by
  induction x with
  | null => exact .null
  | and l r ihl ihr => exact .and ihl ihr
  | or l r ihl ihr => exact .or ihl ihr
  | not x ih => exact .not ih
  | identity uid gid => exact .identity uid gid
  | custom action pattern =>
    cases pattern with
    | none => exact .noPattern action
    | some p => exact .pattern action (hg.refl p)

theorem UpToOrder.symm (hg : Equivalence g.Equal) (h : UpToOrder g x y) : UpToOrder g y x := by
  induction h with
  | null => exact .null
  | and _ _ ihl ihr => exact .and ihl ihr
  | andCross _ _ ihl ihr => exact .andCross ihr ihl
  | or _ _ ihl ihr => exact .or ihl ihr
  | orCross _ _ ihl ihr => exact .orCross ihr ihl
  | not _ ih => exact .not ih
  | identity uid gid => exact .identity uid gid
  | noPattern action => exact .noPattern action
  | pattern action hp => exact .pattern action (hg.symm hp)

/-- Two crosswise comparisons in a row go one by one again. -/
theorem UpToOrder.trans (hg : Equivalence g.Equal) (h : UpToOrder g x y)
    (h' : UpToOrder g y z) : UpToOrder g x z := by
  induction h generalizing z with
  | null => exact h'
  | and _ _ ihl ihr =>
    cases h' with
    | and hl hr => exact .and (ihl hl) (ihr hr)
    | andCross hl hr => exact .andCross (ihl hl) (ihr hr)
  | andCross _ _ ihl ihr =>
    cases h' with
    | and hl hr => exact .andCross (ihl hr) (ihr hl)
    | andCross hl hr => exact .and (ihl hr) (ihr hl)
  | or _ _ ihl ihr =>
    cases h' with
    | or hl hr => exact .or (ihl hl) (ihr hr)
    | orCross hl hr => exact .orCross (ihl hl) (ihr hr)
  | orCross _ _ ihl ihr =>
    cases h' with
    | or hl hr => exact .orCross (ihl hr) (ihr hl)
    | orCross hl hr => exact .or (ihl hr) (ihr hl)
  | not _ ih =>
    cases h' with
    | not h' => exact .not (ih h')
  | identity => exact h'
  | noPattern => exact h'
  | pattern action hp =>
    cases h' with
    | pattern _ hp' => exact .pattern action (hg.trans hp hp')

/-! Policies. -/

/-- The walk over both lists compares entry by entry. -/
theorem entriesEqual_iff {l1 l2 : List (DAPolicyEntry σ)} : entriesEqual g l1 l2 = true ↔
    List.Forall₂ (fun e1 e2 => e1.access = e2.access ∧ UpToOrder g e1.expr e2.expr) l1 l2 := by
  induction l1 generalizing l2 with
  | nil => cases l2 <;> simp [entriesEqual]
  | cons e1 l1 ih =>
    cases l2 with
    | nil => simp [entriesEqual]
    | cons e2 l2 =>
      rw [entriesEqual, List.forall₂_cons, ← ih]
      have hexpr : daPolicyExprEqual g e1.expr e2.expr = true ↔ UpToOrder g e1.expr e2.expr :=
        ⟨upToOrder_of_equal, UpToOrder.equal⟩
      rw [← hexpr]
      by_cases hx : daPolicyExprEqual g e1.expr e2.expr = true <;>
        by_cases ha : e1.access = e2.access <;> simp [hx, ha]

theorem entriesEqual_refl (hg : Equivalence g.Equal) (l : List (DAPolicyEntry σ)) :
    entriesEqual g l l = true :=
  entriesEqual_iff.2 (List.forall₂_same.2 fun e _ => ⟨rfl, .refl hg e.expr⟩)

theorem entriesEqual_symm (hg : Equivalence g.Equal) {l1 l2 : List (DAPolicyEntry σ)}
    (h : entriesEqual g l1 l2 = true) : entriesEqual g l2 l1 = true := by
  rw [entriesEqual_iff] at h ⊢
  exact (h.imp fun e1 e2 he => ⟨he.1.symm, he.2.symm hg⟩).flip

theorem entriesEqual_trans (hg : Equivalence g.Equal) {l1 l2 l3 : List (DAPolicyEntry σ)}
    (h : entriesEqual g l1 l2 = true) (h' : entriesEqual g l2 l3 = true) :
    entriesEqual g l1 l3 = true := by
  rw [entriesEqual_iff] at h h' ⊢
  induction h generalizing l3 with
  | nil => exact h'
  | cons he _ ih =>
    cases h' with
    | cons he' h' => exact .cons ⟨he.1.trans he'.1, he.2.trans hg he'.2⟩ (ih h')

theorem entriesEqual_exchange {l1 l2 : List (DAPolicyEntry σ)} : entriesEqual g l1 l2 = true ↔
    List.Forall₂ (fun e1 e2 => e1.access = e2.access ∧
      ∃ nodes, SameTree g (e1.expr.exchange nodes) e2.expr) l1 l2 := by
  rw [entriesEqual_iff]
  apply Iff.intro
  · exact List.Forall₂.imp fun e1 e2 h => ⟨h.1, h.2.exchange⟩
  · exact List.Forall₂.imp fun e1 e2 h => ⟨h.1, upToOrder_of_exchange h.2.choose_spec⟩

/-- A policy is equal to itself without a comparison of its entries. -/
theorem daPolicyEqual_eq (hg : Equivalence g.Equal) (mem : Addr → DAPolicy σ)
    (p1 p2 : Option Addr) : daPolicyEqual g mem p1 p2 = true ↔
      (p1 = none ∧ p2 = none) ∨ ∃ a1 a2, p1 = some a1 ∧ p2 = some a2 ∧
        entriesEqual g (mem a1).entries (mem a2).entries = true := by
  unfold daPolicyEqual
  cases p1 with
  | none => cases p2 <;> simp
  | some a1 =>
    cases p2 with
    | none => simp
    | some a2 =>
      by_cases ha : a1 = a2
      · simp [ha, entriesEqual_refl hg]
      · simp [ha]

/-- Policies are found equal exactly when they are the same up to the order of operands,
and this is an equivalence. -/
theorem daPolicyEqual_correct (g : GPattern σ)
    (hg : Equivalence fun p q => g.gPatternSpecEqual p q = true) (mem : Addr → DAPolicy σ) :
    (∀ p1 p2, daPolicyEqual g mem p1 p2 = true ↔ SamePolicy g (p1.map mem) (p2.map mem)) ∧
      Equivalence fun p1 p2 => daPolicyEqual g mem p1 p2 = true := by
  have heq := daPolicyEqual_eq (g := g) hg mem
  refine ⟨fun p1 p2 => ?_, fun p => ?_, fun {p1 p2} h => ?_, fun {p1 p2 p3} h h' => ?_⟩
  · rw [heq, SamePolicy]
    simp only [entriesEqual_exchange]
    cases p1 <;> cases p2 <;> simp
  · simp only [daPolicyEqual, if_true]
  · rcases (heq p1 p2).1 h with ⟨rfl, rfl⟩ | ⟨a1, a2, rfl, rfl, he⟩
    · rfl
    · exact (heq _ _).2 (Or.inr ⟨a2, a1, rfl, rfl, entriesEqual_symm hg he⟩)
  · rcases (heq p1 p2).1 h with ⟨rfl, rfl⟩ | ⟨a1, a2, rfl, rfl, he⟩
    · exact h'
    · rcases (heq _ p3).1 h' with ⟨hne, -⟩ | ⟨a2', a3, ha, rfl, he'⟩
      · cases hne
      · obtain rfl := Option.some_inj.1 ha
        exact (heq _ _).2 (Or.inr ⟨a1, a3, rfl, rfl, entriesEqual_trans hg he he'⟩)

theorem globPattern_equivalence :
    Equivalence fun p q => globPattern.gPatternSpecEqual p q = true := by
  have heq : ∀ p q : CString, globPattern.gPatternSpecEqual p q = true ↔ p = q :=
    fun p q => beq_iff_eq
  simp only [heq]
  exact eq_equivalence

theorem daPolicyEqual_correct_commuted :
    (∀ p1 p2, daPolicyEqual globPattern commutedPolicies p1 p2 = true ↔
      SamePolicy globPattern (p1.map commutedPolicies) (p2.map commutedPolicies)) ∧
      Equivalence fun p1 p2 => daPolicyEqual globPattern commutedPolicies p1 p2 = true :=
  daPolicyEqual_correct globPattern globPattern_equivalence commutedPolicies

end DbusAccess
