import DbusAccess.Proofs.PolicyLanguage

/-! The place of an operand in a policy: another expression derives from the same tokens
around it. -/

namespace DbusAccess

variable {us vs A B : List Token} {t u : Token}

/-- An expression with a hole. -/
inductive ExprContext where
  | hole
  | not (c : ExprContext)
  | orLeft (c : ExprContext) (y : ExprSyntax)
  | orRight (x : ExprSyntax) (c : ExprContext)
  | andLeft (c : ExprContext) (y : ExprSyntax)
  | andRight (x : ExprSyntax) (c : ExprContext)

def ExprContext.plug : ExprContext → ExprSyntax → ExprSyntax
  | .hole, z => z
  | .not c, z => .not (c.plug z)
  | .orLeft c y, z => .or (c.plug z) y
  | .orRight x c, z => .or x (c.plug z)
  | .andLeft c y, z => .and (c.plug z) y
  | .andRight x c, z => .and x (c.plug z)

/-- A policy with a hole in one of its entries. -/
structure PolicyContext where
  version : Option ℤ
  before : List EntrySyntax
  expr : ExprContext
  access : Option DAAccess
  after : List EntrySyntax

def PolicyContext.plug (c : PolicyContext) (z : ExprSyntax) : PolicySyntax :=
  ⟨c.version, c.before ++ .expr (c.expr.plug z) c.access :: c.after⟩

/-! Where a token stands in a list that is put together. -/

theorem append_eq_middle (h : us ++ vs = A ++ t :: B) :
    (∃ B', us = A ++ t :: B' ∧ B = B' ++ vs) ∨ ∃ A', A = us ++ A' ∧ vs = A' ++ t :: B := by
  rcases List.append_eq_append_iff.1 h with ⟨a, hA, hvs⟩ | ⟨b, hus, hB⟩
  · exact Or.inr ⟨a, hA, hvs⟩
  · cases b with
    | nil => exact Or.inr ⟨[], by simpa using hus.symm, hB.symm⟩
    | cons t' b =>
      obtain ⟨rfl, hB'⟩ := List.cons.inj hB
      exact Or.inl ⟨b, hus, hB'⟩

theorem cons_eq_middle (hne : u ≠ t) (h : u :: vs = A ++ t :: B) :
    ∃ A', A = u :: A' ∧ vs = A' ++ t :: B := by
  cases A with
  | nil => exact absurd (List.cons.inj h).1 hne
  | cons a A =>
    obtain ⟨rfl, h'⟩ := List.cons.inj h
    exact ⟨A, rfl, h'⟩

/-- Around a separator the token is on one of its sides. -/
theorem separated_eq_middle (hne : u ≠ t) (h : us ++ u :: vs = A ++ t :: B) :
    (∃ B', us = A ++ t :: B' ∧ B = B' ++ u :: vs) ∨
      ∃ A', A = us ++ u :: A' ∧ vs = A' ++ t :: B := by
  rcases append_eq_middle h with h | ⟨A', hA, hvs⟩
  · exact Or.inl h
  · obtain ⟨A'', rfl, hvs'⟩ := cons_eq_middle hne hvs
    exact Or.inr ⟨A'', hA, hvs'⟩

/-! Terms. -/

/-- Tokens that only a term starts with. -/
def TermHead : Token → Prop
  | .USER | .GROUP | .ID _ => True
  | _ => False

/-- What an operand starts with, behind these tokens. The parenthesis of a term is behind
its head. -/
def OperandHead (A : List Token) (t : Token) : Prop :=
  TermHead t ∨ t = tLparen ∧ ∀ h, A.getLast? = some h → ¬ TermHead h

theorem OperandHead.of_append (h : OperandHead (us ++ A) t) : OperandHead A t := by
  refine h.imp id fun h => ⟨h.1, fun u hu => h.2 u ?_⟩
  rw [List.getLast?_append, hu]
  rfl

theorem OperandHead.of_cons (h : OperandHead (u :: A) t) : OperandHead A t := by
  rw [← List.singleton_append] at h
  exact h.of_append

theorem OperandHead.ne_char (h : OperandHead A t) {c : UInt8} (hc : c ≠ ch '(') :
    .char c ≠ t := by
  rintro rfl
  rcases h with h | ⟨h, -⟩
  · exact h
  · exact hc (Token.char.inj h)

theorem OperandHead.ne_number (h : OperandHead A t) (n : ℤ) : .NUMBER n ≠ t := by
  rintro rfl
  rcases h with h | ⟨h, -⟩
  · exact h
  · cases h

/-- A term has one head, and a parenthesis that opens behind it. -/
theorem DerivesTerm.shape {s : TermSyntax} (h : DerivesTerm us s) :
    ∃ h t ts, us = h :: tLparen :: t :: ts ∧ TermHead h ∧
      ∀ u ∈ t :: ts, ¬ TermHead u ∧ u ≠ tLparen := by
  cases h with
  | user hu => cases hu <;> exact ⟨_, _, _, rfl, trivial, by simp [TermHead, ch]⟩
  | userGroup hu hg =>
    cases hu <;> cases hg <;> exact ⟨_, _, _, rfl, trivial, by simp [TermHead, ch]⟩
  | group hg => cases hg <;> exact ⟨_, _, _, rfl, trivial, by simp [TermHead, ch]⟩
  | action => exact ⟨_, _, _, rfl, trivial, by simp [TermHead, ch]⟩
  | actionParam _ hx => cases hx <;> exact ⟨_, _, _, rfl, trivial, by simp [TermHead, ch]⟩

theorem DerivesTerm.head_first {s : TermSyntax} (h : DerivesTerm us s) (ht : OperandHead A t)
    (hus : us = A ++ t :: B) : A = [] := by
  obtain ⟨head, t', ts, rfl, hhead, hts⟩ := h.shape
  match A with
  | [] => rfl
  | [a] =>
    obtain ⟨rfl, hus'⟩ := List.cons.inj hus
    obtain rfl : tLparen = t := (List.cons.inj hus').1
    rcases ht with ht | ⟨-, ht⟩
    · exact ht.elim
    · exact absurd hhead (ht _ rfl)
  | a :: b :: A =>
    have hmem : t ∈ t' :: ts := by
      rw [(List.cons.inj (List.cons.inj hus).2).2]
      simp
    rcases ht with ht | ⟨rfl, -⟩
    · exact absurd ht (hts t hmem).1
    · exact absurd rfl (hts _ hmem).2

theorem DerivesAccess.not_head {a : DAAccess} (h : DerivesAccess us a) (ht : OperandHead A t) :
    t ∉ us := by
  rcases ht with ht | ⟨rfl, -⟩
  · cases h <;> · rw [List.mem_singleton]; rintro rfl; exact ht
  · cases h <;> simp

/-! Holes. -/

variable {α β : Type} {D : List Token → α → Prop} {D' : List Token → β → Prop} {z : α}
  {C : ExprSyntax → α}

/-- The tokens from a head on start with an operand. What derives is a context around it,
and with any operand in its place the same context derives. -/
def OperandHole (D : List Token → α → Prop) (A : List Token) (t : Token) (B : List Token)
    (z : α) (C : ExprSyntax → α) : Prop :=
  ∃ seg B' x, t :: B = seg ++ B' ∧ DerivesExpr .P seg x ∧ z = C x ∧
    ∀ vs y, DerivesExpr .P vs y → D (A ++ vs ++ B') (C y)

/-- The same, for a term. -/
def Hole (D : List Token → α → Prop) (A : List Token) (t : Token) (B : List Token) (z : α)
    (C : ExprSyntax → α) : Prop :=
  ∃ seg B' s, t :: B = seg ++ B' ∧ DerivesTerm seg s ∧ z = C (.term s) ∧
    ∀ vs y, DerivesExpr .P vs y → D (A ++ vs ++ B') (C y)

/-- Phrases inside of phrases. -/
theorem OperandHole.lift (h : OperandHole D A t B z C) (F : α → β) (pre post : List Token)
    (hD : ∀ ts z', D ts z' → D' (pre ++ ts ++ post) (F z')) :
    OperandHole D' (pre ++ A) t (B ++ post) (F z) fun y => F (C y) := by
  obtain ⟨seg, B', x, hB, hx, rfl, hC⟩ := h
  refine ⟨seg, B' ++ post, x, ?_, hx, rfl, fun vs y hy => ?_⟩
  · rw [← List.cons_append, hB, List.append_assoc]
  · have h := hD _ _ (hC vs y hy)
    simp only [List.append_assoc] at h ⊢
    exact h

theorem OperandHole.right (h : OperandHole D A t B z C) (F : α → β) (pre : List Token)
    (hD : ∀ ts z', D ts z' → D' (pre ++ ts) (F z')) :
    OperandHole D' (pre ++ A) t B (F z) fun y => F (C y) := by
  rw [← List.append_nil B]
  refine h.lift F pre [] fun ts z' hz => ?_
  rw [List.append_nil]
  exact hD ts z' hz

theorem OperandHole.left (h : OperandHole D A t B z C) (F : α → β) (post : List Token)
    (hD : ∀ ts z', D ts z' → D' (ts ++ post) (F z')) :
    OperandHole D' A t (B ++ post) (F z) fun y => F (C y) :=
  h.lift F [] post hD

/-- The operand is all there is. -/
theorem OperandHole.whole {x : ExprSyntax} (h : DerivesExpr .P (t :: B) x) :
    OperandHole (DerivesExpr .P) [] t B x ExprContext.hole.plug := by
  refine ⟨t :: B, [], x, (List.append_nil _).symm, h, rfl, fun vs y hy => ?_⟩
  rw [List.nil_append, List.append_nil]
  exact hy

/-- Induction on the derivation. The head is inside one of the operands. -/
theorem DerivesExpr.operand {l : Level} {z : ExprSyntax} (h : DerivesExpr l us z)
    (ht : OperandHead A t) (hus : us = A ++ t :: B) :
    ∃ c : ExprContext, OperandHole (DerivesExpr l) A t B z c.plug := by
  induction h generalizing A B with
  | @term ts s hs =>
    obtain rfl := hs.head_first ht hus
    rw [List.nil_append] at hus
    rw [hus] at hs
    exact ⟨.hole, .whole (.term hs)⟩
  | @paren ts x hx ih =>
    cases A with
    | nil =>
      rw [List.nil_append] at hus
      have hp := DerivesExpr.paren hx
      rw [hus] at hp
      exact ⟨.hole, .whole hp⟩
    | cons a A =>
      obtain ⟨rfl, hus'⟩ := List.cons.inj hus
      have ht' : OperandHead A t := ht.of_cons
      rcases append_eq_middle hus' with ⟨B', hts, rfl⟩ | ⟨A'', -, hlast⟩
      · obtain ⟨c, h⟩ := ih ht' hts
        exact ⟨c, h.lift id [tLparen] [tRparen] fun ts z' hz => .paren hz⟩
      · obtain ⟨A'', -, hnil⟩ := cons_eq_middle (ht.ne_char (by decide)) hlast
        simp at hnil
  | prim hx ih =>
    obtain ⟨c, h⟩ := ih ht hus
    exact ⟨c, h.right id [] fun ts z' hz => .prim hz⟩
  | not hx ih =>
    obtain ⟨A', rfl, hus'⟩ := cons_eq_middle (ht.ne_char (by decide)) hus
    obtain ⟨c, h⟩ := ih ht.of_cons hus'
    exact ⟨.not c, h.right ExprSyntax.not [tBang] fun ts z' hz => .not hz⟩
  | @or ts x us y hx hy ihx ihy =>
    rcases separated_eq_middle (ht.ne_char (by decide)) hus with ⟨B', hts, rfl⟩ | ⟨A', rfl, hus'⟩
    · obtain ⟨c, h⟩ := ihx ht hts
      exact ⟨.orLeft c y, h.left (ExprSyntax.or · y) _ fun ts z' hz => .or hz hy⟩
    · rw [← List.singleton_append, ← List.append_assoc] at ht ⊢
      obtain ⟨c, h⟩ := ihy ht.of_append hus'
      refine ⟨.orRight x c, ?_⟩
      refine h.right (ExprSyntax.or x) (ts ++ [tBar]) fun us z' hz => ?_
      rw [List.append_assoc]
      exact .or hx hz
  | @and ts x us y hx hy ihx ihy =>
    rcases separated_eq_middle (ht.ne_char (by decide)) hus with ⟨B', hts, rfl⟩ | ⟨A', rfl, hus'⟩
    · obtain ⟨c, h⟩ := ihx ht hts
      exact ⟨.andLeft c y, h.left (ExprSyntax.and · y) _ fun ts z' hz => .and hz hy⟩
    · rw [← List.singleton_append, ← List.append_assoc] at ht ⊢
      obtain ⟨c, h⟩ := ihy ht.of_append hus'
      refine ⟨.andRight x c, ?_⟩
      refine h.right (ExprSyntax.and x) (ts ++ [tAmp]) fun us z' hz => ?_
      rw [List.append_assoc]
      exact .and hx hz

theorem DerivesEntry.operand {e : EntrySyntax} (h : DerivesEntry us e) (ht : OperandHead A t)
    (hus : us = A ++ t :: B) :
    ∃ (c : ExprContext) (a : Option DAAccess),
      OperandHole DerivesEntry A t B e fun y => .expr (c.plug y) a := by
  have haccess : ∀ {us A' a}, DerivesAccess us a → us ≠ A' ++ t :: B := by
    rintro us A' a ha rfl
    exact ha.not_head ht (by simp)
  cases h with
  | wildcard ha =>
    obtain ⟨A', rfl, hus'⟩ := cons_eq_middle (ht.ne_char (by decide)) hus
    obtain ⟨A'', rfl, hts⟩ := cons_eq_middle (ht.ne_char (by decide)) hus'
    exact absurd hts (haccess ha)
  | expr hx =>
    obtain ⟨c, h⟩ := hx.operand ht hus
    exact ⟨c, none, h.right (EntrySyntax.expr · none) [] fun ts z' hz => .expr hz⟩
  | @access ts x us a hx ha =>
    rcases separated_eq_middle (ht.ne_char (by decide)) hus with ⟨B', hts, rfl⟩ | ⟨A', rfl, hus'⟩
    · obtain ⟨c, h⟩ := hx.operand ht hts
      exact ⟨c, some a, h.left (EntrySyntax.expr · (some a)) _ fun ts z' hz => .access hz ha⟩
    · exact absurd hus' (haccess ha)

/-- Induction on the list. -/
theorem DerivesMore.operand {es : List EntrySyntax} (h : DerivesMore us es)
    (ht : OperandHead A t) (hus : us = A ++ t :: B) :
    ∃ (before : List EntrySyntax) (c : ExprContext) (a : Option DAAccess)
      (after : List EntrySyntax),
      OperandHole DerivesMore A t B es fun y => before ++ .expr (c.plug y) a :: after := by
  induction h generalizing A B with
  | none => simp at hus
  | final =>
    obtain ⟨A', rfl, hnil⟩ := cons_eq_middle (ht.ne_char (by decide)) hus
    simp at hnil
  | @entry ts e us es he hm ih =>
    rw [List.cons_append] at hus
    obtain ⟨A', rfl, hus'⟩ := cons_eq_middle (ht.ne_char (by decide)) hus
    have ht' : OperandHead A' t := ht.of_cons
    rcases append_eq_middle hus' with ⟨B', hts, rfl⟩ | ⟨A'', rfl, hus''⟩
    · obtain ⟨c, a, h⟩ := he.operand ht' hts
      exact ⟨[], c, a, es, h.lift (· :: es) [tSemicolon] us fun ts e' he' => .entry he' hm⟩
    · obtain ⟨before, c, a, after, h⟩ := ih ht'.of_append hus''
      refine ⟨e :: before, c, a, after, ?_⟩
      exact h.right (e :: ·) (tSemicolon :: ts) fun us es' hm' => .entry he hm'

/-- From a head on there is an operand in the policy, and any other fits into its place. -/
theorem DerivesPolicy.operand {p : PolicySyntax} (h : DerivesPolicy us p)
    (ht : OperandHead A t) (hus : us = A ++ t :: B) :
    ∃ c : PolicyContext, OperandHole DerivesPolicy A t B p c.plug := by
  cases h with
  | version n =>
    obtain ⟨A', rfl, hnil⟩ := cons_eq_middle (ht.ne_number n) hus
    simp at hnil
  | @versionEntries n ts e us es he hm =>
    simp only [List.cons_append] at hus
    obtain ⟨A', rfl, hus'⟩ := cons_eq_middle (ht.ne_number n) hus
    obtain ⟨A', rfl, hus''⟩ := cons_eq_middle (ht.ne_char (by decide)) hus'
    have ht' : OperandHead A' t := ht.of_cons.of_cons
    rcases append_eq_middle hus'' with ⟨B', hts, rfl⟩ | ⟨A'', rfl, hm'⟩
    · obtain ⟨c, a, h⟩ := he.operand ht' hts
      refine ⟨⟨some n, [], c, a, es⟩, ?_⟩
      exact h.lift (fun e => PolicySyntax.mk (some n) (e :: es)) [.NUMBER n, tSemicolon] us
        fun ts e' he' => .versionEntries n he' hm
    · obtain ⟨before, c, a, after, h⟩ := hm.operand ht'.of_append hm'
      refine ⟨⟨some n, e :: before, c, a, after⟩, ?_⟩
      exact h.right (fun es => PolicySyntax.mk (some n) (e :: es)) (.NUMBER n :: tSemicolon :: ts)
        fun us es' hm' => .versionEntries n he hm'
  | @entries ts e us es he hm =>
    rcases append_eq_middle hus with ⟨B', hts, rfl⟩ | ⟨A', rfl, hm'⟩
    · obtain ⟨c, a, h⟩ := he.operand ht hts
      refine ⟨⟨none, [], c, a, es⟩, ?_⟩
      exact h.left (fun e => PolicySyntax.mk none (e :: es)) us fun ts e' he' => .entries he' hm
    · obtain ⟨before, c, a, after, h⟩ := hm.operand ht.of_append hm'
      refine ⟨⟨none, e :: before, c, a, after⟩, ?_⟩
      exact h.right (fun es => PolicySyntax.mk none (e :: es)) ts
        fun us es' hm' => .entries he hm'

/-- A term is not in parentheses of its own. -/
theorem DerivesExpr.term_of_head {x : ExprSyntax} (h : DerivesExpr .P us x) (ht : TermHead t)
    (hus : t :: B = us ++ vs) : ∃ s, DerivesTerm us s ∧ x = .term s := by
  cases h with
  | term hs => exact ⟨_, hs, rfl⟩
  | paren hx =>
    obtain ⟨rfl, -⟩ := List.cons.inj hus
    exact ht.elim

theorem DerivesPolicy.hole {p : PolicySyntax} (h : DerivesPolicy us p) (ht : TermHead t)
    (hus : us = A ++ t :: B) : ∃ c : PolicyContext, Hole DerivesPolicy A t B p c.plug := by
  obtain ⟨c, seg, B', x, hB, hx, rfl, hC⟩ := h.operand (Or.inl ht) hus
  obtain ⟨s, hs, rfl⟩ := hx.term_of_head ht hB
  exact ⟨c, seg, B', s, hB, hs, rfl, hC⟩

end DbusAccess
