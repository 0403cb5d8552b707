import DbusAccess.Proofs.PolicyDecision
import DbusAccess.Proofs.ScannerRuns

/-! How far the `!` of the policy language reaches. `%left '!'` gives a precedence
to one side of its conflicts only, so these are settled by shifting: `!` applies
to all of `t & e` and not to `t` alone. -/

namespace DbusAccess

open MaximalMunch

variable {σ : Type} (g : GPattern σ) {host : Host} {actions : Option (List DAAction)}
  {us ve : List Token} {b y z : ExprSyntax} {k : ℕ} {t e text : CString}

/-- An operand: a primary with `k` times `!` in front. -/
inductive DerivesOperand : ℕ → List Token → ExprSyntax → Prop
  | prim {ts x} (hx : DerivesExpr .P ts x) : DerivesOperand 0 ts x
  | not {n ts x} (hx : DerivesOperand n ts x) : DerivesOperand (n + 1) (tBang :: ts) x

def nots : ℕ → ExprSyntax → ExprSyntax
  | 0, x => x
  | k + 1, x => .not (nots k x)

theorem DerivesOperand.expr (h : DerivesOperand k us b) : DerivesExpr .E us (nots k b) := by
  induction h with
  | prim hb => exact .prim hb
  | not _ ih => exact .not ih

/-- An operator behind an operand is read before the negations. -/
theorem DerivesOperand.and (h : DerivesOperand k us b) (hy : DerivesExpr .E ve y) :
    DerivesExpr .E (us ++ tAmp :: ve) (nots k (.and b y)) := by
  induction h with
  | prim hb => exact .and hb hy
  | not _ ih => exact .not ih

theorem DerivesOperand.or (h : DerivesOperand k us b) (hy : DerivesExpr .E ve y) :
    DerivesExpr .E (us ++ tBar :: ve) (nots k (.or b y)) := by
  induction h with
  | prim hb => exact .or hb hy
  | not _ ih => exact .not ih

theorem nots_known (k : ℕ) (x : ExprSyntax) : (nots k x).Known actions ↔ x.Known actions := by
  induction k with
  | zero => rfl
  | succ k ih => exact ih

/-- The truth of a tree that a text stands for. -/
abbrev ExprSyntax.Holds (host : Host) (actions : Option (List DAAction)) (pc : DAPolicyCheck)
    (x : ExprSyntax) : Prop := (x.tree host actions).Holds g pc

theorem and_holds (x y : ExprSyntax) (pc : DAPolicyCheck) :
    (ExprSyntax.and x y).Holds g host actions pc ↔
      x.Holds g host actions pc ∧ y.Holds g host actions pc := Iff.rfl

theorem or_holds (x y : ExprSyntax) (pc : DAPolicyCheck) :
    (ExprSyntax.or x y).Holds g host actions pc ↔
      x.Holds g host actions pc ∨ y.Holds g host actions pc := Iff.rfl

theorem nots_holds (k : ℕ) (x : ExprSyntax) (pc : DAPolicyCheck) :
    (nots k x).Holds g host actions pc ↔ (x.Holds g host actions pc ↔ Even k) := by
  induction k with
  | zero => simp [nots]
  | succ k ih =>
    rw [nots, Nat.even_add_one]
    change ¬ (nots k x).Holds g host actions pc ↔ _
    rw [ih]
    tauto

/-! A policy of one rule. -/

variable (host) in
theorem daParserCompile_expr (h : DerivesExpr .E (scanAll text) z) (hz : z.Known actions) :
    daParserCompile host (some text) actions = some ⟨actions, [⟨z.tree host actions, .ALLOW⟩]⟩ := by
  have hd : DerivesPolicy (tokens host text ++ []) ⟨none, [.expr z none]⟩ := by
    rw [tokens_eq_scanAll (h.no_end host)]
    exact .entries (.expr h) .none
  rw [List.append_nil] at hd
  exact daParserCompile_of_derives hd ⟨nofun, by simpa [EntrySyntax.Known] using hz⟩

/-- Root is not subject to the rules. -/
def DAPolicyCheck.IsRoot (pc : DAPolicyCheck) : Prop := ∃ c, pc.cred = some c ∧ c.euid = 0

variable (host) in
open Classical in
theorem daPolicyCheck_expr (h : DerivesExpr .E (scanAll text) z) (hz : z.Known actions) :
    ∃ p, daPolicyNewFull g host (some text) actions = some p ∧
      ∀ cred action arg default, daPolicyCheck g (some p) cred action arg default =
        if (DAPolicyCheck.mk cred action arg).IsRoot ∨ z.Holds g host actions ⟨cred, action, arg⟩
        then .ALLOW else default := by
  have hc := daParserCompile_expr host h hz
  refine ⟨_, daPolicyNewFull_eq g hc, ?_⟩
  intro cred action arg default
  rw [daPolicyCheck_eq g _ (daParserCompile_idsOk hc), decision]
  by_cases hroot : (DAPolicyCheck.mk cred action arg).IsRoot
  · rw [if_pos (Or.inl hroot)]
    exact if_pos hroot
  · refine (if_neg hroot).trans ?_
    by_cases hh : z.Holds g host actions ⟨cred, action, arg⟩
    · rw [if_pos (Or.inr hh)]
      simp [daParserGetResult, hh]
    · rw [if_neg (not_or.2 ⟨hroot, hh⟩)]
      simp [daParserGetResult, hh]

variable (host) in
/-- Two one-rule policies decide alike when their trees do for everybody but root. -/
theorem daPolicyCheck_expr_congr {text' : CString} {z' : ExprSyntax}
    (h : DerivesExpr .E (scanAll text) z) (hz : z.Known actions)
    (h' : DerivesExpr .E (scanAll text') z') (hz' : z'.Known actions) :
    ∃ p q, daPolicyNewFull g host (some text) actions = some p ∧
      daPolicyNewFull g host (some text') actions = some q ∧
      ((∀ cred action arg default, daPolicyCheck g (some p) cred action arg default =
          daPolicyCheck g (some q) cred action arg default) ↔
        ∀ pc : DAPolicyCheck, ¬ pc.IsRoot →
          (z.Holds g host actions pc ↔ z'.Holds g host actions pc)) := by
  obtain ⟨p, hp, hcheck⟩ := daPolicyCheck_expr g host h hz
  obtain ⟨q, hq, hcheck'⟩ := daPolicyCheck_expr g host h' hz'
  refine ⟨p, q, hp, hq, ?_, ?_⟩
  · intro heq pc hroot
    have := heq pc.cred pc.action pc.arg .DENY
    rw [hcheck, hcheck'] at this
    by_cases h1 : z.Holds g host actions pc <;> by_cases h2 : z'.Holds g host actions pc <;>
      simp_all
  · intro hiff cred action arg default
    rw [hcheck, hcheck']
    by_cases hroot : (DAPolicyCheck.mk cred action arg).IsRoot
    · rw [if_pos (Or.inl hroot), if_pos (Or.inl hroot)]
    · by_cases h1 : z.Holds g host actions ⟨cred, action, arg⟩
      · have h2 := (hiff _ hroot).1 h1
        rw [if_pos (Or.inr h1), if_pos (Or.inr h2)]
      · have h2 := mt (hiff _ hroot).2 h1
        rw [if_neg (not_or.2 ⟨hroot, h1⟩), if_neg (not_or.2 ⟨hroot, h2⟩)]

/-! The texts `!t & e` and `(!t) & e`, and the same with `|`. -/

theorem scanAll_punctuation {c : UInt8} (hc : Punctuation c) (x : CString) :
    scanAll (c :: x) = .char c :: scanAll x :=
  congrArg Prod.fst (scan_punctuation hc x)

theorem scanAll_not_op (h : Closed t) {c : UInt8} (hc : Punctuation c) :
    scanAll (ch '!' :: t ++ [ch ' ', c, ch ' '] ++ e) =
      tBang :: scanAll t ++ .char c :: scanAll e := by
  simp only [List.cons_append, List.append_assoc, List.nil_append]
  rw [scanAll_punctuation (by decide)]
  exact congrArg (tBang :: ·) (congrArg Prod.fst (h.mark hc e))

theorem scanAll_paren_not_op (h : Closed t) {c : UInt8} (hc : Punctuation c) :
    scanAll (ch '(' :: ch '!' :: t ++ [ch ')', ch ' ', c, ch ' '] ++ e) =
      (tLparen :: (tBang :: scanAll t) ++ [tRparen]) ++ .char c :: scanAll e := by
  have hu : ScanState.init.Unquoted := Or.inl rfl
  simp only [List.cons_append, List.append_assoc, List.nil_append]
  rw [scanAll_punctuation (by decide), scanAll_punctuation (by decide)]
  refine congrArg (tLparen :: tBang :: ·) ?_
  unfold scanAll
  rw [h.scan_append (by decide), scan_punctuation (by decide), scan_space hu (by decide),
    scan_punctuation hc, scan_space hu (by decide)]
  rfl

private theorem and_agree (k : ℕ) (b c : Prop) :
    (((b ∧ c) ↔ Even (k + 1)) ↔ ((b ↔ Even (k + 1)) ∧ c)) ↔ Odd k ∨ c := by
  rw [Nat.even_add_one, Nat.not_even_iff_odd]
  tauto

private theorem or_agree (k : ℕ) (b c : Prop) :
    (((b ∨ c) ↔ Even (k + 1)) ↔ ((b ↔ Even (k + 1)) ∨ c)) ↔ Odd k ∨ ¬ c := by
  rw [Nat.even_add_one, Nat.not_even_iff_odd]
  tauto

variable (host) in
/-- The two texts for an operator, from the trees that `t` and `e` give with it. -/
theorem compare_op (ht : Closed t) {c : UInt8} (hc : Punctuation c) {z' : ExprSyntax}
    (h : DerivesExpr .E (tBang :: scanAll t ++ .char c :: scanAll e) z) (hz : z.Known actions)
    (h' : DerivesExpr .E
      ((tLparen :: (tBang :: scanAll t) ++ [tRparen]) ++ .char c :: scanAll e) z')
    (hz' : z'.Known actions) {O : Prop} {Q : DAPolicyCheck → Prop}
    (hQ : ∀ pc, (z.Holds g host actions pc ↔ z'.Holds g host actions pc) ↔ O ∨ Q pc) :
    ∃ p q, daPolicyNewFull g host (some (ch '!' :: t ++ [ch ' ', c, ch ' '] ++ e)) actions =
        some p ∧
      daPolicyNewFull g host (some (ch '(' :: ch '!' :: t ++ [ch ')', ch ' ', c, ch ' '] ++ e))
        actions = some q ∧
      ((∀ cred action arg default, daPolicyCheck g (some p) cred action arg default =
          daPolicyCheck g (some q) cred action arg default) ↔
        O ∨ ∀ pc : DAPolicyCheck, ¬ pc.IsRoot → Q pc) := by
  rw [← scanAll_not_op ht hc] at h
  rw [← scanAll_paren_not_op ht hc] at h'
  obtain ⟨p, q, hp, hq, hiff⟩ := daPolicyCheck_expr_congr g host h hz h' hz'
  refine ⟨p, q, hp, hq, hiff.trans ?_⟩
  simp only [hQ]
  by_cases hO : O <;> simp [hO]

/-- For an operand `t` with `k` times `!` of its own, `!t & e` decides as
`(!t) & e` exactly when `k` is odd or `e` is true whoever asks for what, and `!t | e`
as `(!t) | e` exactly when `k` is odd or `e` is never true; root aside. -/
theorem not_binds_tighter_iff (host : Host) (actions : Option (List DAAction)) (t e : CString)
    (k : ℕ) (b y : ExprSyntax) (ht : DerivesOperand k (scanAll t) b)
    (he : DerivesExpr .E (scanAll e) y) (hb : b.Known actions) (hy : y.Known actions) :
    (∃ p q, daPolicyNewFull g host (some (str "!" ++ t ++ str " & " ++ e)) actions = some p ∧
      daPolicyNewFull g host (some (str "(!" ++ t ++ str ") & " ++ e)) actions = some q ∧
      ((∀ cred action arg default, daPolicyCheck g (some p) cred action arg default =
          daPolicyCheck g (some q) cred action arg default) ↔
        Odd k ∨ ∀ pc : DAPolicyCheck, ¬ pc.IsRoot → y.Holds g host actions pc)) ∧
    ∃ p q, daPolicyNewFull g host (some (str "!" ++ t ++ str " | " ++ e)) actions = some p ∧
      daPolicyNewFull g host (some (str "(!" ++ t ++ str ") | " ++ e)) actions = some q ∧
      ((∀ cred action arg default, daPolicyCheck g (some p) cred action arg default =
          daPolicyCheck g (some q) cred action arg default) ↔
        Odd k ∨ ∀ pc : DAPolicyCheck, ¬ pc.IsRoot → ¬ y.Holds g host actions pc) := by
  have hclosed : Closed t := ht.expr.closed
  have hnot : DerivesOperand (k + 1) (tBang :: scanAll t) b := .not ht
  have hkb := (nots_known (k + 1) b).2 hb
  have hparen : DerivesExpr .P (tLparen :: (tBang :: scanAll t) ++ [tRparen]) (nots (k + 1) b) :=
    .paren hnot.expr
  have hnots : ∀ (pc : DAPolicyCheck) (x : ExprSyntax),
      (nots (k + 1) x).Holds g host actions pc ↔ (x.Holds g host actions pc ↔ Even (k + 1)) :=
    fun pc x => nots_holds g (k + 1) x pc
  refine ⟨?_, ?_⟩
  · apply compare_op g host hclosed (c := ch '&') (by decide) (hnot.and he)
      ((nots_known (k + 1) _).2 ⟨hb, hy⟩) (.and hparen he) ⟨hkb, hy⟩
    intro pc
    rw [hnots, and_holds, and_holds, hnots]
    exact and_agree k _ _
  · apply compare_op g host hclosed (c := ch '|') (by decide) (hnot.or he)
      ((nots_known (k + 1) _).2 ⟨hb, hy⟩) (.or hparen he) ⟨hkb, hy⟩
    intro pc
    rw [hnots, or_holds, or_holds, hnots]
    exact or_agree k _ _

theorem derives_user {n : ℤ} (h : scanAll text = [.USER, tLparen, .NUMBER n, tRparen]) :
    DerivesExpr .P (scanAll text) (.term (.user (.number n))) := by
  rw [h]
  exact .term (.user (.number n))

theorem not_binds_tighter_iff_users :
    ∃ p q, daPolicyNewFull globPattern exampleHost
        (some (str "!" ++ str "user(1)" ++ str " & " ++ str "user(2)")) none = some p ∧
      daPolicyNewFull globPattern exampleHost
        (some (str "(!" ++ str "user(1)" ++ str ") & " ++ str "user(2)")) none = some q ∧
      ((∀ cred action arg default, daPolicyCheck globPattern (some p) cred action arg default =
          daPolicyCheck globPattern (some q) cred action arg default) ↔
        Odd 0 ∨ ∀ pc : DAPolicyCheck, ¬ pc.IsRoot →
          (ExprSyntax.term (.user (.number 2))).Holds globPattern exampleHost none pc) :=
  (not_binds_tighter_iff globPattern exampleHost none (str "user(1)") (str "user(2)") 0
    (.term (.user (.number 1))) (.term (.user (.number 2)))
    (.prim (derives_user (by decide +kernel))) (.prim (derives_user (by decide +kernel)))
    trivial trivial).1

/-- User 3 is let in by the first policy and not by the second. -/
theorem not_binds_tighter_fails :
    ∃ p q, daPolicyNewFull globPattern exampleHost (some (str "!user(1) & user(2)")) none = some p ∧
      daPolicyNewFull globPattern exampleHost (some (str "(!user(1)) & user(2)")) none = some q ∧
      daPolicyCheck globPattern (some p) (some ⟨3, 3, [], 0, 0⟩) 0 none .DENY = .ALLOW ∧
      daPolicyCheck globPattern (some q) (some ⟨3, 3, [], 0, 0⟩) 0 none .DENY = .DENY :=
  ⟨⟨[⟨.ALLOW, .not (.and (.identity 1 (-1)) (.identity 2 (-1)))⟩]⟩,
    ⟨[⟨.ALLOW, .and (.not (.identity 1 (-1))) (.identity 2 (-1))⟩]⟩,
    by decide +kernel, by decide +kernel, by decide, by decide⟩

end DbusAccess
