import DbusAccess.Proofs.ParserMemory
import DbusAccess.Proofs.ParserRuns
import DbusAccess.Proofs.ScannerRuns

/-! The actions of the grammar, and the scanner, on a parser in memory: they do to the
values what they do without memory. -/

namespace DbusAccess.InMemory

open MaximalMunch Separation Assertion ShiftReduce

variable {σ γ : Type} {host : Host} {p q : Option Addr} {a parser scanner buffer buf : Addr}
  {b : Block σ} {R : Assertion (Block σ)} {f : Prog (Block σ) γ} {S : γ → Assertion (Block σ)}
  {cells : List (Addr × Block σ)} {u : DbusAccess.DAParser}
  {args vs : List (DbusAccess.YYSTYPE × YYSTYPE)}

/-! Reading. -/

theorem readString_triple {s : CString} {f : CString → Prog (Block σ) γ}
    (ha : (a, .string s) ∈ cells)
    (h : Triple (ParserAt parser buf u cells vs * R) (f s) S) :
    Triple (ParserAt parser buf u cells vs * R) (readString a >>= f) S := by
  refine parser_triple ?_
  rintro c p rfl hactions hbuf hc
  rw [at_eq, Contents.Below, readString, bind_assoc]
  simp only [mul_assoc]
  rw [mul_left_comm]
  refine .look ha (h.mono (le_trans (le_of_eq ?_)
    (mul_le_mul_left (at_le parser hactions hbuf hc) R)) fun _ => le_rfl)
  rw [at_eq, Contents.Below]
  ac_rfl

theorem readParser_at {f : DAParser → Prog (Block σ) γ}
    (h : ∀ d : DAParser, d.actions = u.actions → d.buf = buf →
      Triple (ParserAt parser buf u cells vs * R) (f d) S) :
    Triple (ParserAt parser buf u cells vs * R) (readParser parser >>= f) S := by
  refine parser_triple ?_
  rintro c p rfl hactions hbuf hc
  rw [at_eq, mul_assoc]
  refine readParser_triple ((h p hactions hbuf).mono (le_trans (le_of_eq ?_)
    (mul_le_mul_left (at_le parser hactions hbuf hc) R)) fun _ => le_rfl)
  rw [at_eq, mul_assoc]

theorem daParserFindAction_triple {s : CString} {f : Option DAAction → Prog (Block σ) γ}
    (ha : (a, .string s) ∈ cells)
    (h : Triple (ParserAt parser buf u cells vs * R) (f (DbusAccess.daParserFindAction u s)) S) :
    Triple (ParserAt parser buf u cells vs * R) (daParserFindAction parser a >>= f) S := by
  unfold daParserFindAction
  rw [bind_assoc]
  refine readParser_at fun d hd _ => ?_
  rw [hd]
  unfold DbusAccess.daParserFindAction at h
  cases hu : u.actions with
  | none =>
    rw [hu] at h
    rwa [pure_bind]
  | some actions =>
    rw [hu] at h
    simp only [bind_assoc, pure_bind]
    exact readString_triple ha h

/-- What an action leaves: its result among the values, unless that is the policy. -/
def Acted (parser buf : Addr) (u : DbusAccess.DAParser)
    (vs : List (DbusAccess.YYSTYPE × YYSTYPE)) (r : GrammarRule) :
    Option (DbusAccess.YYSTYPE × DbusAccess.DAParser) → Option YYSTYPE → Assertion (Block σ)
  | none, none => ⨆ cells, ParserAt parser buf u cells vs
  | some (w, u'), some v =>
    ⨆ cells, ParserAt parser buf u' cells (if r.lhs = .policy then vs else (w, v) :: vs)
  | _, _ => fact False

variable {r : GrammarRule} {w : DbusAccess.YYSTYPE} {v : YYSTYPE}

theorem acted_none : Triple (ParserAt parser buf u cells (args ++ vs))
    (pure none) (Acted parser buf u vs r none) :=
  .pure (le_trans (parserAt_drops args) (le_iSup (fun cells => ParserAt parser buf u cells vs) _))

theorem acted_some (hr : r.lhs ≠ .policy) {u' : DbusAccess.DAParser} :
    Triple (ParserAt parser buf u' cells ((w, v) :: vs)) (pure (some v))
      (Acted parser buf u vs r (some (w, u'))) := by
  refine .pure (le_trans ?_ (le_iSup _ cells))
  rw [if_neg hr]

theorem acted_policy (hr : r.lhs = .policy) {u' : DbusAccess.DAParser} :
    Triple (ParserAt parser buf u' cells vs) (pure (some v))
      (Acted parser buf u vs r (some (w, u'))) := by
  refine .pure (le_trans ?_ (le_iSup _ cells))
  rw [if_pos hr]

/-- A result that owns no links. -/
theorem acted_value (hr : r.lhs ≠ .policy) (h : Agree cells (w, v) [])
    (hv : (v.chain [] : Assertion (Block σ)) = 1) :
    Triple (ParserAt parser buf u cells (args ++ vs)) (pure (some v))
      (Acted parser buf u vs r (some (w, u))) :=
  (acted_some hr).mono ((parserAt_drops args).trans (parserAt_push h hv)) fun _ => le_rfl

/-- A new block that is the result. -/
theorem acted_alloc (hr : r.lhs ≠ .policy) (hb : b.allocation = .gMalloc) (k : Addr → YYSTYPE)
    (h : ∀ a, Agree ((a, b) :: cells) (w, k a) []) (hk : ∀ a, ((k a).chain [] : Assertion (Block σ)) = 1) :
    Triple (ParserAt parser buf u cells (args ++ vs))
      (do
        let x ← allocated parser b
        pure (some (k x)))
      (Acted parser buf u vs r (some (w, u))) := by
  refine .pre _ (mul_one _).symm (allocated_triple hb fun a => ?_)
  rw [mul_one]
  exact acted_value hr (h a) (hk a)

/-! What the actions expect of the values. -/

inductive Kind where
  | any
  | number
  | string
  | access
  | entry
  | expr
  | list

def kinds : GrammarRule → List Kind
  | .accept => []
  | .policyVersion => [.any]
  | .policyVersionEntries => [.any, .any, .list]
  | .policyVersionEntriesEnd => [.any, .any, .list, .any]
  | .policyEntries => [.list]
  | .policyEntriesEnd => [.list, .any]
  | .versionNumber | .userNumber | .groupNumber => [.number]
  | .entriesEntry => [.entry]
  | .entriesMore => [.list, .any, .entry]
  | .entryWildcard => [.any, .any, .access]
  | .entryAccess => [.expr, .any, .access]
  | .entryExpr | .exprTerm => [.expr]
  | .accessAllow | .accessDeny | .userWildcard | .groupWildcard | .paramWord | .paramString
  | .paramWildcard => [.any]
  | .userWord | .groupWord => [.string]
  | .exprNot => [.any, .expr]
  | .exprParen => [.any, .expr, .any]
  | .exprOr | .exprAnd => [.expr, .any, .expr]
  | .termUser | .termGroup => [.any, .any, .number, .any]
  | .termUserGroup => [.any, .any, .number, .any, .number, .any]
  | .termId => [.string, .any, .any]
  | .termIdParam => [.string, .any, .string, .any]

def Kind.Value : Kind → DbusAccess.YYSTYPE → Prop
  | .any, _ | .number, .number _ | .string, .string _ | .access, .access _ | .entry, .entry _
  | .expr, .expr _ | .list, .list _ => True
  | _, _ => False

def Kind.Memory : Kind → YYSTYPE → Prop
  | .any, _ | .number, .number _ | .string, .string _ | .access, .access _ | .entry, .entry _
  | .expr, .expr _ | .list, .list _ => True
  | _, _ => False

theorem yyaction_value {values : List DbusAccess.YYSTYPE}
    (h : ¬ List.Forall₂ Kind.Value (kinds r) values) :
    DbusAccess.yyaction host r values u = none := by
  unfold DbusAccess.yyaction
  split <;> first
    | rfl
    | exact absurd (by simp [kinds, Kind.Value]) h

theorem yyaction_memory {values : List YYSTYPE}
    (h : ¬ List.Forall₂ Kind.Memory (kinds r) values) :
    (yyaction host parser r values : Prog (Block σ) _) = pure none := by
  unfold yyaction
  split <;> first
    | rfl
    | exact absurd (by simp [kinds, Kind.Memory]) h

theorem agree_kind {v : DbusAccess.YYSTYPE × YYSTYPE} {links : List (Addr × Option Addr)}
    (h : Agree cells v links) (k : Kind) : k.Value v.1 ↔ k.Memory v.2 := by
  cases h <;> cases k <;> exact Iff.rfl

theorem kinds_iff (h : ∀ v ∈ args, ∃ links, Agree cells v links) (ks : List Kind) :
    List.Forall₂ Kind.Value ks (args.map Prod.fst) ↔
      List.Forall₂ Kind.Memory ks (args.map Prod.snd) := by
  induction args generalizing ks with
  | nil => cases ks <;> simp
  | cons v args ih =>
    obtain ⟨⟨links, hv⟩, h⟩ := List.forall_mem_cons.1 h
    cases ks with
    | nil => simp
    | cons k ks => simp [agree_kind hv k, ih h]

/-- A value of this kind, which agrees with one in memory. -/
def Fits (cells : List (Addr × Block σ)) (k : Kind) (v : DbusAccess.YYSTYPE × YYSTYPE) : Prop :=
  k.Memory v.2 ∧ ∃ links, Agree cells v links

variable {v : DbusAccess.YYSTYPE × YYSTYPE}

theorem fits_of_agree {ks : List Kind} (ha : ∀ v ∈ args, ∃ links, Agree cells v links)
    (h : List.Forall₂ (fun k v => Kind.Memory k v.2) ks args) :
    List.Forall₂ (Fits cells) ks args := by
  induction h with
  | nil => exact .nil
  | cons hk _ ih =>
    obtain ⟨hv, ha⟩ := List.forall_mem_cons.1 ha
    exact .cons ⟨hk, hv⟩ (ih ha)

theorem fits_number (h : Fits cells .number v) : ∃ n, v = (.number n, .number n) := by
  obtain ⟨hk, links, h⟩ := h
  cases h <;> first | exact ⟨_, rfl⟩ | exact hk.elim

theorem fits_string (h : Fits cells .string v) :
    ∃ s a, v = (.string s, .string a) ∧ (a, .string s) ∈ cells := by
  obtain ⟨hk, links, h⟩ := h
  cases h <;> first | exact ⟨_, _, rfl, ‹_›⟩ | exact hk.elim

theorem fits_access (h : Fits cells .access v) : ∃ a, v = (.access a, .access a) := by
  obtain ⟨hk, links, h⟩ := h
  cases h <;> first | exact ⟨_, rfl⟩ | exact hk.elim

theorem fits_entry (h : Fits cells .entry v) : ∃ e a x, v = (.entry e, .entry a) ∧
    (a, .parserEntry ⟨x, e.access⟩) ∈ cells ∧ ExprIn cells x e.expr := by
  obtain ⟨hk, links, h⟩ := h
  cases h <;> first | exact ⟨_, _, _, rfl, ‹_›, ‹_›⟩ | exact hk.elim

theorem fits_expr (h : Fits cells .expr v) :
    ∃ x p, v = (.expr x, .expr p) ∧ ExprIn cells p x := by
  obtain ⟨hk, links, h⟩ := h
  cases h <;> first | exact ⟨_, _, rfl, ‹_›⟩ | exact hk.elim

theorem fits_list (h : Fits cells .list v) : ∃ l p, v = (.list l, .list p) := by
  obtain ⟨hk, links, h⟩ := h
  cases h <;> first | exact ⟨_, _, rfl⟩ | exact hk.elim

/-- A list among the values becomes part of the entries. -/
theorem acted_add {l : List DbusAccess.DAParserEntry} (hr : r.lhs = .policy)
    {rest : List (DbusAccess.YYSTYPE × YYSTYPE)} (h : args.Perm ((.list l, .list p) :: rest))
    {v : YYSTYPE} :
    Triple (ParserAt parser buf u cells (args ++ vs))
      (do
        daParserAddEntries parser p
        pure (some v) : Prog (Block σ) (Option YYSTYPE))
      (Acted parser buf u vs r (some (w, DbusAccess.daParserAddEntries u l))) := by
  refine .mono (P := ParserAt parser buf u cells ((.list l, .list p) :: (rest ++ vs))) ?_
    (parserAt_perm (h.append_right vs)) fun _ => le_rfl
  refine .pre _ (mul_one _).symm (daParserAddEntries_triple ?_)
  rw [mul_one]
  exact (acted_policy hr).mono (parserAt_drops rest) fun _ => le_rfl

theorem acted_expr (hr : r.lhs ≠ .policy) {b : Block σ} {x : DbusAccess.DAParserExpr}
    (hb : b.allocation = .gMalloc) (h : ∀ a, ExprIn ((a, b) :: cells) (some a) x) :
    Triple (ParserAt parser buf u cells (args ++ vs))
      (do
        let x ← allocated parser b
        pure (some (.expr x)))
      (Acted parser buf u vs r (some (.expr x, u))) :=
  acted_alloc hr hb (fun a => .expr a) (fun a => .expr (h a)) fun _ => rfl

theorem acted_entry (hr : r.lhs ≠ .policy) {x : DbusAccess.DAParserExpr} {access : DAAccess}
    (h : ExprIn cells p x) :
    Triple (ParserAt parser buf u cells (args ++ vs))
      (do
        let e ← daParserNewEntry parser p access
        pure (some (.entry e)))
      (Acted parser buf u vs r (some (.entry ⟨x, access⟩, u))) :=
  acted_alloc hr rfl .entry (fun _ => .entry List.mem_cons_self (h.older _)) fun _ => rfl

theorem acted_number (hr : r.lhs ≠ .policy) (n : ℤ) :
    Triple (ParserAt parser buf u cells (args ++ vs)) (pure (some (.number n)))
      (Acted parser buf u vs r (some (.number n, u))) :=
  acted_value hr (.number n) rfl

/-- The term of an action, or none. -/
theorem acted_custom (hr : r.lhs ≠ .policy) {name : CString} {n : Addr}
    (hn : (n, .string name) ∈ cells) {param : Option CString} {q : Option Addr}
    (hq : (param = none ∧ q = none) ∨ ∃ s a, param = some s ∧ q = some a ∧ (a, .string s) ∈ cells) :
    Triple (ParserAt parser buf u cells (args ++ vs))
      (do
        match ← daParserNewExprCustom parser n q with
        | none => pure none
        | some x => pure (some (.expr x)))
      (Acted parser buf u vs r
        (let x := DbusAccess.daParserNewExprCustom u name param
        if x = .null then none else some (.expr x, u))) := by
  unfold daParserNewExprCustom
  rw [bind_assoc]
  refine .pre _ (mul_one _).symm (daParserFindAction_triple hn ?_)
  rw [mul_one]
  unfold DbusAccess.daParserNewExprCustom
  have hsome : q.isSome = param.isSome ∧ q.isNone = param.isNone := by
    rcases hq with ⟨rfl, rfl⟩ | ⟨s, a, rfl, rfl, -⟩ <;> exact ⟨rfl, rfl⟩
  rw [hsome.1, hsome.2]
  cases DbusAccess.daParserFindAction u name with
  | none => exact acted_none
  | some action =>
    dsimp only
    by_cases h1 : param.isSome ∧ action.args = 0
    · rw [if_pos h1, if_pos h1, if_pos rfl]
      exact acted_none
    rw [if_neg h1, if_neg h1]
    by_cases h2 : param.isNone ∧ action.args ≠ 0
    · rw [if_pos h2, if_pos h2, if_pos rfl]
      exact acted_none
    rw [if_neg h2, if_neg h2, if_neg (fun h => by cases h), map_eq_pure_bind, bind_assoc]
    simp only [pure_bind]
    refine acted_expr hr rfl fun a => ?_
    rcases hq with ⟨rfl, rfl⟩ | ⟨s, q, rfl, rfl, hs⟩
    · exact .custom a action.id
    · exact .param a action.id hs

/-- The result is above what the action has used. -/
theorem parserAt_above (w : DbusAccess.YYSTYPE × YYSTYPE)
    (args : List (DbusAccess.YYSTYPE × YYSTYPE)) :
    (ParserAt parser buf u cells (w :: (args ++ vs)) : Assertion (Block σ)) ≤
      ParserAt parser buf u cells (w :: vs) :=
  (parserAt_perm List.perm_middle.symm).trans (parserAt_drops args)

theorem acted_link (hr : r.lhs ≠ .policy) {e : DbusAccess.DAParserEntry} {x : Option Addr}
    (ha : (a, .parserEntry ⟨x, e.access⟩) ∈ cells) (hx : ExprIn cells x e.expr) :
    Triple (ParserAt parser buf u cells (args ++ vs))
      (do
        let l ← daParserNewLink parser (some a)
        pure (some (.list l)))
      (Acted parser buf u vs r (some (.list [e], u))) := by
  refine .pre _ (mul_one _).symm (daParserNewLink_triple ha hx fun l => ?_)
  rw [mul_one]
  exact (acted_some hr).mono (parserAt_above _ args) fun _ => le_rfl

theorem acted_append (hr : r.lhs ≠ .policy) {l : List DbusAccess.DAParserEntry}
    {e : DbusAccess.DAParserEntry} {x : Option Addr}
    {rest : List (DbusAccess.YYSTYPE × YYSTYPE)} (h : args.Perm ((.list l, .list p) :: rest))
    (ha : (a, .parserEntry ⟨x, e.access⟩) ∈ cells) (hx : ExprIn cells x e.expr) :
    Triple (ParserAt parser buf u cells (args ++ vs))
      (do
        let k ← daParserNewLink parser (some a)
        let k ← gSListConcat p k
        pure (some (.list k)))
      (Acted parser buf u vs r (some (.list (l ++ [e]), u))) := by
  refine .pre _ (mul_one _).symm (daParserNewLink_triple ha hx fun k => ?_)
  have hperm : ((.list [e], .list k) :: (args ++ vs)).Perm
      ((.list l, .list p) :: (.list [e], .list k) :: (rest ++ vs)) :=
    ((h.append_right vs).cons _).trans (.swap ..)
  refine .mono (concat_triple fun k => ?_) (mul_le_mul_left (parserAt_perm hperm) _) fun _ => le_rfl
  rw [mul_one]
  exact (acted_some hr).mono (parserAt_above _ rest) fun _ => le_rfl

theorem acted_word (hr : r.lhs ≠ .policy) {s : CString} (ha : (a, .string s) ∈ cells)
    (k : CString → ℤ) :
    Triple (ParserAt parser buf u cells (args ++ vs))
      (do
        let s ← readString a
        pure (some (.number (k s))))
      (Acted parser buf u vs r (some (.number (k s), u))) := by
  refine .pre _ (mul_one _).symm (readString_triple ha ?_)
  rw [mul_one]
  exact acted_number hr (k s)

/-- Every action does to the parser in memory what it does to the values. -/
theorem fitting_triple (h : List.Forall₂ (Fits cells) (kinds r) args) :
    Triple (ParserAt parser buf u cells (args ++ vs))
      (yyaction host parser r (args.map Prod.snd))
      (Acted parser buf u vs r (DbusAccess.yyaction host r (args.map Prod.fst) u)) := by
  cases r <;> simp only [kinds, List.forall₂_cons_left_iff, List.forall₂_nil_left_iff] at h
  case accept => exact acted_none
  case policyVersion =>
    obtain ⟨v1, _, -, rfl, rfl⟩ := h
    exact (acted_policy rfl).mono (parserAt_drops [v1]) fun _ => le_rfl
  case policyVersionEntries =>
    obtain ⟨v1, _, -, ⟨v2, _, -, ⟨v3, _, h3, rfl, rfl⟩, rfl⟩, rfl⟩ := h
    obtain ⟨l, p, rfl⟩ := fits_list h3
    exact acted_add rfl (@List.perm_append_comm _ [v1, v2] [_])
  case policyVersionEntriesEnd =>
    obtain ⟨v1, _, -, ⟨v2, _, -, ⟨v3, _, h3, ⟨v4, _, -, rfl, rfl⟩, rfl⟩, rfl⟩, rfl⟩ := h
    obtain ⟨l, p, rfl⟩ := fits_list h3
    exact acted_add rfl (@List.perm_middle _ _ [v1, v2] [v4])
  case policyEntries =>
    obtain ⟨v1, _, h1, rfl, rfl⟩ := h
    obtain ⟨l, p, rfl⟩ := fits_list h1
    exact acted_add rfl (.refl _)
  case policyEntriesEnd =>
    obtain ⟨v1, _, h1, ⟨v2, _, -, rfl, rfl⟩, rfl⟩ := h
    obtain ⟨l, p, rfl⟩ := fits_list h1
    exact acted_add rfl (.refl _)
  case versionNumber =>
    obtain ⟨v1, _, h1, rfl, rfl⟩ := h
    obtain ⟨n, rfl⟩ := fits_number h1
    simp only [yyaction, DbusAccess.yyaction, List.map_cons, List.map_nil]
    split_ifs
    · exact acted_none
    · exact acted_number (by decide) n
  case entriesEntry =>
    obtain ⟨v1, _, h1, rfl, rfl⟩ := h
    obtain ⟨e, a, x, rfl, ha, hx⟩ := fits_entry h1
    exact acted_link (by decide) ha hx
  case entriesMore =>
    obtain ⟨v1, _, h1, ⟨v2, _, -, ⟨v3, _, h3, rfl, rfl⟩, rfl⟩, rfl⟩ := h
    obtain ⟨l, p, rfl⟩ := fits_list h1
    obtain ⟨e, a, x, rfl, ha, hx⟩ := fits_entry h3
    exact acted_append (by decide) (.refl _) ha hx
  case entryWildcard =>
    obtain ⟨v1, _, -, ⟨v2, _, -, ⟨v3, _, h3, rfl, rfl⟩, rfl⟩, rfl⟩ := h
    obtain ⟨a, rfl⟩ := fits_access h3
    exact acted_entry (by decide) (.null _)
  case entryAccess =>
    obtain ⟨v1, _, h1, ⟨v2, _, -, ⟨v3, _, h3, rfl, rfl⟩, rfl⟩, rfl⟩ := h
    obtain ⟨x, p, rfl, hx⟩ := fits_expr h1
    obtain ⟨a, rfl⟩ := fits_access h3
    exact acted_entry (by decide) hx
  case entryExpr =>
    obtain ⟨v1, _, h1, rfl, rfl⟩ := h
    obtain ⟨x, p, rfl, hx⟩ := fits_expr h1
    exact acted_entry (by decide) hx
  case accessAllow =>
    obtain ⟨v1, _, -, rfl, rfl⟩ := h
    exact acted_value (by decide) (.access .ALLOW) rfl
  case accessDeny =>
    obtain ⟨v1, _, -, rfl, rfl⟩ := h
    exact acted_value (by decide) (.access .DENY) rfl
  case userNumber =>
    obtain ⟨v1, _, h1, rfl, rfl⟩ := h
    obtain ⟨n, rfl⟩ := fits_number h1
    exact acted_number (by decide) (numberId n)
  case userWildcard =>
    obtain ⟨v1, _, -, rfl, rfl⟩ := h
    exact acted_number (by decide) DA_WILDCARD
  case userWord =>
    obtain ⟨v1, _, h1, rfl, rfl⟩ := h
    obtain ⟨s, a, rfl, ha⟩ := fits_string h1
    exact acted_word (by decide) ha fun s => wordId (daSystemUid host s)
  case groupNumber =>
    obtain ⟨v1, _, h1, rfl, rfl⟩ := h
    obtain ⟨n, rfl⟩ := fits_number h1
    exact acted_number (by decide) (numberId n)
  case groupWildcard =>
    obtain ⟨v1, _, -, rfl, rfl⟩ := h
    exact acted_number (by decide) DA_WILDCARD
  case groupWord =>
    obtain ⟨v1, _, h1, rfl, rfl⟩ := h
    obtain ⟨s, a, rfl, ha⟩ := fits_string h1
    exact acted_word (by decide) ha fun s => wordId (daSystemGid host s)
  case exprTerm =>
    obtain ⟨v1, _, h1, rfl, rfl⟩ := h
    obtain ⟨x, p, rfl, hx⟩ := fits_expr h1
    exact acted_value (by decide) (.expr hx) rfl
  case exprNot =>
    obtain ⟨v1, _, -, ⟨v2, _, h2, rfl, rfl⟩, rfl⟩ := h
    obtain ⟨x, p, rfl, hx⟩ := fits_expr h2
    exact acted_expr (by decide) rfl fun a => .not a hx
  case exprParen =>
    obtain ⟨v1, _, -, ⟨v2, _, h2, ⟨v3, _, -, rfl, rfl⟩, rfl⟩, rfl⟩ := h
    obtain ⟨x, p, rfl, hx⟩ := fits_expr h2
    exact acted_value (by decide) (.expr hx) rfl
  case exprOr =>
    obtain ⟨v1, _, h1, ⟨v2, _, -, ⟨v3, _, h3, rfl, rfl⟩, rfl⟩, rfl⟩ := h
    obtain ⟨x, p, rfl, hx⟩ := fits_expr h1
    obtain ⟨y, q, rfl, hy⟩ := fits_expr h3
    exact acted_expr (by decide) rfl fun a => .or a hx hy
  case exprAnd =>
    obtain ⟨v1, _, h1, ⟨v2, _, -, ⟨v3, _, h3, rfl, rfl⟩, rfl⟩, rfl⟩ := h
    obtain ⟨x, p, rfl, hx⟩ := fits_expr h1
    obtain ⟨y, q, rfl, hy⟩ := fits_expr h3
    exact acted_expr (by decide) rfl fun a => .and a hx hy
  case termUser =>
    obtain ⟨v1, _, -, ⟨v2, _, -, ⟨v3, _, h3, ⟨v4, _, -, rfl, rfl⟩, rfl⟩, rfl⟩, rfl⟩ := h
    obtain ⟨n, rfl⟩ := fits_number h3
    exact acted_expr (by decide) rfl fun a => .identity a n DA_WILDCARD
  case termUserGroup =>
    obtain ⟨v1, _, -, ⟨v2, _, -, ⟨v3, _, h3, ⟨v4, _, -, ⟨v5, _, h5, ⟨v6, _, -, rfl, rfl⟩, rfl⟩,
      rfl⟩, rfl⟩, rfl⟩, rfl⟩ := h
    obtain ⟨n, rfl⟩ := fits_number h3
    obtain ⟨m, rfl⟩ := fits_number h5
    exact acted_expr (by decide) rfl fun a => .identity a n m
  case termGroup =>
    obtain ⟨v1, _, -, ⟨v2, _, -, ⟨v3, _, h3, ⟨v4, _, -, rfl, rfl⟩, rfl⟩, rfl⟩, rfl⟩ := h
    obtain ⟨n, rfl⟩ := fits_number h3
    exact acted_expr (by decide) rfl fun a => .identity a DA_WILDCARD n
  case termId =>
    obtain ⟨v1, _, h1, ⟨v2, _, -, ⟨v3, _, -, rfl, rfl⟩, rfl⟩, rfl⟩ := h
    obtain ⟨s, a, rfl, ha⟩ := fits_string h1
    exact acted_custom (by decide) ha (.inl ⟨rfl, rfl⟩)
  case termIdParam =>
    obtain ⟨v1, _, h1, ⟨v2, _, -, ⟨v3, _, h3, ⟨v4, _, -, rfl, rfl⟩, rfl⟩, rfl⟩, rfl⟩ := h
    obtain ⟨s, a, rfl, ha⟩ := fits_string h1
    obtain ⟨s', a', rfl, ha'⟩ := fits_string h3
    exact acted_custom (by decide) ha (.inr ⟨s', a', rfl, rfl, ha'⟩)
  -- the parameters keep their value
  all_goals
    obtain ⟨v1, _, -, rfl, rfl⟩ := h
    exact acted_some (by decide)

theorem yyaction_triple (host : Host) (r : GrammarRule) :
    Triple (ParserAt parser buf u cells (args ++ vs))
      (yyaction host parser r (args.map Prod.snd))
      (Acted parser buf u vs r (DbusAccess.yyaction host r (args.map Prod.fst) u)) := by
  refine .pre _ (mul_one _).symm (.sure (fun _ => parserAt_agree) fun hagree => ?_)
  rw [mul_one]
  have hargs : ∀ v ∈ args, ∃ links, Agree cells v links := fun v hv =>
    hagree v (List.mem_append_left vs hv)
  by_cases h : List.Forall₂ Kind.Memory (kinds r) (args.map Prod.snd)
  · refine fitting_triple ?_
    rw [List.forall₂_map_right_iff] at h
    exact fits_of_agree hargs h
  · rw [yyaction_memory h, yyaction_value (fun hv => h ((kinds_iff hargs _).1 hv))]
    exact acted_none

/-! Tokens. -/

/-- What the parser sees of a token is the same. -/
structure SameToken (host : Host) (t : DbusAccess.Token) (t' : Token) : Prop where
  terminal : t'.terminal = t.terminal
  isEndOfInput : t'.isEndOfInput host = DbusAccess.isEndOfInput host t

theorem newToken_triple (host : Host) (t : DbusAccess.Token) :
    Triple (ParserAt parser buf u cells vs) (newToken parser t) fun t' =>
      ⨆ cells' : List (Addr × Block σ), fact (SameToken host t t') *
        ParserAt parser buf u cells' ((t.yylval, t'.yylval) :: vs) := by
  have hplain : ∀ t', SameToken host t t' → Agree cells (t.yylval, t'.yylval) [] →
      (t'.yylval.chain [] : Assertion (Block σ)) = 1 →
      Triple (ParserAt parser buf u cells vs) (pure t') fun t' =>
        ⨆ cells' : List (Addr × Block σ), fact (SameToken host t t') *
          ParserAt parser buf u cells' ((t.yylval, t'.yylval) :: vs) := by
    intro t' ht hv hc
    refine .pure (le_trans (parserAt_push hv hc) (le_trans (le_of_eq ?_) (le_iSup _ cells)))
    rw [fact_true ht, one_mul]
  have hstring : ∀ (k : Addr → Token) (s : CString), (∀ a, SameToken host t (k a)) →
      (∀ a, (k a).yylval = .string a) → t.yylval = .string s →
      Triple (ParserAt parser buf u cells vs) (k <$> daParserNewString parser s) fun t' =>
        ⨆ cells' : List (Addr × Block σ), fact (SameToken host t t') *
          ParserAt parser buf u cells' ((t.yylval, t'.yylval) :: vs) := by
    intro k s ht hk hs
    rw [map_eq_pure_bind]
    refine .pre _ (mul_one _).symm (allocated_triple rfl fun a => .pure ?_)
    refine le_trans ?_ (le_iSup _ ((a, .string s) :: cells))
    rw [fact_true (ht a), one_mul, mul_one, hk, hs]
    exact parserAt_push (.string List.mem_cons_self) rfl
  cases t with
  | NUMBER n => exact hplain _ ⟨rfl, rfl⟩ (.number n) rfl
  | ID s => exact hstring .ID s (fun _ => ⟨rfl, rfl⟩) (fun _ => rfl) rfl
  | WORD s => exact hstring .WORD s (fun _ => ⟨rfl, rfl⟩) (fun _ => rfl) rfl
  | WILDCARD s => exact hstring .WILDCARD s (fun _ => ⟨rfl, rfl⟩) (fun _ => rfl) rfl
  | STRING s => exact hstring .STRING s (fun _ => ⟨rfl, rfl⟩) (fun _ => rfl) rfl
  | _ => exact hplain _ ⟨rfl, rfl⟩ .undefined rfl

/-! The scanning loop. -/

/-- What the loop leaves: the first of these tokens, if there is one, with its value, and
the others still to come. -/
def Lexed (host : Host) (parser scanner buffer buf : Addr) (u : DbusAccess.DAParser)
    (cells : List (Addr × Block σ)) (vs : List (DbusAccess.YYSTYPE × YYSTYPE)) :
    List DbusAccess.Token → Option Token → Assertion (Block σ)
  | [], none => ParserAt parser buf u cells vs * ⨆ s, ⨆ rest, ScannerAt scanner buffer buf s rest
  | t :: ts, some t' => ⨆ cells, fact (SameToken host t t') *
    ParserAt parser buf u cells ((t.yylval, t'.yylval) :: vs) * ⨆ s, ⨆ rest,
      fact (ts = (scan scanRules s rest).1) * ScannerAt scanner buffer buf s rest
  | _, _ => fact False

theorem lexLoop_triple (host : Host) (s : ScanState) (rest : CString) (n : ℕ)
    (hn : rest.length < n) :
    Triple (ParserAt parser buf u cells vs * ScannerAt scanner buffer buf s rest)
      (lexLoop parser scanner n)
      (Lexed host parser scanner buffer buf u cells vs (scan scanRules s rest).1) := by
  induction n generalizing s rest with
  | zero => omega
  | succ n ih =>
    rw [lexLoop]
    refine .pre (single scanner (.scanner ⟨s.start, some buffer⟩) *
      (single buffer (.scannerBuffer rest) * (single buf (.gString s.buf) *
        ParserAt parser buf u cells vs))) (by rw [ScannerAt]; ac_rfl) ?_
    refine .read ?_
    simp only [mul_left_comm (single scanner _)]
    cases rest with
    | nil =>
      refine .read (.pure ?_)
      rw [scan_nil, Lexed]
      calc _ = ParserAt parser buf u cells vs * ScannerAt scanner buffer buf s [] := by
            rw [ScannerAt]
            ac_rfl
        _ ≤ _ := mul_le_mul_right (le_iSup₂ (f := fun s rest =>
            ScannerAt scanner buffer buf s rest) s []) _
    | cons c x =>
      obtain ⟨⟨k, r⟩, hsel⟩ := Option.isSome_iff_exists.1 (scanRules_isSome s c x)
      refine .read ?_
      refine .pre (ParserAt parser buf u cells vs * (single buf (.gString s.buf) *
        (single scanner (.scanner ⟨s.start, some buffer⟩) *
          single buffer (.scannerBuffer (c :: x))))) (by ac_rfl) ?_
      refine readParser_at fun d _ hd => ?_
      rw [hd, mul_left_comm]
      refine .read ?_
      have hsel' : select (scanRules ⟨s.start, s.buf⟩) (c :: x) = some (k, r) := hsel
      simp only [hsel']
      obtain ⟨hk, -⟩ := select_spec hsel
      have hlen : ((c :: x).drop k).length < n := by
        rw [List.length_drop, List.length_cons]
        rw [List.length_cons] at hn
        omega
      rw [scan_step hsel]
      set out := r.act s ((c :: x).take k) with hout
      refine .pre (single scanner (.scanner ⟨s.start, some buffer⟩) *
        (single buffer (.scannerBuffer (c :: x)) * (single buf (.gString s.buf) *
          ParserAt parser buf u cells vs))) (by ac_rfl) ?_
      refine .write ?_
      rw [mul_left_comm]
      refine .write ?_
      refine .pre (single buf (.gString s.buf) *
        (ParserAt parser buf u cells vs * (single scanner (.scanner ⟨out.1.start, some buffer⟩) *
          single buffer (.scannerBuffer ((c :: x).drop k))))) (by ac_rfl) ?_
      refine .write ?_
      refine .pre (ParserAt parser buf u cells vs *
        ScannerAt scanner buffer buf out.1 ((c :: x).drop k)) (by rw [ScannerAt]; ac_rfl) ?_
      cases ht : out.2 with
      | none =>
        simp only [Option.toList_none, List.nil_append]
        exact ih out.1 _ hlen
      | some t =>
        simp only [Option.toList_some, List.singleton_append]
        rw [map_eq_pure_bind]
        refine (newToken_triple host t).call fun t' => .pure ?_
        rw [iSup_mul]
        refine iSup_mono fun cells' => mul_le_mul_right ?_ _
        refine le_trans (le_of_eq ?_) (le_iSup₂ (f := fun s rest =>
          fact ((scan scanRules out.1 ((c :: x).drop k)).1 = (scan scanRules s rest).1) *
            ScannerAt scanner buffer buf s rest) out.1 ((c :: x).drop k))
        rw [fact_true rfl, one_mul]

/-- The parser and the scanner between two steps, with the tokens to come. -/
def Parsing (host : Host) (parser scanner buffer buf : Addr)
    (vs : List (DbusAccess.YYSTYPE × YYSTYPE)) (input : Option (List DbusAccess.Token))
    (u : DbusAccess.DAParser) : Assertion (Block σ) :=
  (⨆ cells, ParserAt parser buf u cells vs) * ⨆ s, ⨆ rest,
    fact (∀ ts, input = some ts →
      ts = (scan scanRules s rest).1.takeWhile (!isEndOfInput host ·)) *
      ScannerAt scanner buffer buf s rest

theorem parsing_triple {input : Option (List DbusAccess.Token)}
    (h : ∀ cells s rest, (∀ ts, input = some ts →
        ts = (scan scanRules s rest).1.takeWhile (!isEndOfInput host ·)) →
      Triple (ParserAt parser buf u cells vs * (ScannerAt scanner buffer buf s rest * R)) f S) :
    Triple (Parsing host parser scanner buffer buf vs input u * R) f S := by
  rw [Parsing, iSup_mul, iSup_mul]
  refine .exist fun cells => ?_
  rw [mul_assoc, mul_left_comm, iSup_mul]
  refine .exist fun s => ?_
  rw [iSup_mul]
  refine .exist fun rest => ?_
  rw [mul_assoc]
  refine .fact fun hts => ?_
  rw [mul_left_comm]
  exact h cells s rest hts

theorem le_parsing {input : Option (List DbusAccess.Token)} {s : ScanState} {rest : CString}
    (h : ∀ ts, input = some ts →
      ts = (scan scanRules s rest).1.takeWhile (!isEndOfInput host ·)) :
    ParserAt parser buf u cells vs * ScannerAt scanner buffer buf s rest ≤
      Parsing host parser scanner buffer buf vs input u := by
  refine mul_le_mul' (le_iSup (fun cells => ParserAt parser buf u cells vs) cells) ?_
  refine le_trans (le_of_eq ?_) (le_iSup₂ (f := fun s rest =>
    fact (∀ ts, input = some ts →
      ts = (scan scanRules s rest).1.takeWhile (!isEndOfInput host ·)) *
        ScannerAt scanner buffer buf s rest) s rest)
  rw [fact_true h, one_mul]

/-- What asking for a token leaves. -/
def Read (host : Host) (parser scanner buffer buf : Addr) (u : DbusAccess.DAParser)
    (vs : List (DbusAccess.YYSTYPE × YYSTYPE)) :
    List DbusAccess.Token → Option Token → Assertion (Block σ)
  | [], none => Parsing host parser scanner buffer buf vs none u
  | t :: ts, some t' => fact (SameToken host t t') *
    Parsing host parser scanner buffer buf ((t.yylval, t'.yylval) :: vs) (some ts) u
  | _, _ => fact False

theorem remaining_triple {s : ScanState} {rest : CString} {f : ℕ → Prog (Block σ) γ}
    (h : Triple (ScannerAt scanner buffer buf s rest * R) (f rest.length) S) :
    Triple (ScannerAt scanner buffer buf s rest * R) (remaining scanner >>= f) S := by
  rw [ScannerAt, mul_assoc, mul_assoc] at h ⊢
  unfold remaining
  rw [bind_assoc]
  refine .read ?_
  simp only [bind_assoc]
  rw [mul_left_comm] at h ⊢
  refine .read ?_
  rwa [pure_bind]

theorem daParserLex_triple (host : Host) {input : List DbusAccess.Token} :
    Triple (Parsing host parser scanner buffer buf vs (some input) u : Assertion (Block σ))
      (daParserLex host parser scanner) (Read host parser scanner buffer buf u vs input) := by
  refine .pre _ (mul_one _).symm (parsing_triple fun cells s rest hts => ?_)
  rw [mul_one, daParserLex, mul_comm, hts input rfl]
  refine remaining_triple ?_
  rw [mul_comm]
  refine (lexLoop_triple host s rest _ (Nat.lt_succ_self _)).bind fun o => ?_
  generalize (scan scanRules s rest).1 = ts
  cases ts with
  | nil =>
    cases o with
    | some t => exact .pre _ (mul_one _).symm (.fact False.elim)
    | none =>
      refine .pure ?_
      rw [Lexed, mul_iSup]
      refine iSup_le fun s => ?_
      rw [mul_iSup]
      exact iSup_le fun rest => le_parsing fun ts hts => by cases hts
  | cons t ts =>
    cases o with
    | none => exact .pre _ (mul_one _).symm (.fact False.elim)
    | some t' =>
      refine .exist fun cells' => ?_
      rw [mul_assoc]
      refine .fact fun ht => ?_
      rw [mul_iSup]
      refine .exist fun s => ?_
      rw [mul_iSup]
      refine .exist fun rest => ?_
      rw [mul_left_comm]
      refine .fact fun hts => ?_
      rw [List.takeWhile_cons]
      simp only [ht.isEndOfInput]
      cases hend : DbusAccess.isEndOfInput host t with
      | true =>
        refine .pure ((mul_le_mul_left parserAt_drop _).trans ?_)
        exact le_parsing fun ts hts => by cases hts
      | false =>
        refine .pure ?_
        rw [Bool.not_false, if_pos rfl, Read, fact_true ht, one_mul]
        exact le_parsing fun ts' h => by rw [← Option.some_inj.1 h, hts]

/-! The automaton does not go on behind a policy. -/

theorem next_policy {i : Item GrammarRule} (h : i.next policyGrammar = some (.n .policy)) :
    i = ⟨.accept, 0⟩ := by
  obtain ⟨r, dot⟩ := i
  obtain rfl : r = .accept := by
    have hmem : .n .policy ∈ GrammarRule.rhs r := List.mem_of_getElem? h
    cases r <;> simp [GrammarRule.rhs] at hmem
    rfl
  match dot, h with
  | 0, _ => rfl
  | 1, h => cases h

theorem policy_halting (J : List (Item GrammarRule)) :
    Halting policyGrammar (goto policyGrammar J (.n .policy)) := by
  set K := J.filterMap fun i =>
    if i.next policyGrammar = some (.n .policy) then some (⟨i.rule, i.dot + 1⟩ : Item _) else none
    with hK
  have hall : ∀ i ∈ K, i = ⟨.accept, 1⟩ := by
    intro i hi
    obtain ⟨j, -, hj⟩ := List.mem_filterMap.1 hi
    split_ifs at hj with hn
    rw [next_policy hn] at hj
    exact (Option.some_inj.1 hj).symm
  have hgoto : goto policyGrammar J (.n .policy) = K := by
    refine closure_of_terminals _ (List.filterMap_eq_nil_iff.2 fun i hi => ?_)
    rw [hall i hi]
    rfl
  have hcomplete : complete policyGrammar K = none := by
    rw [complete, List.find?_eq_none.2 fun i hi => by rw [hall i hi]; decide]
    rfl
  intro a
  rw [hgoto, action, hcomplete]
  dsimp only
  split_ifs with hs
  · refine .inr ⟨rfl, ?_⟩
    obtain ⟨i, hi, ha⟩ := List.any_eq_true.1 hs
    rw [hall i hi, decide_eq_true_iff] at ha
    exact (GrammarSymbol.t.inj (Option.some_inj.1 ha)).symm
  · exact .inl rfl

/-! The generated parser. -/

theorem parsing_forget {input : Option (List DbusAccess.Token)} :
    (Parsing host parser scanner buffer buf vs input u : Assertion (Block σ)) ≤
      Parsing host parser scanner buffer buf [] input u := by
  refine mul_le_mul_left (iSup_mono fun cells => ?_) _
  have hdrop : (ParserAt parser buf u cells (vs ++ []) : Assertion (Block σ)) ≤
      ParserAt parser buf u cells [] := parserAt_drops vs
  rwa [List.append_nil] at hdrop

theorem acting_triple (host : Host) (r : GrammarRule) (l : List (DbusAccess.YYSTYPE × YYSTYPE)) :
    Triple (⨆ cells : List (Addr × Block σ), ParserAt parser buf u cells (l ++ args ++ vs))
      (yyaction host parser r (args.reverse.map Prod.snd))
      (Acted parser buf u (l ++ vs) r
        (DbusAccess.yyaction host r (args.reverse.map Prod.fst) u)) := by
  refine .exist fun cells => ?_
  have hperm : (l ++ args ++ vs).Perm (args.reverse ++ (l ++ vs)) := by
    rw [← List.append_assoc]
    exact (List.perm_append_comm.trans
      ((List.reverse_perm args).symm.append_right l)).append_right vs
  exact (yyaction_triple host r).mono (parserAt_perm hperm) fun _ => le_rfl

/-- Everything beside the parser stays as it is. -/
theorem policy_simulates (host : Host) (parser scanner buffer buf : Addr)
    (F : Assertion (Block σ)) :
    Simulates policyGrammar (policyEffects host parser scanner) (policySemantics host)
      fun vs input u h =>
        (Parsing host parser scanner buffer buf vs input u * F : Assertion (Block σ)) h.blocks where
  lex_some := by
    intro vs k input u h hI
    obtain ⟨o, h', he, hI⟩ := daParserLex_triple host h F hI
    cases o with
    | none => exact (fact_mul.1 hI).1.elim
    | some k' =>
      rw [Read, mul_assoc] at hI
      obtain ⟨hk, hI⟩ := fact_mul.1 hI
      exact ⟨k', h', he, hk.terminal, DbusAccess.Token.terminal_ne_eoi k, hI⟩
  lex_none := by
    intro vs u h hI
    obtain ⟨o, h', he, hI⟩ := daParserLex_triple host h F hI
    cases o with
    | none => exact ⟨h', he, hI⟩
    | some k' => exact (fact_mul.1 hI).1.elim
  forget := fun {vs input u h} hI => mul_le_mul_left parsing_forget F _ hI
  act := by
    intro r l args vs input u h hI
    obtain ⟨o, h', he, hI⟩ := ((acting_triple host r l).frame _) h F hI
    cases hv : (policySemantics host).act r (args.reverse.map Prod.fst) u with
    | none =>
      rw [show DbusAccess.yyaction host r _ u = none from hv] at hI
      cases o with
      | none => exact ⟨h', he, mul_le_mul_left parsing_forget F _ hI⟩
      | some v =>
        rw [mul_assoc] at hI
        exact (fact_mul.1 hI).1.elim
    | some wu =>
      obtain ⟨w, u'⟩ := wu
      rw [show DbusAccess.yyaction host r _ u = some (w, u') from hv] at hI
      cases o with
      | none =>
        rw [mul_assoc] at hI
        exact (fact_mul.1 hI).1.elim
      | some v =>
        refine ⟨v, h', he, ?_⟩
        by_cases hr : r.lhs = .policy
        · simp only [Acted, if_pos hr] at hI
          refine .inr ⟨mul_le_mul_left parsing_forget F _ hI, fun J => ?_⟩
          change Halting policyGrammar (goto policyGrammar J (.n r.lhs))
          rw [hr]
          exact policy_halting J
        · simp only [Acted, if_neg hr] at hI
          refine .inl (mul_le_mul_left (mul_le_mul_left ?_ _) F _ hI)
          exact iSup_mono fun cells => parserAt_perm List.perm_middle.symm

end DbusAccess.InMemory
