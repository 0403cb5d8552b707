import DbusAccess.Proofs.Negation
import DbusAccess.Proofs.QuotedWords

/-! Terms for users and groups at any place of a policy text, and what else can be
written there. -/

namespace DbusAccess

open MaximalMunch

variable {host : Host} {actions : Option (List DAAction)} {pre post rest x y u v w : CString}
  {ts us vs seg : List Token} {t t' : Token} {s : TermSyntax} {z z' : ExprSyntax}

/-! Tokens of the terms. -/

theorem scan_user : scan scanRules .init ([] ++ str "user") = ([.USER], ⟨.BEFORE_ARGS, []⟩) := by
  decide +kernel

theorem scan_group :
    scan scanRules .init ([] ++ str "group") = ([.GROUP], ⟨.BEFORE_ARGS, []⟩) := by
  decide +kernel

theorem scan_colon (y : CString) : scan scanRules ⟨.ARGS, []⟩ (ch ':' :: y) =
    (tColon :: (scan scanRules ⟨.ARGS, []⟩ y).1, (scan scanRules ⟨.ARGS, []⟩ y).2) := by
  rw [scan_step (select_colon [] y)]
  rfl

theorem scanAll_user (h : TermText (str "user") u x) (hu : ReadsArg u t) (post : CString) :
    scanAll (x ++ post) = [.USER, tLparen, t, tRparen] ++ scanAll post :=
  h.scan hu scan_user post

theorem scanAll_group (h : TermText (str "group") u x) (hu : ReadsArg u t) (post : CString) :
    scanAll (x ++ post) = [.GROUP, tLparen, t, tRparen] ++ scanAll post :=
  h.scan hu scan_group post

theorem scanAll_pair (h : PairText u v x) (hu : ReadsArg u t) (hv : ReadsArg v t')
    (post : CString) :
    scanAll (x ++ post) = [.USER, tLparen, t, tColon, t', tRparen] ++ scanAll post := by
  cases h with
  | @mk bl1 bl2 bl3 bl4 bl5 h1 h2 h3 h4 h5 =>
    have htext : str "user" ++ bl1 ++ str "(" ++ bl2 ++ u ++ bl3 ++ str ":" ++ bl4 ++ v ++ bl5 ++
        str ")" ++ post = ([] ++ str "user") ++ (bl1 ++ ch '(' :: (bl2 ++ (u ++ (bl3 ++
          ch ':' :: (bl4 ++ (v ++ (bl5 ++ ch ')' :: post))))))) := by
      simp [str]
    rw [scanAll, htext, scan_open scan_user h1 h2, scan_arg hu h3 (by decide), scan_colon,
      scan_blanks args_unquoted h4, scan_arg hv h5 (by decide), scan_close]
    rfl

/-! The tokens around a place. -/

/-- No match runs into a parenthesis. -/
theorem scanRules_stopsAt (s : ScanState) : ∀ r ∈ scanRules s, r.pat.StopsAt (ch '(') := by
  intro r hr
  obtain ⟨r', hr', rfl⟩ := List.mem_map.1 hr
  rcases allRules_stopsAt (c := ch '(') (by decide) r' (List.mem_filter.1 hr').1 with h | ⟨h, -⟩
  · exact h
  · rw [h]
    exact rfl

theorem ComesTo.paren (h : ComesTo pre rest ts) (y : CString) : ComesTo pre (ch '(' :: y) ts :=
  h.replace rfl scanRules_stopsAt y

theorem ComesTo.scanAll_eq (h : ComesTo pre rest ts) :
    scanAll (pre ++ rest) = ts ++ scanAll rest := by
  unfold scanAll
  rw [h.scan_eq]

theorem ComesTo.tokens_eq (h : ComesTo pre rest ts) (hts : ∀ t ∈ ts, isEndOfInput host t = false)
    (hrest : scanAll rest = seg ++ us) (hseg : ∀ t ∈ seg, isEndOfInput host t = false) :
    tokens host (pre ++ rest) = ts ++ seg ++ us.takeWhile (!isEndOfInput host ·) := by
  rw [tokens, h.scanAll_eq, hrest, ← List.append_assoc, List.takeWhile_append_of_pos]
  intro t ht
  rw [List.forall_mem_append.2 ⟨hts, hseg⟩ t ht]
  rfl

/-- Nothing of what is left is seen. -/
theorem ComesTo.tokens_of_end (h : ComesTo pre rest ts)
    (hts : ¬ ∀ t ∈ ts, isEndOfInput host t = false) :
    tokens host (pre ++ rest) = ts.takeWhile (!isEndOfInput host ·) := by
  rw [tokens, h.scanAll_eq, List.takeWhile_append, if_neg]
  intro hlen
  refine hts fun t ht => ?_
  have hall := List.takeWhile_eq_self_iff.1 ((List.takeWhile_prefix _).eq_of_length hlen) t ht
  simpa using hall

/-- An expression in parentheses. -/
theorem scanAll_paren (hy : DerivesExpr .E (scanAll y) z) (post : CString) :
    scanAll (ch '(' :: y ++ ch ')' :: post) =
      (tLparen :: scanAll y ++ [tRparen]) ++ scanAll post := by
  rw [List.cons_append, scanAll_punctuation (by decide), scanAll, hy.closed.scan_append (by decide),
    scan_punctuation (by decide)]
  simp [scanAll]

/-! Policies with the place filled in. -/

theorem ExprContext.known_plug {c : ExprContext} (h : z.Known actions → z'.Known actions) :
    (c.plug z).Known actions → (c.plug z').Known actions := by
  induction c with
  | hole => exact h
  | not c ih => exact ih
  | orLeft c y ih => exact And.imp_left ih
  | orRight x c ih => exact And.imp_right ih
  | andLeft c y ih => exact And.imp_left ih
  | andRight x c ih => exact And.imp_right ih

theorem PolicyContext.valid_plug {c : PolicyContext} (hv : (c.plug z).Valid actions)
    (h : z.Known actions → z'.Known actions) : (c.plug z').Valid actions := by
  refine ⟨hv.version, ?_⟩
  have hknown := hv.known
  simp only [PolicyContext.plug, List.forall_mem_append, List.forall_mem_cons] at hknown ⊢
  exact ⟨hknown.1, ExprContext.known_plug h hknown.2.1, hknown.2.2⟩

/-- Another operand in the place of one that is written there. -/
theorem DerivesPolicy.exchange {B : List Token} {pol : PolicySyntax}
    (h : DerivesPolicy (ts ++ seg ++ B) pol) (hseg : DerivesExpr .P seg z)
    (hhead : seg = t :: us) (ht : OperandHead ts t) : ∃ c : PolicyContext, pol = c.plug z ∧
      ∀ vs y, DerivesExpr .P vs y → DerivesPolicy (ts ++ vs ++ B) (c.plug y) := by
  have hB : ts ++ seg ++ B = ts ++ t :: (us ++ B) := by
    rw [hhead, List.append_assoc, List.cons_append]
  obtain ⟨c, seg', B', z', hB, hseg', rfl, hC⟩ := h.operand ht hB
  -- the operand is the one that is written there
  rw [← List.cons_append, ← hhead] at hB
  obtain ⟨-, rfl, rfl⟩ := hseg'.unique hseg hB.symm nofun
  exact ⟨c, rfl, hC⟩

/-- A text is an expression at a place of a policy: the policy is a context around it, and
around anything else that is written in its place between parentheses. -/
def HasExpr (host : Host) (actions : Option (List DAAction)) (pre x post : CString)
    (z : ExprSyntax) : Prop :=
  ∃ c : PolicyContext, daParserCompile host (some (pre ++ (x ++ post))) actions =
      some ⟨actions, (c.plug z).result host actions⟩ ∧
    ∀ y z', DerivesExpr .E (scanAll y) z' → z'.Known actions →
      daParserCompile host (some (pre ++ (ch '(' :: y ++ ch ')' :: post))) actions =
        some ⟨actions, (c.plug z').result host actions⟩

theorem hasExpr_of_operand (hts : ComesTo pre (x ++ post) ts)
    (hend : ∀ t ∈ ts, isEndOfInput host t = false) (hx : scanAll (x ++ post) = seg ++ scanAll post)
    (hseg : DerivesExpr .P seg z) (hhead : seg = t :: us) (ht : OperandHead ts t)
    (hc : (daParserCompile host (some (pre ++ (x ++ post))) actions).isSome) :
    HasExpr host actions pre x post z := by
  obtain ⟨parser, hp⟩ := Option.isSome_iff_exists.1 hc
  obtain ⟨pol, hd, hv, rfl⟩ := daParserCompile_eq_some.1 hp
  rw [hts.tokens_eq hend hx (hseg.no_end host)] at hd
  obtain ⟨c, rfl, hC⟩ := hd.exchange hseg hhead ht
  refine ⟨c, hp, fun y z' hy hz' => ?_⟩
  have hparen : DerivesExpr .P (tLparen :: scanAll y ++ [tRparen]) z' := .paren hy
  have hnew := hC _ _ hparen
  rw [← (hts.paren _).tokens_eq hend (scanAll_paren hy post) (hparen.no_end host)] at hnew
  exact daParserCompile_of_derives hnew (PolicyContext.valid_plug hv fun _ => hz')

/-- Wherever a text of this form is seen in a policy that is accepted, it is this
expression. -/
def InPolicies (host : Host) (form : CString → Prop) (z : ExprSyntax) : Prop :=
  ∀ actions pre x post, form x → SeenFrom host pre (x ++ post) →
    (daParserCompile host (some (pre ++ (x ++ post))) actions).isSome →
    HasExpr host actions pre x post z

theorem inPolicies_of_term {form : CString → Prop} (hs : DerivesTerm seg s)
    (hscan : ∀ x post, form x → scanAll (x ++ post) = seg ++ scanAll post) :
    InPolicies host form (.term s) := by
  intro actions pre x post hx hseen hc
  obtain ⟨ts, hts, hend⟩ := hseen
  obtain ⟨head, _, us, hhead, ht, -⟩ := hs.shape
  exact hasExpr_of_operand hts hend (hscan x post hx) (.term hs) hhead (Or.inl ht) hc

end DbusAccess
