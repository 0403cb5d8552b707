import DbusAccess.Proofs.NumericIds

/-! The expression that is NULL is for everybody. It is that of an entry with `*`, and of
no operand. -/

namespace DbusAccess

variable {host : Host} {actions : Option (List DAAction)} {us ve part : List Token}
  {σ : Type} {g : GPattern σ}

/-! Trees of the syntax. -/

theorem TermSyntax.tree_ne_null {t : TermSyntax} (h : t.Known actions) :
    t.tree host actions ≠ .null := by
  cases t with
  | action name param =>
    obtain ⟨a, ha, -⟩ := h
    simp [TermSyntax.tree, ha]
  | _ => exact DAParserExpr.noConfusion

theorem ExprSyntax.tree_ne_null {x : ExprSyntax} (h : x.Known actions) :
    x.tree host actions ≠ .null := by
  cases x with
  | term t => exact TermSyntax.tree_ne_null h
  | _ => exact DAParserExpr.noConfusion

theorem daPolicyExprNew_eq_null {x : DAParserExpr} :
    daPolicyExprNew g x = .null ↔ x = .null := by
  cases x <;> simp [daPolicyExprNew, daPolicyExprCustomNew]

theorem new_tree_ne_null (g : GPattern σ) (host : Host) {x : ExprSyntax} (h : x.Known actions) :
    daPolicyExprNew g (x.tree host actions) ≠ .null :=
  fun hnull => ExprSyntax.tree_ne_null h (daPolicyExprNew_eq_null.1 hnull)

/-- Induction on the expression. -/
theorem noNullOperand_tree {x : ExprSyntax} (h : x.Known actions) :
    (daPolicyExprNew g (x.tree host actions)).NoNullOperand := by
  induction x with
  | term t =>
    cases t with
    | action name param =>
      obtain ⟨a, ha, -⟩ := h
      simp [ExprSyntax.tree, TermSyntax.tree, ha, daPolicyExprNew, daPolicyExprCustomNew,
        DAPolicyExpr.NoNullOperand]
    | _ => trivial
  | not x ih => exact ⟨new_tree_ne_null g host h, ih h⟩
  | or x y ihx ihy =>
    exact ⟨new_tree_ne_null g host h.1, new_tree_ne_null g host h.2, ihx h.1, ihy h.2⟩
  | and x y ihx ihy =>
    exact ⟨new_tree_ne_null g host h.1, new_tree_ne_null g host h.2, ihx h.1, ihy h.2⟩

/-! The parts of a policy are its entries. -/

theorem splitOn_segment (hus : tSemicolon ∉ us) (hve : EntryEnds ve) :
    (us ++ ve).splitOn tSemicolon = us :: (ve.splitOn tSemicolon).tail := by
  rcases hve.eq with rfl | ⟨ts, rfl⟩
  · rw [List.append_nil, List.splitOn_eq_singleton hus]
    rfl
  · rw [List.splitOn_append_cons_self_of_not_mem hus,
      show (tSemicolon :: ts).splitOn tSemicolon = [] :: ts.splitOn tSemicolon from
        List.splitOn_append_cons_self_of_not_mem List.not_mem_nil ts]
    rfl

/-- The parts behind the first semicolon. -/
def laterParts (us : List Token) : List (List Token) :=
  (us.splitOn tSemicolon).tail.filter isEntryPart

theorem isEntryPart_of_look (h : look us ∈ entryFirst) : isEntryPart us = true := by
  cases us with
  | nil => exact absurd h (by decide)
  | cons t us =>
    cases t with
    | NUMBER n => exact absurd (show Terminal.NUMBER ∈ entryFirst from h) (by decide)
    | _ => rfl

theorem DerivesEntry.parts {e : EntrySyntax} (h : DerivesEntry us e) (hve : EntryEnds ve) :
    entryParts (us ++ ve) = us :: laterParts ve := by
  have hl := h.look_mem []
  rw [List.append_nil] at hl
  rw [entryParts, splitOn_segment h.no_semicolon hve,
    List.filter_cons_of_pos (isEntryPart_of_look hl), laterParts]

theorem laterParts_cons (us : List Token) : laterParts (tSemicolon :: us) = entryParts us := by
  rw [laterParts, show (tSemicolon :: us).splitOn tSemicolon = [] :: us.splitOn tSemicolon from
    List.splitOn_append_cons_self_of_not_mem List.not_mem_nil us]
  rfl

/-- Induction on the list. -/
theorem DerivesMore.parts {es : List EntrySyntax} (h : DerivesMore us es) :
    List.Forall₂ DerivesEntry (laterParts us) es := by
  induction h with
  | none => exact .nil
  | final => exact .nil
  | entry he hm ih =>
    rw [List.cons_append, laterParts_cons, he.parts hm.entryEnds]
    exact .cons he ih

theorem DerivesPolicy.parts {pol : PolicySyntax} (h : DerivesPolicy us pol) :
    List.Forall₂ DerivesEntry (entryParts us) pol.entries := by
  cases h with
  | version n => exact .nil
  | @versionEntries n ts e us es he hm =>
    have hd : DerivesMore (tSemicolon :: ts ++ us) (e :: es) := .entry he hm
    have hparts : entryParts (.NUMBER n :: tSemicolon :: ts ++ us) =
        laterParts (tSemicolon :: ts ++ us) := by
      have hn : tSemicolon ∉ [Token.NUMBER n] := by simp
      rw [entryParts, show Token.NUMBER n :: tSemicolon :: ts ++ us =
        [.NUMBER n] ++ (tSemicolon :: ts ++ us) from rfl, splitOn_segment hn hd.entryEnds]
      rfl
    rw [hparts]
    exact hd.parts
  | entries he hm =>
    rw [he.parts hm.entryEnds]
    exact .cons he hm.parts

/-! Entries of a compiled policy. -/

/-- The entry is written `* = access`. -/
def WrittenForAll (part : List Token) (access : DAAccess) : Prop :=
  ∃ ts, part = tStar :: tEqual :: ts ∧ DerivesAccess ts access

theorem DerivesEntry.null_iff (g : GPattern σ) (host : Host) {e : EntrySyntax}
    (h : DerivesEntry part e) (hk : e.Known actions) :
    daPolicyExprNew g (e.entry host actions).expr = .null ↔
      WrittenForAll part (e.entry host actions).access := by
  cases h with
  | wildcard ha => exact iff_of_true rfl ⟨_, rfl, ha⟩
  | expr hx =>
    refine iff_of_false (new_tree_ne_null g host hk) fun hw => ?_
    obtain ⟨ts, hts, -⟩ := hw
    exact hx.not_star ((List.append_nil _).trans hts)
  | access hx ha =>
    refine iff_of_false (new_tree_ne_null g host hk) fun hw => ?_
    obtain ⟨ts, hts, -⟩ := hw
    exact hx.not_star hts

theorem noNullOperand_entry (g : GPattern σ) (host : Host) {e : EntrySyntax}
    (hk : e.Known actions) :
    (daPolicyExprNew g (e.entry host actions).expr).NoNullOperand := by
  cases e with
  | wildcard a => trivial
  | expr x a => exact noNullOperand_tree hk

/-- In a compiled policy the expressions that are NULL are those of the entries for
everybody, and no operand is NULL. -/
theorem null_iff_for_all (g : GPattern σ) (host : Host) (spec : Option CString)
    (actions : Option (List DAAction)) (policy : DAPolicy σ)
    (h : daPolicyNewFull g host spec actions = some policy) :
    ∃ text, spec = some text ∧
      List.Forall₂ (fun entry part => entry.expr = .null ↔ WrittenForAll part entry.access)
        policy.entries (entryParts (tokens host text)) ∧
      ∀ entry ∈ policy.entries, entry.expr.NoNullOperand := by
  cases spec with
  | none => cases h
  | some text =>
    cases hc : daParserCompile host (some text) actions with
    | none => simp [daPolicyNewFull, hc] at h
    | some parser =>
      rw [daPolicyNewFull_eq g hc] at h
      obtain rfl := Option.some.inj h
      obtain ⟨pol, hd, hv, rfl⟩ := daParserCompile_eq_some.1 hc
      have hparts := hd.parts
      have hknown := hv.known
      refine ⟨text, rfl, ?_, ?_⟩
      · simp only [daParserGetResult, PolicySyntax.result, List.map_map]
        generalize entryParts (tokens host text) = parts at hparts
        generalize pol.entries = es at hparts hknown
        induction hparts with
        | nil => exact .nil
        | cons he _ ih =>
          obtain ⟨hk, hks⟩ := List.forall_mem_cons.1 hknown
          exact .cons (he.null_iff g host hk) (ih hks)
      · intro entry hentry
        simp only [daParserGetResult, PolicySyntax.result, List.map_map, List.mem_map] at hentry
        obtain ⟨e, he, rfl⟩ := hentry
        exact noNullOperand_entry g host (hknown e he)

theorem null_iff_for_all_negation :
    ∃ text, some (str "1; *=deny; !Call(a*)") = some text ∧
      List.Forall₂ (fun (entry : DAPolicyEntry CString) part =>
          entry.expr = .null ↔ WrittenForAll part entry.access)
        [⟨.DENY, .null⟩, ⟨.ALLOW, .not (.custom 7 (some (str "a*")))⟩]
        (entryParts (tokens exampleHost text)) ∧
      ∀ entry ∈ ([⟨.DENY, .null⟩, ⟨.ALLOW, .not (.custom 7 (some (str "a*")))⟩] :
        List (DAPolicyEntry CString)), entry.expr.NoNullOperand :=
  null_iff_for_all globPattern exampleHost (some (str "1; *=deny; !Call(a*)"))
    (some exampleActions)
    ⟨[⟨.DENY, .null⟩, ⟨.ALLOW, .not (.custom 7 (some (str "a*")))⟩]⟩ (by decide +kernel)

end DbusAccess
