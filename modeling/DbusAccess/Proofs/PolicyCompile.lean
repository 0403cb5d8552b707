import DbusAccess.Proofs.ParserEffects
import DbusAccess.Proofs.PolicyLanguage

/-! Texts that are compiled in memory: to the parser, and to the policy, that they give as
values, or to nothing at all. -/

namespace DbusAccess.InMemory

open MaximalMunch Separation Assertion ShiftReduce

variable {σ γ : Type} {g : GPattern σ} {host : Host} {p q : Option Addr} {a parser scanner buffer buf : Addr}
  {b : Block σ} {R : Assertion (Block σ)} {f : Prog (Block σ) γ} {S : γ → Assertion (Block σ)}
  {cells : List (Addr × Block σ)} {u : DbusAccess.DAParser}
  {vs : List (DbusAccess.YYSTYPE × YYSTYPE)}

/-! The run of the parser. -/

theorem tokens_length_le (host : Host) (spec : CString) :
    (tokens host spec).length ≤ spec.length :=
  ((List.takeWhile_prefix _).length_le).trans (scan_length_le _ spec)

/-- A bound for the bytes of a text is one for its tokens. -/
theorem run_policy (host : Host) (actions : Option (List DAAction)) (spec : CString) :
    run policyGrammar (policySemantics host) (12 * spec.length + 12)
      ⟨[⟨initial policyGrammar, .undefined⟩], tokens host spec, ⟨actions, []⟩⟩ =
        DbusAccess.daParserParse host ⟨actions, []⟩ (tokens host spec) := by
  have hlen := tokens_length_le host spec
  obtain ⟨m, hm⟩ : ∃ m, 12 * spec.length + 12 = parseFuel (tokens host spec) + m :=
    ⟨12 * spec.length + 12 - parseFuel (tokens host spec), by unfold parseFuel; omega⟩
  rw [hm]
  exact run_add _ _ rfl (daParserParse_terminates host ⟨actions, []⟩ (tokens host spec)) m

/-- A parser and a scanner at the end of a run. -/
def Parsed (parser scanner buffer buf : Addr) (u : DbusAccess.DAParser) : Assertion (Block σ) :=
  (⨆ cells, ParserAt parser buf u cells []) * ⨆ s, ⨆ rest, ScannerAt scanner buffer buf s rest

theorem parsing_parsed {input : Option (List DbusAccess.Token)} :
    (Parsing host parser scanner buffer buf [] input u : Assertion (Block σ)) ≤
      Parsed parser scanner buffer buf u := by
  refine mul_le_mul_right (iSup₂_mono fun s rest b hb => ?_) _
  exact (fact_mul.1 hb).2

/-- What the run of the parser leaves, by its result. -/
def ParsedAs (parser scanner buffer buf : Addr) :
    Result DbusAccess.DAParser → ℤ → Assertion (Block σ)
  | .accept u, result => fact (result = 0) * Parsed parser scanner buffer buf u
  | .abort, result => fact (result = 1) * ⨆ u, Parsed parser scanner buffer buf u
  | .outOfFuel, _ => fact False

theorem daParserParse_triple (host : Host) (actions : Option (List DAAction)) (spec : CString) :
    Triple (ParserAt parser buf ⟨actions, []⟩ cells [] * ScannerAt scanner buffer buf .init spec)
      (daParserParse host parser scanner)
      (ParsedAs parser scanner buffer buf
        (DbusAccess.daParserParse host ⟨actions, []⟩ (tokens host spec))) := by
  rw [mul_comm, daParserParse]
  refine remaining_triple ?_
  rw [mul_comm]
  refine .mono (P := Parsing host parser scanner buffer buf [(.undefined, .undefined)]
    (some (tokens host spec)) ⟨actions, []⟩) ?_
    ((mul_le_mul_left (parserAt_push .undefined rfl) _).trans
      (le_parsing fun ts hts => (Option.some_inj.1 hts).symm)) fun _ => le_rfl
  intro h F hI
  have hsim := erun_simulated (policy_simulates host parser scanner buffer buf F)
    (12 * spec.length + 12) (.live (.cons (I := initial policyGrammar) .nil)
      (.unread (tokens host spec)) hI)
  rw [run_policy] at hsim
  have hrun : ∀ {o : EResult} {h' : Heap (Block σ)} {g : EResult → Prog (Block σ) ℤ},
      erun policyGrammar (policyEffects host parser scanner) (12 * spec.length + 12)
        ⟨[⟨initial policyGrammar, .undefined⟩], none⟩ h = some (o, h') →
      (erun policyGrammar (policyEffects host parser scanner) (12 * spec.length + 12)
        ⟨[⟨initial policyGrammar, .undefined⟩], none⟩ >>= g) h = g o h' := by
    intro o h' g he
    change Option.bind _ _ = _
    rw [he]
    rfl
  cases hv : DbusAccess.daParserParse host ⟨actions, []⟩ (tokens host spec) with
  | accept u =>
    rw [hv] at hsim
    obtain ⟨h', he, input, hI⟩ := hsim
    refine ⟨0, h', hrun he, ?_⟩
    rw [ParsedAs, fact_true rfl, one_mul]
    exact mul_le_mul_left parsing_parsed F _ hI
  | abort =>
    rw [hv] at hsim
    obtain ⟨h', u, he, input, hI⟩ := hsim
    refine ⟨1, h', hrun he, ?_⟩
    rw [ParsedAs, fact_true rfl, one_mul]
    exact mul_le_mul_left (parsing_parsed.trans (le_iSup _ u)) F _ hI
  | outOfFuel => exact absurd hv (daParserParse_terminates host ⟨actions, []⟩ _)

/-! Compilation. -/

/-- A parser that is left over from compilation, with these entries. -/
def CompiledAt (parser : Addr) (u : DbusAccess.DAParser) : Assertion (Block σ) :=
  ⨆ buf, ⨆ s, (⨆ cells, ParserAt parser buf u cells []) * single buf (.gString s)

theorem daParserCreate_triple (actions : Option (List DAAction))
    {f : Addr → Prog (Block σ) γ}
    (h : ∀ parser buf, Triple (ParserAt parser buf ⟨actions, []⟩ [] [] *
      (single buf (.gString []) * R)) (f parser) S) :
    Triple R (daParserCreate actions >>= f) S := by
  unfold daParserCreate
  rw [bind_assoc]
  refine .alloc fun buf => .alloc fun parser => (h parser buf).mono ?_ fun _ => le_rfl
  have hc : Consistent (⟨[], [], [], [], [], []⟩ : Contents σ) [] [] :=
    ⟨fun _ h => absurd h List.not_mem_nil, rfl, .refl _, .nil, .nil⟩
  refine le_trans (le_of_eq ?_) (mul_le_mul_left (at_le parser
    (u := ⟨actions, []⟩) (p := ⟨actions, buf, none, none, none⟩) rfl rfl hc) _)
  rw [Contents.At, chain_nil, fact_true rfl]
  simp only [owned, loose, List.map_nil, List.zipWith_nil_left, List.prod_nil, mul_one]

/-- The scanner is gone, and the string of the parser is left. -/
theorem scannerDelete_triple
    (h : ∀ s, Triple ((⨆ cells, ParserAt parser buf u cells []) * (single buf (.gString s) * R))
      f S) :
    Triple (Parsed parser scanner buffer buf u * R)
      (do
        daScannerBufferDelete buffer scanner
        daScannerDelete scanner
        f) S := by
  rw [Parsed, mul_assoc, mul_left_comm, iSup_mul]
  refine .exist fun s => ?_
  rw [iSup_mul]
  refine .exist fun rest => ?_
  refine .pre (single scanner (.scanner ⟨s.start, some buffer⟩) *
    (single buffer (.scannerBuffer rest) * ((⨆ cells, ParserAt parser buf u cells []) *
      (single buf (.gString s.buf) * R)))) (by rw [ScannerAt]; ac_rfl) ?_
  unfold daScannerBufferDelete daScannerDelete
  rw [bind_assoc]
  refine .read ?_
  simp only [if_pos, bind_assoc]
  refine .write ?_
  rw [mul_left_comm]
  exact release_triple rfl (release_triple rfl (h s.buf))

theorem daParserCompile_triple (host : Host) (spec : Option CString)
    (actions : Option (List DAAction)) :
    Triple (1 : Assertion (Block σ)) (daParserCompile host spec actions) fun r =>
      match DbusAccess.daParserCompile host spec actions with
      | some u => ⨆ parser, fact (r = some parser) * CompiledAt parser u
      | none => fact (r = none) := by
  cases spec with
  | none => exact .pure fun b hb => ⟨rfl, hb⟩
  | some spec =>
    rw [daParserCompile, ← mul_one (1 : Assertion (Block σ))]
    refine daParserCreate_triple actions fun parser buf => ?_
    unfold daScannerCreate daScannerBufferCreate
    refine .alloc fun scanner => ?_
    rw [bind_assoc]
    refine .alloc fun buffer => ?_
    rw [mul_left_comm, bind_assoc]
    refine .read ?_
    simp only [bind_assoc]
    refine .write ?_
    rw [pure_bind]
    refine .pre (ParserAt parser buf ⟨actions, []⟩ [] [] *
      ScannerAt scanner buffer buf .init spec) (by rw [ScannerAt]; simp only [mul_one]; ac_rfl) ?_
    refine (daParserParse_triple host actions spec).bind fun result => ?_
    unfold DbusAccess.daParserCompile
    dsimp only
    cases hv : DbusAccess.daParserParse host ⟨actions, []⟩ (tokens host spec) with
    | accept u =>
      refine .fact fun hr => .pre _ (mul_one _).symm (scannerDelete_triple fun s => ?_)
      rw [if_pos hr, mul_one]
      refine .pure (le_trans ?_ (le_iSup _ parser))
      rw [fact_true rfl, one_mul]
      exact le_iSup₂ (f := fun buf s =>
        (⨆ cells, ParserAt parser buf u cells []) * single buf (.gString s)) buf s
    | abort =>
      refine .fact fun hr => .exist fun u => .pre _ (mul_one _).symm
        (scannerDelete_triple fun s => ?_)
      rw [if_neg (by rw [hr]; decide), iSup_mul]
      refine .exist fun cells => .bind (.mono (daParserDelete_triple s) (by rw [mul_one])
        fun _ => le_rfl) fun _ => .pure fun b hb => ⟨rfl, hb⟩
    | outOfFuel => exact absurd hv (daParserParse_terminates host ⟨actions, []⟩ _)

theorem compiledDelete_triple :
    Triple (CompiledAt parser u : Assertion (Block σ)) (daParserDelete parser) fun _ => 1 := by
  refine .exist fun buf => .exist fun s => ?_
  rw [iSup_mul]
  exact .exist fun cells => daParserDelete_triple s

/-! From the parser's expressions to those of a policy. -/

theorem owned_atLeast (cells : List (Addr × Block σ)) : AtLeast cells.length (owned cells) := by
  induction cells with
  | nil => exact .zero _
  | cons c cells ih =>
    rw [owned_cons, List.length_cons, Nat.add_comm]
    exact (AtLeast.single _ _).mul ih

theorem allocSome_triple {S : Option Addr → Assertion (Block σ)}
    (h : ∀ a, single a b * R ≤ S (some a)) : Triple R (some <$> alloc b) S := by
  rw [map_eq_pure_bind]
  exact .alloc fun a => .pure (h a)

theorem exprNew_custom {param : Option CString} {s : Option Addr} {action : UInt32}
    (hs : (param = none ∧ s = none) ∨
      ∃ str a, param = some str ∧ s = some a ∧ (a, .string str) ∈ cells) :
    Triple (owned cells) (daPolicyExprCustomNew g action s) fun q =>
      ExprAt (DbusAccess.daPolicyExprCustomNew g action param) q * owned cells := by
  unfold daPolicyExprCustomNew DbusAccess.daPolicyExprCustomNew
  refine .alloc fun x => ?_
  rcases hs with ⟨rfl, rfl⟩ | ⟨s, a, rfl, rfl, ha⟩
  · exact .pure le_rfl
  · dsimp only
    rw [mul_comm, readString, bind_assoc]
    refine .look ha ?_
    rw [pure_bind]
    split_ifs with hw
    · refine .alloc fun q => ?_
      refine .pre (single x (.policyExpr (.custom action none)) *
        (single q (.gPatternSpec (g.gPatternSpecNew s)) * owned cells)) (by ac_rfl) (.write ?_)
      refine .pure ?_
      rw [← mul_assoc]
      exact mul_le_mul_left (exprAt_custom x action q _) _
    · rw [mul_comm]
      exact .pure le_rfl

/-- Both operands, and the operation. -/
theorem binaryNew_triple (type : BinaryType) {left right : DbusAccess.DAPolicyExpr σ}
    {c : Addr × Block σ} (n : ℕ) (h : Triple (owned cells) (exprNew g n p) fun l =>
      ExprAt left l * owned cells)
    (h' : Triple (owned cells) (exprNew g n q) fun r => ExprAt right r * owned cells) :
    Triple (owned (c :: cells))
      (do
        let left ← exprNew g n p
        let right ← exprNew g n q
        daPolicyExprBinaryNew type left right)
      fun x => ExprAt (type.node left right) x * owned (c :: cells) := by
  rw [owned_cons, mul_comm]
  refine h.call fun l => ?_
  refine .pre (owned cells * (ExprAt left l * single c.1 c.2)) (by ac_rfl) ?_
  refine h'.call fun r => allocSome_triple fun x => ?_
  calc _ = single x (.policyExpr (.binary type l r)) * (ExprAt left l * ExprAt right r) *
        (owned cells * single c.1 c.2) := by ac_rfl
    _ ≤ _ := mul_le_mul_left (exprAt_binary type x l r) _

theorem exprNew_triple {x : DbusAccess.DAParserExpr} (hx : ExprIn cells p x) (n : ℕ)
    (hn : cells.length ≤ n) :
    Triple (owned cells) (exprNew g n p) fun q =>
      ExprAt (DbusAccess.daPolicyExprNew g x) q * owned cells := by
  induction hx generalizing n with
  | null cells =>
    cases n <;> exact .pure (by rw [DbusAccess.daPolicyExprNew, ExprAt, fact_true rfl, one_mul])
  | older c hx ih =>
    rw [List.length_cons] at hn
    rw [owned_cons, mul_comm]
    simp only [← mul_assoc]
    exact (ih n (by omega)).frame _
  | identity a uid gid =>
    obtain ⟨n, rfl⟩ : ∃ m, n = m + 1 := ⟨n - 1, by rw [List.length_cons] at hn; omega⟩
    rw [exprNew]
    refine .pre _ (mul_one _).symm (.look List.mem_cons_self ?_)
    rw [mul_one]
    exact allocSome_triple fun q => le_rfl
  | custom a action =>
    obtain ⟨n, rfl⟩ : ∃ m, n = m + 1 := ⟨n - 1, by rw [List.length_cons] at hn; omega⟩
    rw [exprNew]
    refine .pre _ (mul_one _).symm (.look List.mem_cons_self ?_)
    rw [mul_one]
    exact exprNew_custom (.inl ⟨rfl, rfl⟩)
  | param a action hs =>
    obtain ⟨n, rfl⟩ : ∃ m, n = m + 1 := ⟨n - 1, by rw [List.length_cons] at hn; omega⟩
    rw [exprNew]
    refine .pre _ (mul_one _).symm (.look List.mem_cons_self ?_)
    rw [mul_one]
    exact exprNew_custom (.inr ⟨_, _, rfl, rfl, List.mem_cons_of_mem _ hs⟩)
  | @not cells p x a hx ih =>
    obtain ⟨n, rfl⟩ : ∃ m, n = m + 1 := ⟨n - 1, by rw [List.length_cons] at hn; omega⟩
    rw [List.length_cons] at hn
    rw [exprNew]
    refine .pre _ (mul_one _).symm (.look List.mem_cons_self ?_)
    rw [mul_one, owned_cons, mul_comm]
    refine (ih n (by omega)).call fun q => allocSome_triple fun y => ?_
    dsimp only
    calc _ = single y (.policyExpr (.unary q)) * ExprAt (DbusAccess.daPolicyExprNew g x) q *
          (owned cells * single a (.parserExpr ⟨.NOT, .expr p none⟩)) := by ac_rfl
      _ ≤ _ := mul_le_mul_left (exprAt_not y q) _
  | and a hl hr ihl ihr =>
    obtain ⟨n, rfl⟩ : ∃ m, n = m + 1 := ⟨n - 1, by rw [List.length_cons] at hn; omega⟩
    rw [List.length_cons] at hn
    rw [exprNew]
    refine .pre _ (mul_one _).symm (.look List.mem_cons_self ?_)
    rw [mul_one]
    exact binaryNew_triple .and n (ihl n (by omega)) (ihr n (by omega))
  | or a hl hr ihl ihr =>
    obtain ⟨n, rfl⟩ : ∃ m, n = m + 1 := ⟨n - 1, by rw [List.length_cons] at hn; omega⟩
    rw [List.length_cons] at hn
    rw [exprNew]
    refine .pre _ (mul_one _).symm (.look List.mem_cons_self ?_)
    rw [mul_one]
    exact binaryNew_triple .or n (ihl n (by omega)) (ihr n (by omega))

theorem daPolicyExprNew_triple {x : DbusAccess.DAParserExpr} (hx : ExprIn cells p x) :
    Triple (owned cells) (daPolicyExprNew g p) fun q =>
      ExprAt (DbusAccess.daPolicyExprNew g x) q * owned cells :=
  .bound (owned_atLeast cells) fun n hn => exprNew_triple hx n hn

/-! From the parser's entries to those of a policy. -/

theorem linkLast_eq (v : DbusAccess.DAPolicyEntry σ) (vs : List (DbusAccess.DAPolicyEntry σ)) :
    linkLast v vs = vs ++ [v] := by
  induction vs with
  | nil => rfl
  | cons w vs ih => rw [linkLast, ih, List.cons_append]

theorem exprsAt_append {e : DAPolicyEntry} {v : DbusAccess.DAPolicyEntry σ}
    {es : List DAPolicyEntry} {vs : List (DbusAccess.DAPolicyEntry σ)}
    (he : e.access = v.access) :
    ExprsAt es vs * ExprAt v.expr e.expr ≤ ExprsAt (es ++ [e]) (vs ++ [v]) := by
  induction es generalizing vs with
  | nil =>
    cases vs with
    | nil =>
      rw [List.nil_append, List.nil_append, ExprsAt, ExprsAt, ExprsAt, one_mul, mul_one,
        fact_true he, one_mul]
    | cons w vs =>
      intro b hb
      exact (fact_mul.1 (show (fact False * _ : Assertion (Block σ)) b from hb)).1.elim
  | cons d es ih =>
    cases vs with
    | nil =>
      intro b hb
      exact (fact_mul.1 (show (fact False * _ : Assertion (Block σ)) b from hb)).1.elim
    | cons w vs =>
      rw [List.cons_append, List.cons_append, ExprsAt, ExprsAt, mul_assoc, mul_assoc]
      exact mul_le_mul_right (mul_le_mul_right (ih) _) _

variable {policy : DbusAccess.DAPolicy σ} {entry : DbusAccess.DAParserEntry}

/-- A new entry behind those that there are. -/
theorem entriesAt_append {links : List (Addr × DAPolicyEntry)} {new : Addr} {e : DAPolicyEntry}
    {v : DbusAccess.DAPolicyEntry σ} {vs : List (DbusAccess.DAPolicyEntry σ)}
    (he : e.access = v.access) :
    Chain entryLinked p (links ++ [(new, e)]) none *
      (ExprsAt (links.map Prod.snd) vs * ExprAt v.expr e.expr) ≤ EntriesAt p (vs ++ [v]) := by
  refine le_trans ?_ (le_iSup (fun links =>
    Chain entryLinked p links none * ExprsAt (links.map Prod.snd) (vs ++ [v]))
    (links ++ [(new, e)]))
  rw [List.map_append]
  exact mul_le_mul_right (exprsAt_append he) _

theorem addEntry_linked {n : Int32} {e : DAPolicyEntry} {new : Addr}
    {v : DbusAccess.DAPolicyEntry σ} (he : e.access = v.access) :
    Triple (PolicyAt a n policy * (single new (.policyEntry e none) * ExprAt v.expr e.expr))
      (do
        let p ← readPolicy a
        match p.entries with
        | some last => setLast entryLinked last (some new)
        | none => write a (.policy { p with entries := some new }))
      fun _ => PolicyAt a n ⟨linkLast v policy.entries⟩ := by
  rw [linkLast_eq]
  refine policy_triple fun p => readPolicy_triple ?_
  have hnew : single new (.policyEntry e none) * ExprAt v.expr e.expr ≤
      EntriesAt (some new) [v] := by
    have hcons : single new (.policyEntry e none) *
        (ExprAt v.expr e.expr * EntriesAt none []) ≤ EntriesAt (some new) [v] :=
      entriesAt_cons e none he
    rwa [entriesAt_nil, fact_true rfl, mul_one] at hcons
  cases p with
  | none =>
    rw [mul_left_comm]
    refine entries_triple (fun h _ => ?_) fun _ _ _ _ _ _ h => by cases h
    refine .last (.write (.pure ?_))
    rw [h, List.nil_append]
    exact (mul_le_mul_right hnew _).trans (policyAt_le a n (some new))
  | some last =>
    rw [mul_left_comm, EntriesAt, iSup_mul]
    refine .exist fun links => ?_
    have hne : ∀ b, (Chain entryLinked (some last) links none : Assertion (Block σ)) b →
        links ≠ [] := by
      intro b hb hl
      rw [hl, chain_nil] at hb
      exact absurd hb.1 (Option.some_ne_none last)
    rw [mul_assoc]
    refine .sure hne fun hl => ?_
    refine .pre (Chain entryLinked (some last) links none *
      Chain entryLinked (some new) [(new, e)] none * (single a (.policy ⟨n, some last⟩) *
        (ExprsAt (links.map Prod.snd) policy.entries * ExprAt v.expr e.expr))) ?_ ?_
    · rw [chain_singleton, fact_true rfl, one_mul]
      change _ = _ * single new (Block.policyEntry e none) * _
      ac_rfl
    refine .last ((setLast_triple hl).call fun _ => .pure ?_)
    rw [mul_left_comm]
    exact (mul_le_mul_right (entriesAt_append he) _).trans
      (policyAt_le a n (some last))

theorem daPolicyAddEntry_triple {link : Addr × Option Addr} (h : EntryIn cells link entry)
    (n : Int32) :
    Triple (PolicyAt a n policy * owned cells) (daPolicyAddEntry g a link.2) fun _ =>
      PolicyAt a n (DbusAccess.daPolicyAddEntry g policy entry) * owned cells := by
  obtain ⟨e, x, hl, he, hx⟩ := h
  rw [hl, daPolicyAddEntry, mul_comm]
  refine .look he (.alloc fun new => ?_)
  rw [mul_left_comm]
  refine (daPolicyExprNew_triple hx).call fun q => ?_
  refine .pre (single new (.policyEntry ⟨.DENY, none⟩ none) * (PolicyAt a n policy *
    (ExprAt (DbusAccess.daPolicyExprNew g entry.expr) q * owned cells))) (by ac_rfl) ?_
  refine .write ?_
  refine .pre (PolicyAt a n policy * (single new (.policyEntry ⟨entry.access, q⟩ none) *
    ExprAt (DbusAccess.daPolicyExprNew g entry.expr) q) * owned cells) (by ac_rfl) ?_
  exact Triple.frame (addEntry_linked (v := ⟨entry.access, DbusAccess.daPolicyExprNew g entry.expr⟩)
    rfl) _

/-- The entries that the walk has come to are in the policy. -/
theorem addEntries_triple {links : List (Addr × Option Addr)}
    {entries : List DbusAccess.DAParserEntry} (h : List.Forall₂ (EntryIn cells) links entries)
    (n : Int32) :
    Triple (Chain gSListLinked p links none * (PolicyAt a n ⟨[]⟩ * owned cells))
      (gSListForeach p (daPolicyAddEntry g a)) fun _ => Chain gSListLinked p links none *
        (PolicyAt a n (entries.foldl (DbusAccess.daPolicyAddEntry g) ⟨[]⟩) * owned cells) := by
  let I : List (Option Addr) → Assertion (Block σ) := fun ds =>
    ⨆ links : List (Addr × Option Addr), ⨆ seen, ⨆ rest,
      fact (ds = links.map Prod.snd ∧ List.Forall₂ (EntryIn cells) links rest ∧
        seen ++ rest = entries) *
      (PolicyAt a n (seen.foldl (DbusAccess.daPolicyAddEntry g) ⟨[]⟩) * owned cells)
  have hstart : PolicyAt a n ⟨[]⟩ * owned cells ≤ I (links.map Prod.snd) := fun b hb =>
    iSup_iff.2 ⟨links, iSup_iff.2 ⟨[], iSup_iff.2 ⟨entries, fact_mul.2 ⟨⟨rfl, h, rfl⟩, hb⟩⟩⟩⟩
  have hend : I [] ≤ PolicyAt a n (entries.foldl (DbusAccess.daPolicyAddEntry g) ⟨[]⟩) *
      owned cells := by
    refine iSup_le fun links => iSup₂_le fun seen rest b hb => ?_
    obtain ⟨⟨hl, hrest, rfl⟩, hb⟩ := fact_mul.1 hb
    rw [List.map_eq_nil_iff.1 hl.symm, List.forall₂_nil_left_iff] at hrest
    rwa [hrest, List.append_nil]
  have hstep : ∀ d ds, Triple (I (d :: ds)) (daPolicyAddEntry g a d) fun _ => I ds := by
    intro d ds
    refine .exist fun links => .exist fun seen => .exist fun rest => .fact ?_
    rintro ⟨hds, hrest, rfl⟩
    cases hrest with
    | nil => cases hds
    | @cons link entry links rest he hrest =>
      obtain ⟨rfl, rfl⟩ := List.cons_eq_cons.1 hds
      refine (daPolicyAddEntry_triple he n).post fun _ b hb => ?_
      refine iSup_iff.2 ⟨links, iSup_iff.2 ⟨seen ++ [entry], iSup_iff.2 ⟨rest, fact_mul.2 ⟨⟨rfl,
        hrest, by rw [List.append_assoc]; rfl⟩, ?_⟩⟩⟩⟩
      rwa [List.foldl_append]
  exact (gSListForeach_triple hstep).mono (mul_le_mul_right hstart _) fun _ =>
    mul_le_mul_right hend _

theorem policyAt_empty (a : Addr) (n : Int32) :
    single a (.policy ⟨n, none⟩) ≤ PolicyAt a n (⟨[]⟩ : DbusAccess.DAPolicy σ) := by
  have hle : single a (.policy ⟨n, none⟩) * EntriesAt none [] ≤
      PolicyAt a n (⟨[]⟩ : DbusAccess.DAPolicy σ) := policyAt_le a n none
  rwa [entriesAt_nil, fact_true rfl, mul_one] at hle

/-- All that is taken from the parser is its entries. -/
theorem newFromParser_triple (g : GPattern σ) {s : CString} :
    Triple (ParserAt parser buf u cells [] * (single buf (.gString s) * PolicyAt a 0 ⟨[]⟩))
      (do
        let entry ← daParserGetResult parser
        gSListForeach entry (daPolicyAddEntry g a)
        let p ← readPolicy a
        write a (.policy { p with refCount := 1 })
        daParserDelete parser
        pure (some a))
      fun r => fact (r = some a) *
        PolicyAt a 1 ((DbusAccess.daParserGetResult u).foldl (DbusAccess.daPolicyAddEntry g) ⟨[]⟩) := by
  refine parser_triple ?_
  rintro c p rfl hactions hbuf hc
  rw [at_eq, mul_assoc, daParserGetResult, bind_assoc]
  refine readParser_triple ?_
  rw [pure_bind]
  refine .pre (Chain gSListLinked p.entries c.entries none * (PolicyAt a 0 ⟨[]⟩ * owned c.cells) *
    (single parser (.parser p) * Chain gSListLinked p.allocList c.allocs none *
      Chain gSListLinked p.linkList c.records none * chains [] c.values * loose c.dropped *
      single buf (.gString s))) (by rw [Contents.Below, chains]; ac_rfl) ?_
  refine (addEntries_triple hc.entries 0).call fun _ => ?_
  refine .pre (PolicyAt a 0 _ * (c.At parser p [] * single buf (.gString s)))
    (by rw [Contents.At, chains]; ac_rfl) ?_
  refine policy_triple fun q => readPolicy_triple (.write ?_)
  refine .pre (c.At parser p [] * single buf (.gString s) * (single a (.policy ⟨1, q⟩) *
    EntriesAt q _)) (by ac_rfl) ?_
  refine ((daParserDelete_triple s).mono (mul_le_mul_left (at_le parser hactions hbuf hc) _)
    fun _ => le_rfl).call fun _ => .pure ?_
  rw [one_mul, fact_true rfl, one_mul]
  exact policyAt_le a 1 q

/-- A text becomes a policy with one reference, or nothing at all is left of it. -/
theorem daPolicyNewFull_triple (g : GPattern σ) (host : Host) (spec : Option CString)
    (actions : Option (List DAAction)) :
    Triple (1 : Assertion (Block σ)) (daPolicyNewFull g host spec actions) fun r =>
      match DbusAccess.daPolicyNewFull g host spec actions with
      | some policy => ⨆ a, fact (r = some a) * PolicyAt a 1 policy
      | none => fact (r = none) := by
  refine .bind (daParserCompile_triple host spec actions) fun r => ?_
  unfold DbusAccess.daPolicyNewFull
  cases DbusAccess.daParserCompile host spec actions with
  | none =>
    refine .pre _ (mul_one _).symm (.fact fun hr => ?_)
    rw [hr]
    exact .pure fun b hb => ⟨rfl, hb⟩
  | some u =>
    refine .exist fun parser => .fact fun hr => ?_
    rw [hr]
    refine .alloc fun a => ?_
    rw [mul_comm, CompiledAt, iSup_mul]
    refine .exist fun buf => ?_
    rw [iSup_mul]
    refine .exist fun s => ?_
    rw [mul_assoc, iSup_mul]
    refine .exist fun cells => (newFromParser_triple g).mono
      (mul_le_mul_right (mul_le_mul_right (policyAt_empty a 0) _) _) fun r => ?_
    exact le_iSup (fun a => fact (r = some a) * PolicyAt a 1 _) a

/-! The same in any memory. -/

/-- Whatever there is in memory already, a text that is no policy leaves no trace, and what
a policy adds to the memory is the policy that the text means, with one reference. -/
theorem daPolicyNewFull_memory (g : GPattern σ) (host : Host) (spec : Option CString)
    (actions : Option (List DAAction)) (h : Heap (Block σ)) :
    (DbusAccess.daPolicyNewFull g host spec actions = none → ∃ h',
      daPolicyNewFull g host spec actions h = some (none, h') ∧ h'.blocks = h.blocks) ∧
    ∀ policy, DbusAccess.daPolicyNewFull g host spec actions = some policy → ∃ a h' new,
      daPolicyNewFull g host spec actions h = some (some a, h') ∧
      new.Disjoint h.blocks ∧ h'.blocks = new ∪ h.blocks ∧ PolicyAt a 1 policy new := by
  have hstart : (1 * exactly h.blocks : Assertion (Block σ)) h.blocks := by
    rw [one_mul]
    rfl
  obtain ⟨r, h', he, hb⟩ := daPolicyNewFull_triple g host spec actions h _ hstart
  refine ⟨fun hv => ?_, fun policy hv => ?_⟩
  · simp only [hv] at hb
    obtain ⟨rfl, hblocks⟩ := fact_mul.1 hb
    exact ⟨h', he, hblocks⟩
  · simp only [hv, iSup_mul] at hb
    obtain ⟨a, hb⟩ := iSup_iff.1 hb
    rw [mul_assoc] at hb
    obtain ⟨rfl, new, _, hd, hu, hnew, rfl⟩ := fact_mul.1 hb
    exact ⟨a, h', new, he, hd, hu, hnew⟩

/-- Whatever there is in memory already, a compilation that fails leaves no trace, and one
that succeeds none after its parser is deleted. -/
theorem daParserCompile_memory (host : Host) (spec : Option CString)
    (actions : Option (List DAAction)) (h : Heap (Block σ)) :
    (DbusAccess.daParserCompile host spec actions = none → ∃ h',
      daParserCompile host spec actions h = some (none, h') ∧ h'.blocks = h.blocks) ∧
    ∀ u, DbusAccess.daParserCompile host spec actions = some u → ∃ parser h',
      daParserCompile host spec actions h = some (some parser, h') ∧
      ∃ h'', daParserDelete parser h' = some ((), h'') ∧ h''.blocks = h.blocks := by
  have hstart : (1 * exactly h.blocks : Assertion (Block σ)) h.blocks := by
    rw [one_mul]
    rfl
  obtain ⟨r, h', he, hb⟩ := daParserCompile_triple host spec actions h _ hstart
  refine ⟨fun hv => ?_, fun u hv => ?_⟩
  · simp only [hv] at hb
    obtain ⟨rfl, hblocks⟩ := fact_mul.1 hb
    exact ⟨h', he, hblocks⟩
  · simp only [hv, iSup_mul] at hb
    obtain ⟨parser, hb⟩ := iSup_iff.1 hb
    rw [mul_assoc] at hb
    obtain ⟨rfl, hblocks⟩ := fact_mul.1 hb
    obtain ⟨_, h'', he', hblocks⟩ := compiledDelete_triple h' _ hblocks
    rw [one_mul] at hblocks
    exact ⟨parser, h', he, h'', he', hblocks⟩

end DbusAccess.InMemory
