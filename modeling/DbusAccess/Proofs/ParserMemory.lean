import DbusAccess.Proofs.PolicyObjects

/-! The functions of `dbusaccess_parser.c` on a parser in memory: each of them keeps
account of what it allocates, and so everything can be found when the parser is deleted. -/

namespace DbusAccess.InMemory

open Separation Assertion

variable {σ γ : Type} {p q : Option Addr} {a parser buf : Addr} {b : Block σ}
  {R : Assertion (Block σ)} {f : Prog (Block σ) γ} {S : γ → Assertion (Block σ)}
  {cells : List (Addr × Block σ)} {u : DbusAccess.DAParser}
  {vs vs' : List (DbusAccess.YYSTYPE × YYSTYPE)}

/-! More blocks do no harm. -/

theorem EntryIn.older {l : Addr × Option Addr} {e : DbusAccess.DAParserEntry}
    (h : EntryIn cells l e) (c : Addr × Block σ) : EntryIn (c :: cells) l e := by
  obtain ⟨a, x, hl, ha, hx⟩ := h
  exact ⟨a, x, hl, List.mem_cons_of_mem c ha, hx.older c⟩

theorem Agree.older {v : DbusAccess.YYSTYPE × YYSTYPE} {links : List (Addr × Option Addr)}
    (h : Agree cells v links) (c : Addr × Block σ) : Agree (c :: cells) v links := by
  cases h with
  | undefined => exact .undefined
  | number n => exact .number n
  | string h => exact .string (List.mem_cons_of_mem c h)
  | access a => exact .access a
  | entry h hx => exact .entry (List.mem_cons_of_mem c h) (hx.older c)
  | expr h => exact .expr (h.older c)
  | list p h => exact .list p (h.imp fun _ _ h => h.older c)

/-! A parser, taken apart and put together. -/

theorem parser_triple
    (h : ∀ (c : Contents σ) (p : DAParser), c.cells = cells → p.actions = u.actions →
      p.buf = buf → Consistent c u.entries vs → Triple (c.At parser p vs * R) f S) :
    Triple (ParserAt parser buf u cells vs * R) f S := by
  rw [ParserAt, iSup_mul]
  refine .exist fun c => ?_
  rw [iSup_mul]
  refine .exist fun p => ?_
  rw [mul_assoc]
  exact .fact fun ⟨h1, h2, h3, h4⟩ => h c p h1 h2 h3 h4

theorem at_le (parser : Addr) {c : Contents σ} {p : DAParser} (hactions : p.actions = u.actions)
    (hbuf : p.buf = buf) (hc : Consistent c u.entries vs) :
    c.At parser p vs ≤ ParserAt parser buf u c.cells vs := by
  refine le_trans (le_of_eq ?_) (le_iSup₂ (f := fun (c' : Contents σ) (p : DAParser) =>
    fact (c'.cells = c.cells ∧ p.actions = u.actions ∧ p.buf = buf ∧
      Consistent c' u.entries vs) * c'.At parser p vs) c p)
  rw [fact_true ⟨rfl, hactions, hbuf, hc⟩, one_mul]

theorem parserAt_le {Q : Assertion (Block σ)}
    (h : ∀ (c : Contents σ) (p : DAParser), c.cells = cells → p.actions = u.actions →
      p.buf = buf → Consistent c u.entries vs → c.At parser p vs ≤ Q) :
    ParserAt parser buf u cells vs ≤ Q := by
  refine iSup₂_le fun c p b hb => ?_
  obtain ⟨⟨h1, h2, h3, h4⟩, hb⟩ := fact_mul.1 hb
  exact h c p h1 h2 h3 h4 b hb

/-- What the structure points at, and the values. -/
def Contents.Below (c : Contents σ) (p : DAParser)
    (vs : List (DbusAccess.YYSTYPE × YYSTYPE)) : Assertion (Block σ) :=
  owned c.cells * Chain gSListLinked p.allocList c.allocs none *
    Chain gSListLinked p.linkList c.records none * Chain gSListLinked p.entries c.entries none *
    (List.zipWith (fun v links => v.2.chain links) vs c.values).prod * loose c.dropped

theorem at_eq (c : Contents σ) (p : DAParser) :
    c.At parser p vs = single parser (.parser p) * c.Below p vs := by
  rw [Contents.At, Contents.Below]
  ac_rfl

theorem readParser_triple {p : DAParser} {f : DAParser → Prog (Block σ) γ}
    (h : Triple (single parser (.parser p) * R) (f p) S) :
    Triple (single parser (.parser p) * R) (readParser parser >>= f) S := by
  unfold readParser
  rw [bind_assoc]
  exact .read h

theorem gSListPrepend_triple {list data : Option Addr} {f : Option Addr → Prog (Block σ) γ}
    (h : ∀ a, Triple (single a (.gSList data list) * R) (f (some a)) S) :
    Triple R (gSListPrepend list data >>= f) S := by
  unfold gSListPrepend
  rw [map_eq_pure_bind, bind_assoc]
  exact .alloc h

/-- A new block is the newest one. -/
theorem Consistent.alloc {c : Contents σ} {entries : List DbusAccess.DAParserEntry}
    (h : Consistent c entries vs) (hb : b.allocation = .gMalloc) (a link : Addr) :
    Consistent { c with cells := (a, b) :: c.cells, allocs := (link, some a) :: c.allocs }
      entries vs where
  gMalloc := List.forall_mem_cons.2 ⟨hb, h.gMalloc⟩
  allocs := by
    rw [List.map_cons, List.map_cons, h.allocs]
  records := h.records
  entries := h.entries.imp fun _ _ h => h.older _
  values := h.values.imp fun _ _ h => h.older _

theorem allocated_triple (hb : b.allocation = .gMalloc) {f : Addr → Prog (Block σ) γ}
    (h : ∀ a, Triple (ParserAt parser buf u ((a, b) :: cells) vs * R) (f a) S) :
    Triple (ParserAt parser buf u cells vs * R) (allocated parser b >>= f) S := by
  refine parser_triple ?_
  rintro c p rfl hactions hbuf hc
  unfold allocated
  rw [bind_assoc]
  refine .alloc fun a => ?_
  rw [at_eq, bind_assoc]
  refine .pre (single parser (.parser p) * (single a b * (c.Below p vs * R))) (by ac_rfl) ?_
  refine readParser_triple ?_
  rw [bind_assoc]
  refine gSListPrepend_triple fun link => ?_
  rw [mul_left_comm, bind_assoc]
  refine .write ((h a).mono ?_ fun _ => le_rfl)
  have hle := at_le parser (p := { p with allocList := some link }) hactions hbuf
    (hc.alloc hb a link)
  refine le_trans ?_ (mul_le_mul_left hle R)
  rw [at_eq, Contents.Below, Contents.Below, owned_cons]
  dsimp only
  calc _ = single link (.gSList (some a) p.allocList) *
          Chain gSListLinked p.allocList c.allocs none *
        (single parser (.parser { p with allocList := some link }) * (single a b * owned c.cells) *
          (Chain gSListLinked p.linkList c.records none *
            Chain gSListLinked p.entries c.entries none *
            (List.zipWith (fun v links => v.2.chain links) vs c.values).prod * loose c.dropped) *
          R) := by ac_rfl
    _ ≤ _ := mul_le_mul_left (chain_push (k := gSListLinked) _) _
    _ = _ := by ac_rfl

/-! Links. -/

/-- A new link is the list of one entry. -/
theorem Consistent.link {c : Contents σ} {entries : List DbusAccess.DAParserEntry}
    {e : DbusAccess.DAParserEntry} {l : Addr × Option Addr} (h : Consistent c entries vs)
    (he : EntryIn c.cells l e) (record : Addr) :
    Consistent { c with records := (record, some l.1) :: c.records, values := [l] :: c.values }
      entries ((.list [e], .list (some l.1)) :: vs) where
  gMalloc := h.gMalloc
  allocs := h.allocs
  records := by
    simp only [List.map_cons, List.flatten_cons, List.map_append, List.map_nil]
    refine (h.records.cons (some l.1)).trans ?_
    simp only [List.map_append]
    exact (@List.perm_middle _ _ ((c.entries.map Prod.fst).map some) _).symm.append_right _
  entries := h.entries
  values := .cons (.list _ (.cons he .nil)) h.values

theorem daParserNewLink_triple {e : DbusAccess.DAParserEntry} {x : Option Addr}
    {f : Option Addr → Prog (Block σ) γ} (ha : (a, .parserEntry ⟨x, e.access⟩) ∈ cells)
    (hx : ExprIn cells x e.expr)
    (h : ∀ r, Triple (ParserAt parser buf u cells ((.list [e], .list r) :: vs) * R) (f r) S) :
    Triple (ParserAt parser buf u cells vs * R) (daParserNewLink parser (some a) >>= f) S := by
  refine parser_triple ?_
  rintro c p rfl hactions hbuf hc
  unfold daParserNewLink gSListAppend
  simp only [bind_assoc, pure_bind]
  refine .alloc fun link => ?_
  rw [at_eq]
  refine .pre (single parser (.parser p) * (single link (.gSList none none) *
    (c.Below p vs * R))) (by ac_rfl) ?_
  refine readParser_triple (gSListPrepend_triple fun record => ?_)
  rw [mul_left_comm]
  refine .write ?_
  refine .pre (single link (.gSList none none) * (single parser (.parser { p with
    linkList := some record }) * (single record (.gSList (some link) p.linkList) *
      (c.Below p vs * R)))) (by ac_rfl) ?_
  refine .read ?_
  simp only [bind_assoc]
  refine .write ((h (some link)).mono ?_ fun _ => le_rfl)
  have hentry : EntryIn c.cells (link, some a) e := ⟨a, x, rfl, ha, hx⟩
  have hle := at_le parser (p := { p with linkList := some record }) hactions hbuf
    (hc.link hentry record)
  refine le_trans ?_ (mul_le_mul_left hle R)
  rw [at_eq, Contents.Below, Contents.Below]
  dsimp only
  rw [List.zipWith_cons_cons, List.prod_cons]
  calc _ = single record (.gSList (some link) p.linkList) *
          Chain gSListLinked p.linkList c.records none *
        (single link (.gSList (some a) none) *
          (single parser (.parser { p with linkList := some record }) * owned c.cells *
            Chain gSListLinked p.allocList c.allocs none *
            Chain gSListLinked p.entries c.entries none *
            (List.zipWith (fun v links => v.2.chain links) vs c.values).prod * loose c.dropped) *
          R) := by ac_rfl
    _ ≤ Chain gSListLinked (some record) ((record, some link) :: c.records) none *
        (Chain gSListLinked (some link) [(link, some a)] none * _ * R) := by
      rw [chain_singleton, fact_true rfl, one_mul]
      exact mul_le_mul_left (chain_push (k := gSListLinked) _) _
    _ = _ := by
      simp only [YYSTYPE.chain]
      ac_rfl

theorem gSListConcat_triple {l l' : List (Addr × Option Addr)}
    {f : Option Addr → Prog (Block σ) γ}
    (h : ∀ r, Triple (Chain gSListLinked r (l ++ l') none * R) (f r) S) :
    Triple (Chain gSListLinked p l none * (Chain gSListLinked q l' none * R))
      (gSListConcat p q >>= f) S := by
  cases q with
  | none =>
    rw [mul_left_comm]
    refine .chain (fun hl' _ => ?_) fun _ _ _ _ hq => by simp at hq
    rw [gSListConcat, pure_bind]
    have := h p
    rwa [hl', List.append_nil] at this
  | some b =>
    cases p with
    | none =>
      refine .chain (fun hl _ => ?_) fun _ _ _ _ hp => by simp at hp
      rw [gSListConcat, pure_bind]
      have := h (some b)
      rwa [hl, List.nil_append] at this
    | some a =>
      have hne : ∀ b, (Chain gSListLinked (some a) l none : Assertion (Block σ)) b → l ≠ [] := by
        intro b hb hl
        rw [hl, chain_nil] at hb
        exact absurd hb.1 (Option.some_ne_none a)
      refine .sure hne fun hl => ?_
      rw [gSListConcat, bind_assoc, ← mul_assoc]
      refine (setLast_triple hl).call fun _ => ?_
      rw [pure_bind]
      exact h (some a)

/-- The links of the first list and those of the second one. -/
theorem agree_list {l : List DbusAccess.DAParserEntry} {p : Option Addr}
    {links : List (Addr × Option Addr)} (h : Agree cells (.list l, .list p) links) :
    List.Forall₂ (EntryIn cells) links l := by
  cases h with
  | list _ h => exact h

/-- The chains of values. -/
def chains (vs : List (DbusAccess.YYSTYPE × YYSTYPE)) (values : List (List (Addr × Option Addr))) :
    Assertion (Block σ) := (List.zipWith (fun v links => v.2.chain links) vs values).prod

/-- All but these. -/
def Contents.Lists (c : Contents σ) (parser : Addr) (p : DAParser) : Assertion (Block σ) :=
  single parser (.parser p) * owned c.cells * Chain gSListLinked p.allocList c.allocs none *
    Chain gSListLinked p.linkList c.records none * Chain gSListLinked p.entries c.entries none *
    loose c.dropped

theorem at_values (c : Contents σ) (p : DAParser) :
    c.At parser p vs = chains vs c.values * c.Lists parser p := by
  rw [Contents.At, chains, Contents.Lists]
  ac_rfl

theorem chains_cons (v : DbusAccess.YYSTYPE × YYSTYPE) (links : List (Addr × Option Addr))
    (values : List (List (Addr × Option Addr))) :
    (chains (v :: vs) (links :: values) : Assertion (Block σ)) =
      v.2.chain links * chains vs values := by
  rw [chains, List.zipWith_cons_cons, List.prod_cons, chains]

/-- Two lists of values are one. -/
theorem Consistent.concat {c : Contents σ} {entries l l' : List DbusAccess.DAParserEntry}
    {k k' : List (Addr × Option Addr)} {values : List (List (Addr × Option Addr))}
    (h : Consistent c entries ((.list l, .list p) :: (.list l', .list q) :: vs))
    (hvalues : c.values = k :: k' :: values) (r : Option Addr) :
    Consistent { c with values := (k ++ k') :: values } entries
      ((.list (l ++ l'), .list r) :: vs) where
  gMalloc := h.gMalloc
  allocs := h.allocs
  records := by
    simpa only [hvalues, List.flatten_cons, List.append_assoc] using h.records
  entries := h.entries
  values := by
    have := h.values
    rw [hvalues] at this
    cases this with
    | cons hk this =>
      cases this with
      | cons hk' this => exact .cons (.list r (List.rel_append (agree_list hk) (agree_list hk'))) this

theorem concat_triple {l l' : List DbusAccess.DAParserEntry} {f : Option Addr → Prog (Block σ) γ}
    (h : ∀ r, Triple (ParserAt parser buf u cells ((.list (l ++ l'), .list r) :: vs) * R) (f r) S) :
    Triple (ParserAt parser buf u cells ((.list l, .list p) :: (.list l', .list q) :: vs) * R)
      (gSListConcat p q >>= f) S := by
  refine parser_triple ?_
  rintro c d rfl hactions hbuf hc
  obtain ⟨k, values', -, hvalues', hk⟩ := List.forall₂_cons_left_iff.1 hc.values
  obtain ⟨k', values, -, -, rfl⟩ := List.forall₂_cons_left_iff.1 hvalues'
  rw [at_values, hk, chains_cons, chains_cons]
  refine .pre (Chain gSListLinked p k none * (Chain gSListLinked q k' none *
    (chains vs values * c.Lists parser d * R)))
    (by simp only [YYSTYPE.chain]; ac_rfl) ?_
  refine gSListConcat_triple fun r => (h r).mono ?_ fun _ => le_rfl
  have hle := at_le parser (p := d) hactions hbuf (hc.concat hk r)
  rw [at_values, chains_cons] at hle
  refine le_trans (le_of_eq ?_) (mul_le_mul_left hle R)
  simp only [YYSTYPE.chain, Contents.Lists, mul_assoc]

/-- A list of values becomes the end of the entries. -/
theorem Consistent.add {c : Contents σ} {entries l : List DbusAccess.DAParserEntry}
    {k : List (Addr × Option Addr)} {values : List (List (Addr × Option Addr))}
    (h : Consistent c entries ((.list l, .list q) :: vs)) (hvalues : c.values = k :: values) :
    Consistent { c with entries := c.entries ++ k, values := values } (entries ++ l) vs where
  gMalloc := h.gMalloc
  allocs := h.allocs
  records := by
    simpa only [hvalues, List.flatten_cons, List.map_append, List.append_assoc] using h.records
  entries := by
    have := h.values
    rw [hvalues] at this
    cases this with
    | cons hk _ => exact List.rel_append h.entries (agree_list hk)
  values := by
    have := h.values
    rw [hvalues] at this
    cases this with
    | cons _ this => exact this

theorem daParserAddEntries_triple {l : List DbusAccess.DAParserEntry} {f : Unit → Prog (Block σ) γ}
    (h : Triple (ParserAt parser buf (DbusAccess.daParserAddEntries u l) cells vs * R) (f ()) S) :
    Triple (ParserAt parser buf u cells ((.list l, .list q) :: vs) * R)
      (daParserAddEntries parser q >>= f) S := by
  refine parser_triple ?_
  rintro c d rfl hactions hbuf hc
  obtain ⟨k, values, -, -, hk⟩ := List.forall₂_cons_left_iff.1 hc.values
  rw [at_values, hk, chains_cons, daParserAddEntries, bind_assoc]
  simp only [bind_assoc]
  refine .pre (single parser (.parser d) * (Chain gSListLinked d.entries c.entries none *
    (Chain gSListLinked q k none * (chains vs values * (owned c.cells *
      Chain gSListLinked d.allocList c.allocs none * Chain gSListLinked d.linkList c.records none *
      loose c.dropped) * R)))) ?_ ?_
  · rw [Contents.Lists]
    simp only [YYSTYPE.chain]
    ac_rfl
  refine readParser_triple ?_
  rw [mul_comm, mul_assoc, mul_assoc]
  refine gSListConcat_triple fun r => ?_
  refine .pre (single parser (.parser d) * (Chain gSListLinked r (c.entries ++ k) none *
    (chains vs values * (owned c.cells * Chain gSListLinked d.allocList c.allocs none *
      Chain gSListLinked d.linkList c.records none * loose c.dropped) * R))) (by ac_rfl) ?_
  refine .write (h.mono ?_ fun _ => le_rfl)
  have hle := at_le parser (u := DbusAccess.daParserAddEntries u l)
    (p := { d with entries := r }) hactions hbuf (hc.add hk)
  rw [at_values] at hle
  refine le_trans (le_of_eq ?_) (mul_le_mul_left hle R)
  simp only [Contents.Lists]
  ac_rfl

/-! The values, in any order, and fewer or more of them. -/

theorem chains_perm (h : vs.Perm vs') (values : List (List (Addr × Option Addr)))
    (hvalues : List.Forall₂ (Agree cells) vs values) :
    ∃ values', values.flatten.Perm values'.flatten ∧ List.Forall₂ (Agree cells) vs' values' ∧
      (chains vs values : Assertion (Block σ)) = chains vs' values' := by
  induction h generalizing values with
  | nil => exact ⟨values, .refl _, hvalues, rfl⟩
  | cons v _ ih =>
    cases hvalues with
    | cons hv hvalues =>
      obtain ⟨values', hp, hvalues', he⟩ := ih _ hvalues
      refine ⟨_ :: values', ?_, .cons hv hvalues', by rw [chains_cons, chains_cons, he]⟩
      exact hp.append_left _
  | swap v v' =>
    cases hvalues with
    | cons hv' hvalues =>
      cases hvalues with
      | cons hv hvalues =>
        refine ⟨_ :: _ :: _, ?_, .cons hv (.cons hv' hvalues), ?_⟩
        · simp only [List.flatten_cons, ← List.append_assoc]
          exact List.perm_append_comm.append_right _
        · simp only [chains_cons, mul_left_comm]
  | trans _ _ ih1 ih2 =>
    obtain ⟨values', hp1, hvalues', he1⟩ := ih1 _ hvalues
    obtain ⟨values'', hp2, hvalues'', he2⟩ := ih2 _ hvalues'
    exact ⟨values'', hp1.trans hp2, hvalues'', he1.trans he2⟩

theorem parserAt_perm (h : vs.Perm vs') :
    (ParserAt parser buf u cells vs : Assertion (Block σ)) ≤ ParserAt parser buf u cells vs' := by
  refine parserAt_le ?_
  rintro c p rfl hactions hbuf hc
  obtain ⟨values', hp, hvalues', he⟩ := chains_perm h c.values hc.values
  have hc' : Consistent { c with values := values' } u.entries vs' :=
    { gMalloc := hc.gMalloc
      allocs := hc.allocs
      records := hc.records.trans
        ((((hp.map Prod.fst).append_left _).append_right _).map some)
      entries := hc.entries
      values := hvalues' }
  have hle := at_le parser hactions hbuf hc'
  rw [at_values, ← he] at hle
  rw [at_values]
  exact hle

theorem loose_append (l l' : List Addr) :
    (loose (l ++ l') : Assertion (Block σ)) = loose l * loose l' := by
  rw [loose, List.map_append, List.prod_append, loose, loose]

theorem chain_loose {links : List (Addr × Option Addr)} :
    (Chain gSListLinked p links q : Assertion (Block σ)) ≤ loose (links.map Prod.fst) := by
  induction links generalizing p with
  | nil =>
    rw [chain_nil]
    exact fun b hb => hb.2
  | cons l links ih =>
    rw [chain_cons]
    intro b hb
    obtain ⟨-, hb⟩ := fact_mul.1 hb
    obtain ⟨n, hb⟩ := iSup_iff.1 hb
    rw [loose, List.map_cons, List.map_cons, List.prod_cons]
    refine mul_le_mul' ?_ ih b hb
    exact le_iSup₂ (f := fun data next => single l.1 (Block.gSList data next)) l.2 n

theorem agree_loose {v : DbusAccess.YYSTYPE × YYSTYPE} {links : List (Addr × Option Addr)}
    (h : Agree cells v links) : (v.2.chain links : Assertion (Block σ)) ≤ loose (links.map Prod.fst) := by
  cases h with
  | list p h => exact chain_loose
  | _ => exact le_rfl

/-- A value that nobody needs leaves its links behind. -/
theorem Consistent.drop {c : Contents σ} {entries : List DbusAccess.DAParserEntry}
    {v : DbusAccess.YYSTYPE × YYSTYPE} {k : List (Addr × Option Addr)}
    {values : List (List (Addr × Option Addr))} (h : Consistent c entries (v :: vs))
    (hvalues : c.values = k :: values) :
    Consistent { c with values := values, dropped := k.map Prod.fst ++ c.dropped }
      entries vs where
  gMalloc := h.gMalloc
  allocs := h.allocs
  records := by
    refine h.records.trans (List.Perm.map some ?_)
    simp only [hvalues, List.flatten_cons, List.map_append, List.append_assoc]
    refine List.Perm.append_left _ ?_
    simp only [← List.append_assoc]
    exact List.perm_append_comm.append_right _
  entries := h.entries
  values := by
    have := h.values
    rw [hvalues] at this
    cases this with
    | cons _ this => exact this

theorem parserAt_drop {v : DbusAccess.YYSTYPE × YYSTYPE} :
    (ParserAt parser buf u cells (v :: vs) : Assertion (Block σ)) ≤
      ParserAt parser buf u cells vs := by
  refine parserAt_le ?_
  rintro c p rfl hactions hbuf hc
  obtain ⟨k, values, hk, -, he⟩ := List.forall₂_cons_left_iff.1 hc.values
  have hle := at_le parser hactions hbuf (hc.drop he)
  refine le_trans ?_ hle
  rw [at_values, at_values, he, chains_cons, Contents.Lists, Contents.Lists, loose_append]
  calc _ = v.2.chain k * (chains vs values * (single parser (.parser p) * owned c.cells *
        Chain gSListLinked p.allocList c.allocs none *
        Chain gSListLinked p.linkList c.records none *
        Chain gSListLinked p.entries c.entries none * loose c.dropped)) := by ac_rfl
    _ ≤ loose (k.map Prod.fst) * _ := mul_le_mul_left (agree_loose hk) _
    _ = _ := by ac_rfl

theorem parserAt_drops (args : List (DbusAccess.YYSTYPE × YYSTYPE)) :
    (ParserAt parser buf u cells (args ++ vs) : Assertion (Block σ)) ≤
      ParserAt parser buf u cells vs := by
  induction args with
  | nil => exact le_rfl
  | cons v args ih => exact parserAt_drop.trans ih

/-- A value without links of its own. -/
theorem parserAt_push {v : DbusAccess.YYSTYPE × YYSTYPE} (h : Agree cells v [])
    (hv : (v.2.chain [] : Assertion (Block σ)) = 1) :
    (ParserAt parser buf u cells vs : Assertion (Block σ)) ≤
      ParserAt parser buf u cells (v :: vs) := by
  refine parserAt_le ?_
  rintro c p rfl hactions hbuf hc
  have hc' : Consistent { c with values := [] :: c.values } u.entries (v :: vs) :=
    { gMalloc := hc.gMalloc
      allocs := hc.allocs
      records := hc.records
      entries := hc.entries
      values := .cons (h) hc.values }
  have hle := at_le parser hactions hbuf hc'
  rw [at_values, chains_cons, hv, one_mul] at hle
  rw [at_values]
  exact hle

/-- What is known of the values. -/
theorem parserAt_agree {b : Blocks (Block σ)} (hb : ParserAt parser buf u cells vs b) :
    ∀ v ∈ vs, ∃ links, Agree cells v links := by
  obtain ⟨c, hb⟩ := iSup_iff.1 hb
  obtain ⟨p, hb⟩ := iSup_iff.1 hb
  obtain ⟨⟨rfl, -, -, hc⟩, -⟩ := fact_mul.1 hb
  intro v hv
  obtain ⟨i, hi, rfl⟩ := List.mem_iff_getElem.1 hv
  have hlen := hc.values.length_eq
  exact ⟨c.values[i], hc.values.get hi (hlen ▸ hi)⟩

/-! The end of a parser. -/

theorem gSListForeach_triple {I : List (Option Addr) → Assertion (Block σ)}
    {func : Option Addr → Prog (Block σ) Unit} {links : List (Addr × Option Addr)}
    (hfunc : ∀ d ds, Triple (I (d :: ds)) (func d) fun _ => I ds) :
    Triple (Chain gSListLinked p links none * I (links.map Prod.snd)) (gSListForeach p func)
      fun _ => Chain gSListLinked p links none * I [] :=
  .bound (chain_atLeast.mul (.zero _)) fun n hn =>
    walk_triple (I := fun ds _ => I ds) (fun d ds _ => hfunc d ds) n hn ()

theorem gSListFreeFull_triple {I : List (Option Addr) → Assertion (Block σ)}
    {func : Option Addr → Prog (Block σ) Unit} {links : List (Addr × Option Addr)}
    (hfunc : ∀ d ds, Triple (I (d :: ds)) (func d) fun _ => I ds) (hI : I [] ≤ 1) :
    Triple (Chain gSListLinked p links none * I (links.map Prod.snd)) (gSListFreeFull p func)
      fun _ => 1 := by
  refine .bind (gSListForeach_triple hfunc) fun _ => ?_
  refine .mono ?_ (mul_le_mul_right hI _) fun _ => le_rfl
  rw [mul_one]
  exact .bound chain_atLeast fun n hn => freeLinks_triple (fun _ _ => rfl) n hn

theorem loose_perm {l l' : List Addr} (h : l.Perm l') :
    (loose l : Assertion (Block σ)) = loose l' := (h.map _).prod_eq

/-- The links that are recorded. -/
theorem records_triple {links : List (Addr × Option Addr)} {as : List Addr}
    (h : (links.map Prod.snd).Perm (as.map some)) :
    Triple (Chain gSListLinked p links none * loose as) (gSListFreeFull p gSListFree1)
      fun _ => (1 : Assertion (Block σ)) := by
  let I : List (Option Addr) → Assertion (Block σ) := fun ds =>
    ⨆ as, fact (ds.Perm (as.map some)) * loose as
  refine .mono (gSListFreeFull_triple (I := I) (fun d ds => .exist fun as => .fact fun hds => ?_)
    (iSup_le fun as b hb => ?_)) (mul_le_mul_right ?_ _) fun _ => le_rfl
  · obtain ⟨a, ha, rfl⟩ := List.mem_map.1 (hds.subset List.mem_cons_self)
    have hperm := List.perm_cons_erase ha
    have hrest := (hds.trans (hperm.map some)).cons_inv
    rw [loose_perm hperm, loose, List.map_cons, List.prod_cons, iSup_mul]
    refine .exist fun data => ?_
    rw [iSup_mul]
    refine .exist fun next => .last (release_triple rfl (.pure fun b hb => ?_))
    exact iSup_iff.2 ⟨as.erase a, fact_mul.2 ⟨hrest, hb⟩⟩
  · obtain ⟨has, hb⟩ := fact_mul.1 hb
    rw [List.map_eq_nil_iff.1 has.symm.eq_nil] at hb
    exact hb
  · exact fun b hb => iSup_iff.2 ⟨as, fact_mul.2 ⟨h, hb⟩⟩

/-- The other blocks. -/
theorem allocs_triple {links : List (Addr × Option Addr)}
    (h : links.map Prod.snd = cells.map (some ·.1)) (hmalloc : ∀ x ∈ cells, x.2.allocation = .gMalloc) :
    Triple (Chain gSListLinked p links none * owned cells) (gSListFreeFull p gFree)
      fun _ => (1 : Assertion (Block σ)) := by
  let I : List (Option Addr) → Assertion (Block σ) := fun ds =>
    ⨆ cells : List (Addr × Block σ), fact (ds = cells.map (some ·.1) ∧
      ∀ x ∈ cells, x.2.allocation = .gMalloc) * owned cells
  refine .mono (gSListFreeFull_triple (I := I) (fun d ds => .exist fun cells => .fact fun hds => ?_)
    (iSup_le fun cells b hb => ?_)) (mul_le_mul_right ?_ _) fun _ => le_rfl
  · obtain ⟨hds, hall⟩ := hds
    cases cells with
    | nil => cases hds
    | cons c cells =>
      obtain ⟨rfl, rfl⟩ := List.cons_eq_cons.1 hds
      obtain ⟨hc, hall⟩ := List.forall_mem_cons.1 hall
      rw [owned_cons]
      refine .last (release_triple hc (.pure fun b hb => ?_))
      exact iSup_iff.2 ⟨cells, fact_mul.2 ⟨⟨rfl, hall⟩, hb⟩⟩
  · obtain ⟨⟨hcells, -⟩, hb⟩ := fact_mul.1 hb
    rw [List.map_eq_nil_iff.1 hcells.symm] at hb
    exact hb
  · exact fun b hb => iSup_iff.2 ⟨cells, fact_mul.2 ⟨⟨h, hmalloc⟩, hb⟩⟩

theorem chains_loose {values : List (List (Addr × Option Addr))}
    (h : List.Forall₂ (Agree cells) vs values) :
    (chains vs values : Assertion (Block σ)) ≤ loose (values.flatten.map Prod.fst) := by
  induction h with
  | nil => exact le_rfl
  | cons hv _ ih =>
    rw [chains_cons, List.flatten_cons, List.map_append, loose_append]
    exact mul_le_mul' (agree_loose hv) ih

/-- Whatever state the parser is left in, everything is released. -/
theorem daParserDelete_triple (s : CString) :
    Triple (ParserAt parser buf u cells vs * single buf (.gString s)) (daParserDelete parser)
      fun _ => 1 := by
  refine parser_triple ?_
  rintro c p rfl - rfl hc
  have hle : c.At parser p vs ≤ single parser (.parser p) *
      (Chain gSListLinked p.linkList c.records none *
        loose (c.entries.map Prod.fst ++ c.values.flatten.map Prod.fst ++ c.dropped)) *
      (Chain gSListLinked p.allocList c.allocs none * owned c.cells) := by
    rw [at_values, Contents.Lists, loose_append, loose_append]
    calc chains vs c.values * (single parser (.parser p) * owned c.cells *
          Chain gSListLinked p.allocList c.allocs none *
          Chain gSListLinked p.linkList c.records none *
          Chain gSListLinked p.entries c.entries none * loose c.dropped)
        = chains vs c.values * Chain gSListLinked p.entries c.entries none *
          (single parser (.parser p) * owned c.cells *
          Chain gSListLinked p.allocList c.allocs none *
          Chain gSListLinked p.linkList c.records none * loose c.dropped) := by ac_rfl
      _ ≤ loose (c.values.flatten.map Prod.fst) * loose (c.entries.map Prod.fst) * _ :=
        mul_le_mul_left (mul_le_mul' (chains_loose hc.values) chain_loose) _
      _ = _ := by ac_rfl
  refine .mono ?_ (mul_le_mul_left hle _) fun _ => le_rfl
  rw [mul_assoc, mul_assoc, daParserDelete]
  refine readParser_triple ?_
  rw [mul_left_comm]
  refine (records_triple hc.records).call fun _ => ?_
  rw [one_mul, mul_left_comm]
  refine (allocs_triple hc.allocs hc.gMalloc).call fun _ => ?_
  rw [one_mul, mul_comm]
  refine release_triple rfl ?_
  rw [← mul_one (single _ _)]
  exact .last (release_triple rfl (.pure le_rfl))

end DbusAccess.InMemory
