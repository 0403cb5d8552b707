import DbusAccess.Proofs.PolicyLanguage
import DbusAccess.Spec.Policy

/-! What compiled policies decide: the matcher computes the Boolean reading of the
parsed trees, the last entry that applies wins, and equal policies decide alike. -/

namespace DbusAccess

open MaximalMunch

variable {σ : Type} (g : GPattern σ)

/-- Equal pattern specs match the same strings. -/
def GPattern.EqualSound : Prop :=
  ∀ p q, g.gPatternSpecEqual p q = true → ∀ s, g.gPatternMatchString p s = g.gPatternMatchString q s

/-! A pattern matcher for single bytes, and a table of one action. -/

/-- Patterns of single bytes; equal patterns are the same text. -/
def glob : CString → CString → Bool
  | [], s => s.isEmpty
  | c :: p, s =>
    if c = ch '*' then s.tails.any (glob p)
    else match s with
      | [] => false
      | d :: s => (c = ch '?' || c = d) && glob p s

def globPattern : GPattern CString where
  gPatternSpecNew p := p
  gPatternMatch p _ s := glob p s
  gPatternSpecEqual p q := p == q

theorem globPattern_equalSound : globPattern.EqualSound := by
  intro p q h s
  rw [show p = q from beq_iff_eq.1 h]

def exampleActions : List DAAction := [⟨str "Call", 7, 1⟩]

/-! Ids of compiled policies. -/

/-- The wildcard, the invalid id, or an id that fits into a nonnegative `int`. -/
def IdOk (id : ℤ) : Prop := id = DA_WILDCARD ∨ id = DA_INVALID ∨ (0 ≤ id ∧ id < 2 ^ 31)

def DAParserExpr.IdsOk : DAParserExpr → Prop
  | .identity uid gid => IdOk uid ∧ IdOk gid
  | .not operand => operand.IdsOk
  | .and left right => left.IdsOk ∧ right.IdsOk
  | .or left right => left.IdsOk ∧ right.IdsOk
  | _ => True

/-- Numbers fit into an `int`. -/
def Token.NumberOk : Token → Prop
  | .NUMBER n => n < 2 ^ 31
  | _ => True

theorem number_numberOk (yytext : CString) : (number yytext).NumberOk := by
  simp only [number]
  split_ifs
  · exact toInt_upper _
  · trivial

theorem allRules_numberOk : ∀ r ∈ allRules, ∀ s u t, (r.2.act s u).2 = some t → t.NumberOk := by
  have hword : ∀ u, (wordToken u).NumberOk := by
    intro u
    rw [wordToken]
    split_ifs <;> trivial
  have hchar : ∀ (u : CString) (t : Token), u.head?.map Token.char = some t → t.NumberOk := by
    intro u t h
    obtain ⟨c, -, rfl⟩ := Option.map_eq_some_iff.1 h
    trivial
  simp only [allRules, List.forall_mem_cons, List.not_mem_nil, false_implies, implies_true,
    and_true]
  and_intros
  all_goals
    intro s u t h
    first
      | exact hchar u t h
      | cases h
  all_goals first | exact number_numberOk u | exact hword u | trivial

/-- No number of a text is larger. -/
theorem tokens_numberOk (host : Host) (spec : CString) : ∀ t ∈ tokens host spec, t.NumberOk := by
  intro t ht
  refine scan_forall (P := Token.NumberOk) ?_ _ _ t (List.takeWhile_subset _ ht)
  intro s r hr u t _ h
  obtain ⟨r', hr', he⟩ := List.mem_map.1 hr
  rw [← he] at h
  exact allRules_numberOk r' (List.mem_filter.1 hr').1 s u t h

theorem numberId_ok {n : ℤ} (h : n < 2 ^ 31) : IdOk (numberId n) := by
  unfold numberId
  split_ifs
  · exact Or.inl rfl
  · exact Or.inr (Or.inr ⟨by omega, h⟩)

theorem wordId_ok {n : ℤ} (h : n < 2 ^ 31) : IdOk (wordId n) := by
  unfold wordId
  split_ifs
  · exact Or.inr (Or.inl rfl)
  · exact Or.inr (Or.inr ⟨by omega, h⟩)

theorem daSystemUid_lt (host : Host) (user : CString) : daSystemUid host user < 2 ^ 31 := by
  unfold daSystemUid
  split
  · exact toInt_upper _
  · decide

theorem daSystemGid_lt (host : Host) (group : CString) : daSystemGid host group < 2 ^ 31 := by
  unfold daSystemGid
  split
  · exact toInt_upper _
  · decide

theorem DerivesId.idOk (host : Host) {us : List Token} {u : IdSyntax} (h : DerivesId us u)
    (hn : ∀ t ∈ us, t.NumberOk) : IdOk (u.uid host) ∧ IdOk (u.gid host) := by
  cases h with
  | number n =>
    have hlt : n < 2 ^ 31 := hn (.NUMBER n) (by simp)
    exact ⟨numberId_ok hlt, numberId_ok hlt⟩
  | wildcard => exact ⟨Or.inl rfl, Or.inl rfl⟩
  | word w => exact ⟨wordId_ok (daSystemUid_lt host w), wordId_ok (daSystemGid_lt host w)⟩

theorem DerivesTerm.idsOk (host : Host) (actions : Option (List DAAction)) {us : List Token}
    {t : TermSyntax} (h : DerivesTerm us t) (hn : ∀ t ∈ us, t.NumberOk) :
    (t.tree host actions).IdsOk := by
  have hwild : IdOk DA_WILDCARD := Or.inl rfl
  have hcustom : ∀ name param, ((TermSyntax.action name param).tree host actions).IdsOk := by
    intro name param
    rw [TermSyntax.tree]
    split <;> trivial
  cases h with
  | user hu => exact ⟨(hu.idOk host fun t ht => hn t (by simp [ht])).1, hwild⟩
  | userGroup hu hg =>
    exact ⟨(hu.idOk host fun t ht => hn t (by simp [ht])).1,
      (hg.idOk host fun t ht => hn t (by simp [ht])).2⟩
  | group hg => exact ⟨hwild, (hg.idOk host fun t ht => hn t (by simp [ht])).2⟩
  | action name => exact hcustom name none
  | actionParam name => exact hcustom name _

theorem DerivesExpr.idsOk (host : Host) (actions : Option (List DAAction)) {l : Level}
    {us : List Token} {x : ExprSyntax} (h : DerivesExpr l us x) (hn : ∀ t ∈ us, t.NumberOk) :
    (x.tree host actions).IdsOk := by
  induction h with
  | term ht => exact ht.idsOk host actions hn
  | paren _ ih => exact ih fun t ht => hn t (by simp [ht])
  | prim _ ih => exact ih hn
  | not _ ih => exact ih fun t ht => hn t (by simp [ht])
  | or _ _ ihx ihy =>
    exact ⟨ihx fun t ht => hn t (by simp [ht]), ihy fun t ht => hn t (by simp [ht])⟩
  | and _ _ ihx ihy =>
    exact ⟨ihx fun t ht => hn t (by simp [ht]), ihy fun t ht => hn t (by simp [ht])⟩

theorem DerivesEntry.idsOk (host : Host) (actions : Option (List DAAction)) {us : List Token}
    {e : EntrySyntax} (h : DerivesEntry us e) (hn : ∀ t ∈ us, t.NumberOk) :
    (e.entry host actions).expr.IdsOk := by
  cases h with
  | wildcard => trivial
  | expr hx => exact hx.idsOk host actions hn
  | access hx => exact hx.idsOk host actions fun t ht => hn t (by simp [ht])

theorem DerivesMore.idsOk (host : Host) (actions : Option (List DAAction)) {us : List Token}
    {es : List EntrySyntax} (h : DerivesMore us es) (hn : ∀ t ∈ us, t.NumberOk) :
    ∀ e ∈ es, (e.entry host actions).expr.IdsOk := by
  induction h with
  | none => simp
  | final => simp
  | entry he _ ih =>
    refine List.forall_mem_cons.2 ⟨he.idsOk host actions fun t ht => hn t (by simp [ht]), ?_⟩
    exact ih fun t ht => hn t (by simp [ht])

theorem DerivesPolicy.idsOk (host : Host) (actions : Option (List DAAction)) {us : List Token}
    {pol : PolicySyntax} (h : DerivesPolicy us pol) (hn : ∀ t ∈ us, t.NumberOk) :
    ∀ e ∈ pol.result host actions, e.expr.IdsOk := by
  intro e' he'
  obtain ⟨e, hmem, rfl⟩ := List.mem_map.1 he'
  have hcons : ∀ (ts us' : List Token) (e0 : EntrySyntax) (es : List EntrySyntax),
      DerivesEntry ts e0 → DerivesMore us' es → (∀ t ∈ ts ++ us', t.NumberOk) → e ∈ e0 :: es →
      (e.entry host actions).expr.IdsOk := by
    intro ts us' e0 es he hm hn hmem
    rcases List.mem_cons.1 hmem with rfl | hmem
    · exact he.idsOk host actions fun t ht => hn t (by simp [ht])
    · exact hm.idsOk host actions (fun t ht => hn t (by simp [ht])) e hmem
  cases h with
  | version => simp at hmem
  | versionEntries n he hm => exact hcons _ _ _ _ he hm (fun t ht => hn t (by simp_all)) hmem
  | entries he hm => exact hcons _ _ _ _ he hm hn hmem

/-- The parser leaves no other ids in the trees it returns. -/
theorem daParserCompile_idsOk {host : Host} {spec : CString} {actions : Option (List DAAction)}
    {parser : DAParser} (h : daParserCompile host (some spec) actions = some parser) :
    ∀ e ∈ daParserGetResult parser, e.expr.IdsOk := by
  obtain ⟨pol, hd, -, rfl⟩ := daParserCompile_eq_some.1 h
  exact hd.idsOk host actions (tokens_numberOk host spec)

/-! The matcher. -/

theorem means_iff {id : ℤ} {id' : UInt32} (h : IdOk id) (hw : id ≠ DA_WILDCARD) :
    (id ≠ DA_INVALID ∧ idEq id id' = true) ↔ Means id id' := by
  unfold Means
  rcases h with rfl | rfl | ⟨h0, h1⟩
  · exact absurd rfl hw
  · simp [DA_INVALID]
  · rw [idEq_iff h0 h1]
    refine and_congr_left fun _ => iff_of_true ?_ h0
    rintro rfl
    exact absurd h0 (by decide)

theorem matchUser_iff {uid : ℤ} (h : IdOk uid) (cred : Option DACred) :
    daPolicyExprIdentityMatchUser uid cred = true ↔
      uid = DA_WILDCARD ∨ ∃ c, cred = some c ∧ Means uid c.euid := by
  unfold daPolicyExprIdentityMatchUser
  by_cases hw : uid = DA_WILDCARD
  · simp [hw]
  · cases cred with
    | none => simp [hw]
    | some c => simp [hw, ← means_iff h hw]

theorem matchGroup_iff {gid : ℤ} (h : IdOk gid) (cred : Option DACred) :
    daPolicyExprIdentityMatchGroup gid cred = true ↔
      gid = DA_WILDCARD ∨ ∃ c, cred = some c ∧ ∃ id ∈ c.egid :: c.groups, Means gid id := by
  unfold daPolicyExprIdentityMatchGroup
  by_cases hw : gid = DA_WILDCARD
  · simp [hw]
  · cases cred with
    | none => simp [hw]
    | some c =>
      by_cases hi : gid = DA_INVALID
      · subst hi
        simp [Means, DA_INVALID]
      · simp [hw, hi, ← means_iff h hw]

theorem customMatch_iff (action : UInt32) (param : Option CString) (pc : DAPolicyCheck) :
    daPolicyExprMatch g pc (daPolicyExprCustomNew g action param) = true ↔
      (DAParserExpr.custom action param).Holds g pc := by
  obtain ⟨cred, action', arg⟩ := pc
  simp only [daPolicyExprCustomNew, daPolicyExprMatch, daPolicyExprCustomMatch, DAParserExpr.Holds]
  by_cases ha : action' = action
  swap
  · simp [ha]
  cases param with
  | none => cases arg <;> simp [ha]
  | some p =>
    by_cases hp : p = str "*"
    · cases arg <;> simp [ha, hp]
    · cases arg <;> simp [ha, hp, GPattern.gPatternMatchString]

/-- Induction on the tree. -/
theorem match_new {x : DAParserExpr} (h : x.IdsOk) (pc : DAPolicyCheck) :
    daPolicyExprMatch g pc (daPolicyExprNew g x) = true ↔ x.Holds g pc := by
  induction x with
  | null => simp [daPolicyExprNew, daPolicyExprMatch, DAParserExpr.Holds]
  | identity uid gid =>
    simp only [daPolicyExprNew, daPolicyExprMatch, daPolicyExprIdentityMatch, Bool.and_eq_true]
    rw [matchUser_iff h.1, matchGroup_iff h.2]
    rfl
  | custom action param => exact customMatch_iff g action param pc
  | not operand ih =>
    simp only [daPolicyExprNew, daPolicyExprMatch, DAParserExpr.Holds]
    rw [← ih h, Bool.not_eq_true', Bool.not_eq_true]
  | and left right ihl ihr =>
    simp only [daPolicyExprNew, daPolicyExprMatch, DAParserExpr.Holds]
    rw [← ihl h.1, ← ihr h.2, Bool.and_eq_true]
  | or left right ihl ihr =>
    simp only [daPolicyExprNew, daPolicyExprMatch, DAParserExpr.Holds]
    rw [← ihl h.1, ← ihr h.2, Bool.or_eq_true]

/-! Order of the entries. -/

theorem linkLast_eq (entry : DAPolicyEntry σ) (l : List (DAPolicyEntry σ)) :
    linkLast entry l = l ++ [entry] := by
  induction l with
  | nil => rfl
  | cons last next ih => rw [linkLast, ih, List.cons_append]

theorem foldl_addEntry (es : List DAParserEntry) (policy : DAPolicy σ) :
    (es.foldl (daPolicyAddEntry g) policy).entries =
      policy.entries ++ es.map fun e => ⟨e.access, daPolicyExprNew g e.expr⟩ := by
  induction es generalizing policy with
  | nil => simp
  | cons e es ih =>
    rw [List.foldl_cons, ih, daPolicyAddEntry, linkLast_eq, List.map_cons, List.append_assoc]
    rfl

theorem daPolicyNewFull_eq {host : Host} {spec : Option CString}
    {actions : Option (List DAAction)} {parser : DAParser}
    (h : daParserCompile host spec actions = some parser) :
    daPolicyNewFull g host spec actions = some ⟨(daParserGetResult parser).map fun e =>
      ⟨e.access, daPolicyExprNew g e.expr⟩⟩ := by
  rw [daPolicyNewFull, h]
  simp only
  rw [show (daParserGetResult parser).foldl (daPolicyAddEntry g) ⟨[]⟩ =
    ⟨((daParserGetResult parser).foldl (daPolicyAddEntry g) ⟨[]⟩).entries⟩ from rfl,
    foldl_addEntry, List.nil_append]

/-- A loop in which every applicable element overrides the result. -/
theorem foldl_override {α β : Type} (p : α → Bool) (f : α → β) (l : List α) (d : β) :
    l.foldl (fun r a => if p a then f a else r) d = ((l.filter p).getLast?.map f).getD d := by
  induction l generalizing d with
  | nil => rfl
  | cons a l ih =>
    rw [List.foldl_cons, ih]
    by_cases ha : p a
    · rw [List.filter_cons_of_pos ha, List.getLast?_cons]
      cases (l.filter p).getLast? with
      | none => simp [ha]
      | some b => rfl
    · rw [List.filter_cons_of_neg ha]
      simp [ha]

open Classical in
theorem daPolicyCheck_eq (entries : List DAParserEntry) (hids : ∀ e ∈ entries, e.expr.IdsOk)
    (cred : Option DACred) (action : UInt32) (arg : Option CString) (default : DAAccess) :
    daPolicyCheck g (some ⟨entries.map fun e => ⟨e.access, daPolicyExprNew g e.expr⟩⟩)
      cred action arg default = decision g entries cred action arg default := by
  by_cases hroot : ∃ c, cred = some c ∧ c.euid = 0
  · obtain ⟨c, rfl, hc⟩ := hroot
    simp [daPolicyCheck, decision, hc]
  · have hany : cred.any (·.euid == 0) = false := by
      cases cred with
      | none => rfl
      | some c => simpa using hroot
    simp only [daPolicyCheck, hany, Bool.false_eq_true, if_false, decision, if_neg hroot,
      List.foldl_map]
    rw [foldl_override]
    have hfilter : entries.filter
          (fun e => daPolicyExprMatch g ⟨cred, action, arg⟩ (daPolicyExprNew g e.expr)) =
        entries.filter (fun e => e.expr.Holds g ⟨cred, action, arg⟩) := by
      refine List.filter_congr fun e he => ?_
      rw [Bool.eq_iff_iff, match_new g (hids e he), decide_eq_true_iff]
    rw [hfilter]

/-- Every compiled policy decides as its parsed entries say. -/
theorem daPolicyCheck_newFull (host : Host) (spec : Option CString)
    (actions : Option (List DAAction)) (parser : DAParser)
    (h : daParserCompile host spec actions = some parser) (cred : Option DACred)
    (action : UInt32) (arg : Option CString) (default : DAAccess) :
    ∃ policy, daPolicyNewFull g host spec actions = some policy ∧
      daPolicyCheck g (some policy) cred action arg default =
        decision g (daParserGetResult parser) cred action arg default := by
  have hids : ∀ e ∈ daParserGetResult parser, e.expr.IdsOk := by
    cases spec with
    | none => cases h
    | some spec => exact daParserCompile_idsOk h
  exact ⟨_, daPolicyNewFull_eq g h, daPolicyCheck_eq g _ hids cred action arg default⟩

theorem daPolicyCheck_newFull_call :
    ∃ policy, daPolicyNewFull globPattern exampleHost
        (some (str "1; *=deny; user(1) & Call(a*)")) (some exampleActions) = some policy ∧
      daPolicyCheck globPattern (some policy) (some ⟨1, 1, [], 0, 0⟩) 7 (some (str "ab")) .DENY =
        decision globPattern
          [⟨.null, .DENY⟩, ⟨.and (.identity 1 (-1)) (.custom 7 (some (str "a*"))), .ALLOW⟩]
          (some ⟨1, 1, [], 0, 0⟩) 7 (some (str "ab")) .DENY :=
  daPolicyCheck_newFull globPattern exampleHost _ _ ⟨some exampleActions, _⟩ (by decide +kernel)
    _ _ _ _

/-! Equality of policies. -/

variable {g}

theorem customEqual_match (hg : g.EqualSound) {action1 action2 : UInt32}
    {pattern1 pattern2 : Option σ} (pc : DAPolicyCheck)
    (h : daPolicyExprCustomEqual g action1 pattern1 action2 pattern2 = true) :
    daPolicyExprCustomMatch g action1 pattern1 pc =
      daPolicyExprCustomMatch g action2 pattern2 pc := by
  unfold daPolicyExprCustomEqual at h
  rw [Bool.and_eq_true, beq_iff_eq] at h
  obtain ⟨rfl, h⟩ := h
  unfold daPolicyExprCustomMatch
  cases pattern1 with
  | none =>
    cases pattern2 with
    | none => rfl
    | some q => cases h
  | some p =>
    cases pattern2 with
    | none => cases h
    | some q =>
      have hs := hg p q h
      simp only [GPattern.gPatternMatchString] at hs
      cases pc.arg with
      | none => rfl
      | some arg => simp only [hs arg]

/-- Both pairings of the operands. -/
private theorem binaryEqual_cases {a b c d : Bool} (h : (a && b || c && d) = true) :
    (a = true ∧ b = true) ∨ (c = true ∧ d = true) := by
  simpa only [Bool.or_eq_true, Bool.and_eq_true] using h

/-- Induction on the first expression, cases of the second. -/
theorem exprEqual_match (hg : g.EqualSound) (pc : DAPolicyCheck) {x y : DAPolicyExpr σ}
    (h : daPolicyExprEqual g x y = true) :
    daPolicyExprMatch g pc x = daPolicyExprMatch g pc y := by
  induction x generalizing y with
  | null => cases y <;> first | rfl | cases h
  | and left1 right1 ihl ihr =>
    cases y with
    | and left2 right2 =>
      simp only [daPolicyExprMatch]
      rcases binaryEqual_cases h with ⟨hl, hr⟩ | ⟨hl, hr⟩
      · rw [ihl hl, ihr hr]
      · rw [ihl hl, ihr hr, Bool.and_comm]
    | _ => cases h
  | or left1 right1 ihl ihr =>
    cases y with
    | or left2 right2 =>
      simp only [daPolicyExprMatch]
      rcases binaryEqual_cases h with ⟨hl, hr⟩ | ⟨hl, hr⟩
      · rw [ihl hl, ihr hr]
      · rw [ihl hl, ihr hr, Bool.or_comm]
    | _ => cases h
  | not operand1 ih =>
    cases y with
    | not operand2 => rw [daPolicyExprMatch, daPolicyExprMatch, ih h]
    | _ => cases h
  | identity uid1 gid1 =>
    cases y with
    | identity uid2 gid2 =>
      simp only [daPolicyExprEqual, Bool.and_eq_true, beq_iff_eq] at h
      rw [h.1, h.2]
    | _ => cases h
  | custom action1 pattern1 =>
    cases y with
    | custom action2 pattern2 => exact customEqual_match hg pc h
    | _ => cases h

/-- The walk over both lists, and the loop of the check. -/
theorem entriesEqual_foldl (hg : g.EqualSound) (pc : DAPolicyCheck)
    {l1 l2 : List (DAPolicyEntry σ)} (h : entriesEqual g l1 l2 = true) (result : DAAccess) :
    l1.foldl (fun result entry =>
        if daPolicyExprMatch g pc entry.expr then entry.access else result) result =
      l2.foldl (fun result entry =>
        if daPolicyExprMatch g pc entry.expr then entry.access else result) result := by
  induction l1 generalizing l2 result with
  | nil =>
    cases l2 with
    | nil => rfl
    | cons => cases h
  | cons e1 next1 ih =>
    cases l2 with
    | nil => cases h
    | cons e2 next2 =>
      rw [entriesEqual] at h
      split_ifs at h with hne
      simp only [Bool.or_eq_true, Bool.not_eq_true', bne_iff_ne, not_or, Bool.not_eq_false,
        not_not] at hne
      rw [List.foldl_cons, List.foldl_cons, exprEqual_match hg pc hne.1, hne.2]
      exact ih h _

/-- Policies found equal give the same access, whatever is asked. -/
theorem daPolicyEqual_check (hg : g.EqualSound) (mem : Addr → DAPolicy σ) (p1 p2 : Option Addr)
    (h : daPolicyEqual g mem p1 p2 = true) (cred : Option DACred) (action : UInt32)
    (arg : Option CString) (default : DAAccess) :
    daPolicyCheck g (p1.map mem) cred action arg default =
      daPolicyCheck g (p2.map mem) cred action arg default := by
  unfold daPolicyEqual at h
  split_ifs at h with hp
  · rw [hp]
  cases p1 with
  | none => cases p2 <;> cases h
  | some p1 =>
    cases p2 with
    | none => cases h
    | some p2 =>
      simp only [daPolicyCheck, Option.map_some]
      split_ifs
      · rfl
      · exact entriesEqual_foldl hg _ h default

/-- Two policies that differ in the order of the operands. -/
def commutedPolicies : Addr → DAPolicy CString
  | 0 => ⟨[⟨.DENY, .or (.identity 1 (-1)) (.custom 7 (some (str "a*")))⟩]⟩
  | _ => ⟨[⟨.DENY, .or (.custom 7 (some (str "a*"))) (.identity 1 (-1))⟩]⟩

theorem daPolicyEqual_check_commuted :
    daPolicyCheck globPattern ((some 0).map commutedPolicies) none 7 (some (str "ab")) .ALLOW =
      daPolicyCheck globPattern ((some 1).map commutedPolicies) none 7 (some (str "ab")) .ALLOW :=
  daPolicyEqual_check globPattern_equalSound commutedPolicies (some 0) (some 1) (by decide) _ _ _ _

end DbusAccess
