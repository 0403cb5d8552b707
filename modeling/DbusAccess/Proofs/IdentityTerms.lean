import DbusAccess.Proofs.NamedIds

/-! A user together with a group is the user and the group, wherever it is written. -/

namespace DbusAccess

open MaximalMunch Numerals

variable {σ : Type} {g : GPattern σ} {host : Host} {actions : Option (List DAAction)}
  {pre post x u v : CString} {A B seg ts us : List Token} {t t1 t2 : Token} {s : TermSyntax}
  {pol : PolicySyntax} {z z' : ExprSyntax}

/-! How a user or a group can be written. -/

/-- A numeral, a name, or `*`. -/
def IdSpelling (u : CString) : Prop := u ≠ [] ∧ ∀ c ∈ u, isWord c = true

def idToken (u : CString) : Token := if u.all isDigit then number u else wordToken u

theorem IdSpelling.reads (h : IdSpelling u) : ReadsArg u (idToken u) := by
  obtain ⟨hne, hw⟩ := h
  rw [idToken]
  split_ifs with hd
  · exact readsArg_of_scan (scan_digits hne (List.all_eq_true.1 hd))
  · exact readsArg_of_scan (scan_word hne hw (by simpa using hd))

theorem idToken_no_end (host : Host) (u : CString) : isEndOfInput host (idToken u) = false := by
  rw [idToken, wordToken]
  split_ifs
  · simp only [number]
    split_ifs <;> rfl
  · rfl
  · rfl

/-! The two ways to write it. -/

/-- `(user(u)&group(v))` -/
def splitText (u v : CString) : CString :=
  str "(user(" ++ u ++ str ")&group(" ++ v ++ str "))"

def pairTokens (t1 t2 : Token) : List Token := [.USER, tLparen, t1, tColon, t2, tRparen]

def splitTokens (t1 t2 : Token) : List Token :=
  tLparen :: [.USER, tLparen, t1, tRparen] ++ tAmp :: [.GROUP, tLparen, t2, tRparen] ++ [tRparen]

theorem scanAll_split (hu : IdSpelling u) (hv : IdSpelling v) (post : CString) :
    scanAll (splitText u v ++ post) = splitTokens (idToken u) (idToken v) ++ scanAll post := by
  have hgroup : TermText (str "group") v (str "group" ++ [] ++ str "(" ++ [] ++ v ++ [] ++ str ")") :=
    .mk rfl rfl rfl
  have huser : TermText (str "user") u (str "user" ++ [] ++ str "(" ++ [] ++ u ++ [] ++ str ")") :=
    .mk rfl rfl rfl
  have htext : splitText u v ++ post = ch '(' :: ((str "user" ++ [] ++ str "(" ++ [] ++ u ++ [] ++
      str ")") ++ ch '&' :: ((str "group" ++ [] ++ str "(" ++ [] ++ v ++ [] ++ str ")") ++
        ch ')' :: post)) := by
    simp [splitText, str]
  rw [htext, scanAll_punctuation (by decide), scanAll_user huser hu.reads,
    scanAll_punctuation (by decide), scanAll_group hgroup hv.reads,
    scanAll_punctuation (by decide)]
  simp [splitTokens]

theorem char_no_end (host : Host) {c : UInt8} (hc : c ∈ policyChars) :
    isEndOfInput host (.char c) = false :=
  Token.CharIn.no_end (show (Token.char c).CharIn policyChars from hc) host

theorem pairTokens_no_end (h1 : isEndOfInput host t1 = false) (h2 : isEndOfInput host t2 = false) :
    ∀ t ∈ pairTokens t1 t2, isEndOfInput host t = false := by
  have hch : ∀ {c}, c ∈ policyChars → isEndOfInput host (.char c) = false := char_no_end host
  simp only [pairTokens, List.forall_mem_cons]
  exact ⟨rfl, hch (by decide), h1, hch (by decide), h2, hch (by decide), by simp⟩

theorem splitTokens_no_end (h1 : isEndOfInput host t1 = false)
    (h2 : isEndOfInput host t2 = false) :
    ∀ t ∈ splitTokens t1 t2, isEndOfInput host t = false := by
  have hch : ∀ {c}, c ∈ policyChars → isEndOfInput host (.char c) = false := char_no_end host
  simp only [splitTokens, List.cons_append, List.nil_append, List.forall_mem_cons]
  exact ⟨hch (by decide), rfl, hch (by decide), h1, hch (by decide), hch (by decide), rfl,
    hch (by decide), h2, hch (by decide), hch (by decide), by simp⟩

/-! What the derivation of a policy says about the tokens. -/

theorem DerivesId.eq_singleton {a : IdSyntax} (h : DerivesId us a) : ∃ t, us = [t] := by
  cases h <;> exact ⟨_, rfl⟩

theorem DerivesTerm.user_arg (h : DerivesTerm seg s)
    (hseg : .USER :: tLparen :: t :: A = seg ++ B) : ∃ a, DerivesId [t] a := by
  cases h with
  | user hu =>
    obtain ⟨t', rfl⟩ := hu.eq_singleton
    simp only [List.cons_append, List.cons.injEq, true_and] at hseg
    rw [hseg.1]
    exact ⟨_, hu⟩
  | userGroup hu hg =>
    obtain ⟨t', rfl⟩ := hu.eq_singleton
    simp only [List.cons_append, List.cons.injEq, true_and] at hseg
    rw [hseg.1]
    exact ⟨_, hu⟩
  | _ => simp at hseg

theorem DerivesTerm.group_arg (h : DerivesTerm seg s)
    (hseg : .GROUP :: tLparen :: t :: A = seg ++ B) : ∃ a, DerivesId [t] a := by
  cases h with
  | group hg =>
    obtain ⟨t', rfl⟩ := hg.eq_singleton
    simp only [List.cons_append, List.cons.injEq, true_and] at hseg
    rw [hseg.1]
    exact ⟨_, hg⟩
  | _ => simp at hseg

theorem DerivesTerm.pair_args (h : DerivesTerm seg s)
    (hseg : .USER :: tLparen :: t1 :: tColon :: t2 :: A = seg ++ B) :
    (∃ a, DerivesId [t1] a) ∧ ∃ b, DerivesId [t2] b := by
  refine ⟨h.user_arg hseg, ?_⟩
  cases h with
  | user hu =>
    obtain ⟨t', rfl⟩ := hu.eq_singleton
    simp [ch] at hseg
  | userGroup hu hg =>
    obtain ⟨t', rfl⟩ := hu.eq_singleton
    obtain ⟨t'', rfl⟩ := hg.eq_singleton
    simp only [List.cons_append, List.cons.injEq, true_and, List.nil_append] at hseg
    rw [hseg.2.1]
    exact ⟨_, hg⟩
  | _ => simp at hseg

theorem DerivesPolicy.pair_args (h : DerivesPolicy (A ++ pairTokens t1 t2 ++ B) pol) :
    (∃ a, DerivesId [t1] a) ∧ ∃ b, DerivesId [t2] b := by
  rw [List.append_assoc] at h
  obtain ⟨c, seg, B', s, hB, hs, -, -⟩ := h.hole (t := .USER) trivial rfl
  exact hs.pair_args hB

/-- The parenthesis in front of a head is not that of a term. -/
theorem DerivesPolicy.paren_head (h : DerivesPolicy (A ++ tLparen :: t :: B) pol)
    (ht : TermHead t) : OperandHead A tLparen := by
  refine Or.inr ⟨rfl, fun head hlast hhead => ?_⟩
  obtain ⟨A', rfl⟩ : ∃ A', A = A' ++ [head] := List.getLast?_eq_some_iff.1 hlast
  have heq : A' ++ [head] ++ tLparen :: t :: B = A' ++ head :: (tLparen :: t :: B) := by simp
  obtain ⟨c, seg, B', s, hB, hs, -, -⟩ := h.hole hhead heq
  obtain ⟨head', t', ts, rfl, -, hts⟩ := hs.shape
  simp only [List.cons_append, List.cons.injEq, true_and] at hB
  rw [hB.2.1] at ht
  exact (hts t' (List.mem_cons_self ..)).1 ht

theorem DerivesPolicy.split_args (h : DerivesPolicy (A ++ splitTokens t1 t2 ++ B) pol) :
    OperandHead A tLparen ∧ (∃ a, DerivesId [t1] a) ∧ ∃ b, DerivesId [t2] b := by
  have huser : A ++ splitTokens t1 t2 ++ B = (A ++ [tLparen]) ++ .USER :: tLparen :: t1 ::
      (tRparen :: tAmp :: .GROUP :: tLparen :: t2 :: tRparen :: tRparen :: B) := by
    simp [splitTokens]
  have hgroup : A ++ splitTokens t1 t2 ++ B = (A ++ [tLparen, .USER, tLparen, t1, tRparen, tAmp]) ++
      .GROUP :: tLparen :: t2 :: (tRparen :: tRparen :: B) := by
    simp [splitTokens]
  obtain ⟨-, _, _, _, hB, hs, -, -⟩ := h.hole (t := .USER) trivial huser
  obtain ⟨-, _, _, _, hB', hs', -, -⟩ := h.hole (t := .GROUP) trivial hgroup
  refine ⟨?_, hs.user_arg hB, hs'.group_arg hB'⟩
  rw [List.append_assoc] at h
  exact h.paren_head (t := .USER) trivial

/-! Both ways decide alike. -/

/-- Induction on the context: operators see equal results. -/
theorem ExprContext.matches_plug (c : ExprContext)
    (h : ∀ pc, z.matches g host actions pc = z'.matches g host actions pc) (pc : DAPolicyCheck) :
    (c.plug z).matches g host actions pc = (c.plug z').matches g host actions pc := by
  induction c with
  | hole => exact h pc
  | not c ih => exact congrArg (!·) ih
  | orLeft c y ih => exact congrArg (· || y.matches g host actions pc) ih
  | orRight x c ih => exact congrArg (x.matches g host actions pc || ·) ih
  | andLeft c y ih => exact congrArg (· && y.matches g host actions pc) ih
  | andRight x c ih => exact congrArg (x.matches g host actions pc && ·) ih

theorem PolicyContext.check_plug (c : PolicyContext)
    (h : ∀ pc, z.matches g host actions pc = z'.matches g host actions pc)
    (cred : Option DACred) (action : UInt32) (arg : Option CString) (default : DAAccess) :
    daPolicyCheck g (some (compiled g ((c.plug z).result host actions))) cred action arg default =
      daPolicyCheck g (some (compiled g ((c.plug z').result host actions))) cred action arg
        default := by
  have hplug := c.expr.matches_plug h ⟨cred, action, arg⟩
  unfold ExprSyntax.matches at hplug
  simp only [daPolicyCheck, compiled, PolicySyntax.result, PolicyContext.plug, List.map_append,
    List.map_cons, List.foldl_append, List.foldl_cons, EntrySyntax.entry, hplug]

/-- The wildcard for the other of both is no condition. -/
theorem matches_split (a b : IdSyntax) (pc : DAPolicyCheck) :
    (ExprSyntax.term (.userGroup a b)).matches g host actions pc =
      (ExprSyntax.and (.term (.user a)) (.term (.group b))).matches g host actions pc := by
  rw [Bool.eq_iff_iff, matches_pair]
  change _ ↔ ((ExprSyntax.term (.user a)).matches g host actions pc &&
    (ExprSyntax.term (.group b)).matches g host actions pc) = true
  rw [Bool.and_eq_true, matches_user, matches_group]

/-! Both ways in a text. -/

abbrev pairSyntax (a b : IdSyntax) : ExprSyntax := .term (.userGroup a b)

abbrev splitSyntax (a b : IdSyntax) : ExprSyntax := .and (.term (.user a)) (.term (.group b))

theorem derives_pair {a b : IdSyntax} (ha : DerivesId [t1] a) (hb : DerivesId [t2] b) :
    DerivesExpr .P (pairTokens t1 t2) (pairSyntax a b) :=
  .term (.userGroup ha hb)

theorem derives_split {a b : IdSyntax} (ha : DerivesId [t1] a) (hb : DerivesId [t2] b) :
    DerivesExpr .P (splitTokens t1 t2) (splitSyntax a b) :=
  .paren (.and (.term (.user ha)) (.prim (.term (.group hb))))

theorem DerivesPolicy.split (h : DerivesPolicy (ts ++ pairTokens t1 t2 ++ B) pol) :
    ∃ (c : PolicyContext) (a b : IdSyntax), pol = c.plug (pairSyntax a b) ∧
      DerivesPolicy (ts ++ splitTokens t1 t2 ++ B) (c.plug (splitSyntax a b)) := by
  obtain ⟨⟨a, ha⟩, ⟨b, hb⟩⟩ := h.pair_args
  obtain ⟨c, hpol, hc⟩ := h.exchange (derives_pair ha hb) rfl (Or.inl trivial)
  exact ⟨c, a, b, hpol, hc _ _ (derives_split ha hb)⟩

theorem DerivesPolicy.unsplit (h : DerivesPolicy (ts ++ splitTokens t1 t2 ++ B) pol) :
    ∃ (c : PolicyContext) (a b : IdSyntax), pol = c.plug (splitSyntax a b) ∧
      DerivesPolicy (ts ++ pairTokens t1 t2 ++ B) (c.plug (pairSyntax a b)) := by
  obtain ⟨hhead, ⟨a, ha⟩, ⟨b, hb⟩⟩ := h.split_args
  obtain ⟨c, hpol, hc⟩ := h.exchange (derives_split ha hb) rfl hhead
  exact ⟨c, a, b, hpol, hc _ _ (derives_pair ha hb)⟩

variable (actions) in
/-- Both texts are no policy, or policies with the same context around the pair. -/
theorem compile_split {y : CString} (hx : tokens host x = ts ++ pairTokens t1 t2 ++ B)
    (hy : tokens host y = ts ++ splitTokens t1 t2 ++ B) :
    (daParserCompile host (some x) actions = none ∧
      daParserCompile host (some y) actions = none) ∨
    ∃ (c : PolicyContext) (a b : IdSyntax),
      daParserCompile host (some x) actions =
        some ⟨actions, (c.plug (pairSyntax a b)).result host actions⟩ ∧
      daParserCompile host (some y) actions =
        some ⟨actions, (c.plug (splitSyntax a b)).result host actions⟩ := by
  have hknown : ∀ a b, (pairSyntax a b).Known actions → (splitSyntax a b).Known actions :=
    fun a b _ => ⟨trivial, trivial⟩
  by_cases h : ∃ pol, DerivesPolicy (tokens host x) pol ∧ pol.Valid actions
  · obtain ⟨pol, hd, hv⟩ := h
    have hd' := hd
    rw [hx] at hd'
    obtain ⟨c, a, b, rfl, hsplit⟩ := hd'.split
    rw [← hy] at hsplit
    exact Or.inr ⟨c, a, b, daParserCompile_of_derives hd hv,
      daParserCompile_of_derives hsplit (PolicyContext.valid_plug hv (hknown a b))⟩
  · refine Or.inl ⟨daParserCompile_of_not_derives h, daParserCompile_of_not_derives ?_⟩
    intro h'
    obtain ⟨pol, hd, hv⟩ := h'
    rw [hy] at hd
    obtain ⟨c, a, b, rfl, hpair⟩ := hd.unsplit
    rw [← hx] at hpair
    exact h ⟨_, hpair, PolicyContext.valid_plug hv fun _ => trivial⟩

/-- Wherever a term of a user together with a group is written, a text with the user and
the group in its place is a policy as well, or neither is, and it decides alike. -/
theorem pair_split (g : GPattern σ) (host : Host) (actions : Option (List DAAction))
    (pre x post u v : CString) (hu : IdSpelling u) (hv : IdSpelling v) (hx : PairText u v x)
    (hplace : ∃ ts, ComesTo pre (x ++ post) ts) :
    ((daPolicyNewFull g host (some (pre ++ (x ++ post))) actions).isSome ↔
      (daPolicyNewFull g host (some (pre ++ (splitText u v ++ post))) actions).isSome) ∧
    ∀ cred action arg default,
      daPolicyCheck g (daPolicyNewFull g host (some (pre ++ (x ++ post))) actions) cred action arg
          default =
        daPolicyCheck g (daPolicyNewFull g host (some (pre ++ (splitText u v ++ post))) actions)
          cred action arg default := by
  obtain ⟨ts, hts⟩ := hplace
  have hts' : ComesTo pre (splitText u v ++ post) ts := hts.paren _
  have h1 := idToken_no_end host u
  have h2 := idToken_no_end host v
  by_cases hend : ∀ t ∈ ts, isEndOfInput host t = false
  · have htx := hts.tokens_eq hend (scanAll_pair hx hu.reads hv.reads post)
      (pairTokens_no_end h1 h2)
    have hty := hts'.tokens_eq hend (scanAll_split hu hv post) (splitTokens_no_end h1 h2)
    rcases compile_split actions htx hty with ⟨hc, hc'⟩ | ⟨c, a, b, hc, hc'⟩
    · simp only [daPolicyNewFull, hc, hc', implies_true, and_self]
    · rw [newFull_compiled hc, newFull_compiled hc']
      exact ⟨Iff.rfl, c.check_plug (matches_split a b)⟩
  · have htokens : tokens host (pre ++ (x ++ post)) =
        tokens host (pre ++ (splitText u v ++ post)) := by
      rw [hts.tokens_of_end hend, hts'.tokens_of_end hend]
    simp only [daPolicyNewFull, daParserCompile_congr htokens, implies_true, and_self]

/-- A pair of a name and a numeral, under an operator. -/
theorem pair_split_operand :
    (daPolicyNewFull globPattern exampleHost
        (some ([] ++ (str "user(root:5)" ++ str " & group(7) = deny"))) none).isSome ↔
      (daPolicyNewFull globPattern exampleHost (some ([] ++ (splitText (str "root") (str "5") ++
        str " & group(7) = deny"))) none).isSome := by
  have hx : PairText (str "root") (str "5") (str "user" ++ [] ++ str "(" ++ [] ++ str "root" ++ [] ++
      str ":" ++ [] ++ str "5" ++ [] ++ str ")") := .mk rfl rfl rfl rfl rfl
  exact (pair_split globPattern exampleHost none [] _ (str " & group(7) = deny") (str "root")
    (str "5") ⟨by decide, by decide +kernel⟩ ⟨by decide, by decide +kernel⟩ hx ⟨[], .refl _ _⟩).1

end DbusAccess
