import DbusAccess.Proofs.NumericIds
import DbusAccess.Spec.Rendering

/-! Entries are read back as they were written. -/

namespace DbusAccess

open MaximalMunch Numerals

variable {host : Host} {actions : Option (List DAAction)} {s s' s'' : ScanState}
  {x y w name param : CString} {ws ws' vs : List CString} {t : Token} {ts ts' us : List Token}

/-! Quoted strings. -/

/-- Start condition between quotes of either kind. -/
inductive QuotedBy : UInt8 → StartCondition → Prop
  | double : QuotedBy (ch '"') .QUOTE
  | single : QuotedBy (ch '\'') .SQUOTE

variable {q c : UInt8} {p : StartCondition}

def quoteRules (q : UInt8) : List ScanRule := [
  ⟨.lit [q], finishString⟩,
  ⟨.lit [ch '\\', q], fun s _ => (daParserAppendChar q s, none)⟩,
  ⟨.lit (str "\n"), appendText⟩,
  ⟨.one notNewline, appendText⟩]

theorem QuotedBy.rules (h : QuotedBy q p) (buf : CString) : scanRules ⟨p, buf⟩ = quoteRules q := by
  cases h <;> rfl

theorem QuotedBy.ne (h : QuotedBy q p) : q ≠ ch '\\' ∧ q ≠ ch '\n' := by
  cases h <;> decide

theorem longest_one_le (r : UInt8 → Bool) (x : CString) : (Pattern.one r).longest x ≤ 1 := by
  cases x with
  | nil => exact Nat.zero_le _
  | cons c x =>
    simp only [Pattern.longest]
    split_ifs <;> omega

theorem longest_lit_singleton (c : UInt8) (x : CString) : (Pattern.lit [c]).longest x ≤ 1 := by
  simp only [Pattern.longest]
  split_ifs <;> simp

theorem select_close (h : QuotedBy q p) (y : CString) :
    select (quoteRules q) (q :: y) = some (1, ⟨.lit [q], finishString⟩) := by
  obtain ⟨hne, -⟩ := h.ne
  rw [show quoteRules q = [] ++ quoteRules q from rfl]
  refine select_eq Nat.one_pos (by simp [Pattern.longest]) (by simp) ?_
  simp only [List.forall_mem_cons]
  refine ⟨?_, longest_lit_singleton _ _, longest_one_le _ _, by simp⟩
  simp [Pattern.longest, hne.symm]

theorem select_escaped (h : QuotedBy q p) (y : CString) :
    select (quoteRules q) (ch '\\' :: q :: y) =
      some (2, ⟨.lit [ch '\\', q], fun s _ => (daParserAppendChar q s, none)⟩) := by
  obtain ⟨hne, -⟩ := h.ne
  rw [show quoteRules q = [⟨.lit [q], finishString⟩] ++ (quoteRules q).tail from rfl]
  refine select_eq Nat.two_pos (by simp [Pattern.longest]) ?_ ?_
  · simp [Pattern.longest, hne]
  · simp only [List.forall_mem_cons]
    exact ⟨(longest_lit_singleton _ _).trans (Nat.le_succ 1),
      (longest_one_le _ _).trans (Nat.le_succ 1), by simp⟩

/-- Any other byte is for itself; a backslash is when no quote follows. -/
theorem select_plain (hc : c ≠ q) (hb : c = ch '\\' → y.head? ≠ some q) :
    ∃ r, select (quoteRules q) (c :: y) = some (1, r) ∧
      ∀ s, r.act s [c] = (daParserAppendChar c s, none) := by
  have hquote : (Pattern.lit [q]).longest (c :: y) = 0 := by simp [Pattern.longest, hc.symm]
  have hescape : (Pattern.lit [ch '\\', q]).longest (c :: y) = 0 := by
    simp only [Pattern.longest, ite_eq_right_iff]
    intro hpre
    obtain ⟨hc, hy⟩ := List.cons_prefix_cons.1 hpre
    refine absurd ?_ (hb hc.symm)
    obtain ⟨y', rfl⟩ := hy
    rfl
  by_cases hn : c = ch '\n'
  · refine ⟨⟨.lit (str "\n"), appendText⟩, ?_, fun s => rfl⟩
    rw [show quoteRules q = (quoteRules q).take 2 ++ (quoteRules q).drop 2 from rfl]
    refine select_eq Nat.one_pos ?_ ?_ ?_
    · simp [Pattern.longest, str, hn]
    · simp [quoteRules, hquote, hescape]
    · simpa using longest_one_le _ _
  · refine ⟨⟨.one notNewline, appendText⟩, ?_, fun s => rfl⟩
    rw [show quoteRules q = (quoteRules q).take 3 ++ (quoteRules q).drop 3 from rfl]
    refine select_eq Nat.one_pos ?_ ?_ (by simp)
    · simp [Pattern.longest, notNewline, hn]
    · have hnewline : (Pattern.lit (str "\n")).longest (c :: y) = 0 := by
        simp [Pattern.longest, str, Ne.symm hn]
      simp [quoteRules, hquote, hescape, hnewline]

theorem head_escape (q : UInt8) (param y : CString) (hp : param ≠ []) (hq : q ≠ ch '\\') :
    (escape q param ++ y).head? ≠ some q := by
  obtain ⟨c, param, rfl⟩ := List.exists_cons_of_ne_nil hp
  rw [escape, List.flatMap_cons]
  split_ifs with hc
  · simpa using hq.symm
  · simpa using hc

/-- Induction on the string: each round of the scanner gives one byte of it back. -/
theorem scans_quoted (h : QuotedBy q p) (hp : param.getLast? ≠ some (ch '\\'))
    (buf y : CString) :
    Scans scanRules ⟨p, buf⟩ (escape q param ++ q :: y) [.STRING (buf ++ param)] ⟨.ARGS, []⟩ y := by
  induction param generalizing buf with
  | nil =>
    have hsel : select (scanRules ⟨p, buf⟩) (q :: y) = some (1, ⟨.lit [q], finishString⟩) := by
      rw [h.rules, select_close h]
    rw [List.append_nil]
    exact .step hsel (.refl _ _)
  | cons c param ih =>
    have hp' : param.getLast? ≠ some (ch '\\') := by
      intro hlast
      apply hp
      rw [List.getLast?_cons, hlast]
      rfl
    have happend : buf ++ c :: param = buf ++ [c] ++ param := by simp
    by_cases hc : c = q
    · subst hc
      have hsel := (congrArg (select · _) (h.rules buf)).trans
        (select_escaped h (escape c param ++ c :: y))
      rw [escape, List.flatMap_cons, if_pos rfl, happend]
      exact .skip hsel rfl (ih hp' (buf ++ [c]))
    · have hb : c = ch '\\' → (escape q param ++ q :: y).head? ≠ some q := by
        intro hb
        refine head_escape q param _ ?_ h.ne.1
        rintro rfl
        exact hp (by rw [hb]; rfl)
      obtain ⟨r, hr, hact⟩ := select_plain hc hb
      have hsel := (congrArg (select · _) (h.rules buf)).trans hr
      rw [escape, List.flatMap_cons, if_neg hc, happend]
      exact .skip hsel (hact ⟨p, buf⟩) (ih hp' (buf ++ [c]))

theorem select_open (h : QuotedBy q p) (buf x : CString) :
    ∃ r, select (scanRules ⟨.ARGS, buf⟩) (q :: x) = some (1, r) ∧
      r.act ⟨.ARGS, buf⟩ [q] = (⟨p, []⟩, none) := by
  cases h with
  | double =>
    refine ⟨⟨.lit (str "\""), fun s _ => (daParserStartString (BEGIN .QUOTE s), none)⟩, ?_, rfl⟩
    rw [show scanRules ⟨.ARGS, buf⟩ = (scanRules ⟨.ARGS, buf⟩).take 1 ++
      (scanRules ⟨.ARGS, buf⟩).drop 1 from rfl]
    refine select_eq Nat.one_pos ?_ ?_ ?_
    · simp [Pattern.longest, str]
    · simp [scanRules, allRules, Pattern.longest, str, ch]
    · simp [Pattern.longest, str, isSpace, isDigit, isWord, isAlnum, isAlpha, ch, notNewline]
  | single =>
    refine ⟨⟨.lit (str "'"), fun s _ => (daParserStartString (BEGIN .SQUOTE s), none)⟩, ?_, rfl⟩
    rw [show scanRules ⟨.ARGS, buf⟩ = [] ++ scanRules ⟨.ARGS, buf⟩ from rfl]
    refine select_eq Nat.one_pos ?_ (by simp) ?_
    · simp [Pattern.longest, str]
    · simp [Pattern.longest, str, isSpace, isDigit, isWord, isAlnum, isAlpha, ch, notNewline]

/-- A parameter between quotes is a string. -/
theorem scans_string (h : QuotedBy q p) (hp : param.getLast? ≠ some (ch '\\'))
    (buf y : CString) :
    Scans scanRules ⟨.ARGS, buf⟩ (q :: escape q param ++ q :: y) [.STRING param] ⟨.ARGS, []⟩ y := by
  obtain ⟨r, hsel, hact⟩ := select_open h buf (escape q param ++ q :: y)
  exact .skip hsel hact (scans_quoted h hp [] y)

theorem scan_string (h : QuotedBy q p) (hp : param.getLast? ≠ some (ch '\\')) (y : CString) :
    scan scanRules ⟨.ARGS, []⟩ (q :: escape q param ++ [q] ++ y) =
      (.STRING param :: (scan scanRules ⟨.ARGS, []⟩ y).1,
        (scan scanRules ⟨.ARGS, []⟩ y).2) := by
  rw [List.append_assoc, List.singleton_append]
  exact (scans_string h hp [] y).scan_eq

/-! Words. -/

theorem longest_lit_lt (hne : name ≠ []) (hw : w ≠ name) :
    (Pattern.lit w).longest name < name.length := by
  simp only [Pattern.longest]
  split_ifs with hpre
  · exact lt_of_le_of_ne hpre.length_le fun hlen => hw (hpre.eq_of_length hlen)
  · exact List.length_pos_iff.2 hne

theorem alpha_classes : ∀ c : UInt8, isAlpha c = true → isDigit c = false ∧ isSpace c = false :=
  forall_byte (by decide +kernel)

/-- A name that is not one of the words of the scanner. -/
theorem scan_name (hn : ActionName name) :
    scan scanRules .init name = ([.ID name], ⟨.BEFORE_ARGS, []⟩) := by
  obtain ⟨⟨c, w, hname, hc, hw⟩, huser, hgroup, hallow, hdeny⟩ := hn
  obtain ⟨hd, hs⟩ := alpha_classes c hc
  have hlong : (Pattern.word isAlpha isIdent).longest name = name.length := by
    simp [hname, Pattern.longest, hc, List.takeWhile_eq_self_iff.2 hw]
  have hne : name ≠ [] := by simp [hname]
  have hlit : ∀ w, w ≠ name → (Pattern.lit w).longest name < name.length :=
    fun w => longest_lit_lt hne
  have hsel : select (scanRules .init) name = some (name.length,
      ⟨.word isAlpha isIdent, fun s yytext => (BEGIN .BEFORE_ARGS s, some (.ID yytext))⟩) := by
    rw [show scanRules .init = (scanRules .init).take 5 ++
      ⟨.word isAlpha isIdent, fun s yytext => (BEGIN .BEFORE_ARGS s, some (.ID yytext))⟩ ::
        (scanRules .init).drop 6 from rfl]
    refine select_eq (List.length_pos_iff.2 hne) hlong ?_ fun r _ => Pattern.longest_le _ _
    have hdigit : (Pattern.many isDigit).longest name < name.length := by
      simp [hname, Pattern.longest, hd]
    exact List.forall_mem_cons.2 ⟨hlit _ huser.symm, List.forall_mem_cons.2 ⟨hlit _ hgroup.symm,
      List.forall_mem_cons.2 ⟨hlit _ hallow.symm, List.forall_mem_cons.2 ⟨hlit _ hdeny.symm,
      List.forall_mem_cons.2 ⟨hdigit, by simp⟩⟩⟩⟩⟩
  rw [scan_step hsel]
  simp [BEGIN, ScanState.init]

/-! Pieces of a text. -/

/-- The first of the pieces, if there is one, starts with a delimiter. -/
def Delimited (vs : List CString) : Prop := ∀ w ∈ vs.head?, ∃ c u, w = c :: u ∧ Delimiter c

/-- The scanner gives these tokens for the first pieces, and goes on with the others. -/
def Reads (s : ScanState) (ws vs : List CString) (ts : List Token) (s' : ScanState) : Prop :=
  ∀ x, Spaced (ws ++ vs) x → ∃ y, Spaced vs y ∧
    scan scanRules s x = (ts ++ (scan scanRules s' y).1, (scan scanRules s' y).2)

theorem Reads.append (h : Reads s ws (ws' ++ vs) ts s') (h' : Reads s' ws' vs ts' s'') :
    Reads s (ws ++ ws') vs (ts ++ ts') s'' := by
  intro x hx
  rw [List.append_assoc] at hx
  obtain ⟨y, hy, hscan⟩ := h x hx
  obtain ⟨z, hz, hscan'⟩ := h' y hy
  refine ⟨z, hz, ?_⟩
  rw [hscan, hscan', List.append_assoc]

theorem Reads.cons (h : Reads s [w] (ws ++ vs) [t] s') (h' : Reads s' ws vs ts s'') :
    Reads s (w :: ws) vs (t :: ts) s'' :=
  h.append h'

theorem reads_piece (hs : s.Unquoted)
    (h : ∀ y, Spaced vs y → scan scanRules s (w ++ y) =
      (t :: (scan scanRules s' y).1, (scan scanRules s' y).2)) : Reads s [w] vs [t] s' := by
  intro x hx
  cases hx with
  | @cons bl _ _ y hbl hy =>
    refine ⟨y, hy, ?_⟩
    rw [List.append_assoc, scan_blanks hs hbl]
    exact h y hy

theorem Spaced.delimited (h : Spaced vs y) (hv : Delimited vs) :
    y = [] ∨ ∃ c z, y = c :: z ∧ Delimiter c := by
  have hblank : ∀ bl z, bl.all isSpace = true → bl ≠ [] →
      ∃ c z', bl ++ z = c :: z' ∧ Delimiter c := by
    intro bl z hbl hne
    obtain ⟨c, bl, rfl⟩ := List.exists_cons_of_ne_nil hne
    simp only [List.all_cons, Bool.and_eq_true] at hbl
    exact ⟨c, bl ++ z, rfl, space_delimiter c hbl.1⟩
  cases h with
  | nil hbl =>
    by_cases hne : y = []
    · exact Or.inl hne
    · have h := hblank y [] hbl hne
      rw [List.append_nil] at h
      exact Or.inr h
  | @cons bl w ws x hbl h =>
    right
    by_cases hne : bl = []
    · subst hne
      obtain ⟨c, u, rfl, hc⟩ := hv w rfl
      exact ⟨c, u ++ x, rfl, hc⟩
    · rw [List.append_assoc]
      exact hblank bl (w ++ x) hbl hne

theorem reads_word (hs : s.Unquoted) (hw : scan scanRules s w = ([t], s'))
    (hv : Delimited vs) : Reads s [w] vs [t] s' := by
  refine reads_piece hs fun y hy => ?_
  rcases hy.delimited hv with rfl | ⟨c, z, rfl, hc⟩
  · rw [List.append_nil, hw]
    rfl
  · rw [scan_append hc w.length s w z le_rfl, hw]
    rfl

theorem reads_mark (hd : isDigit c = false) (ha : isAlpha c = false) (hs : isSpace c = false) :
    Reads .init [[c]] vs [.char c] .init :=
  reads_piece init_unquoted fun y _ => scan_char hd ha hs y

theorem reads_openParen : Reads ⟨.BEFORE_ARGS, []⟩ [str "("] vs [tLparen] ⟨.ARGS, []⟩ :=
  reads_piece beforeArgs_unquoted fun y _ => scan_step (select_openParen [] y)

theorem reads_closeParen : Reads ⟨.ARGS, []⟩ [str ")"] vs [tRparen] .init :=
  reads_piece args_unquoted fun y _ => scan_step (select_closeParen [] y)

theorem reads_colon : Reads ⟨.ARGS, []⟩ [str ":"] vs [tColon] ⟨.ARGS, []⟩ :=
  reads_piece args_unquoted fun y _ => scan_step (select_colon [] y)

theorem delimited_mark (hc : Delimiter c) : Delimited ([c] :: vs) := by
  intro w hw
  obtain rfl := Option.some.inj hw
  exact ⟨c, [], rfl, hc⟩

theorem WritesParam.reads (h : WritesParam param w) :
    Reads ⟨.ARGS, []⟩ [w] vs [.STRING param] ⟨.ARGS, []⟩ := by
  refine reads_piece args_unquoted fun y _ => ?_
  cases h with
  | double hp => exact scan_string .double hp.2 y
  | single hp => exact scan_string .single hp.2 y

/-- An id is read as itself, for a user and for a group. -/
theorem WritesId.reads {i : ℤ} (h : WritesId i w) (host : Host) :
    ∃ t d, scan scanRules ⟨.ARGS, []⟩ w = ([t], ⟨.ARGS, []⟩) ∧ DerivesId [t] d ∧
      d.uid host = i ∧ d.gid host = i := by
  cases h with
  | wildcard => exact ⟨_, _, by decide +kernel, .wildcard (str "*"), rfl, rfl⟩
  | @number n hn =>
    obtain ⟨hne, hd⟩ := isDecimal_digits (isDecimal_decimal n)
    have hid : numeralId (decimal n) = n := by
      rw [numeralId_of_lt (by rwa [value_decimal]), value_decimal]
    refine ⟨_, .number (readInt (decimal n)), scan_digits hne hd, ?_, hid, hid⟩
    rw [number_eq (isDecimal_decimal n)]
    exact .number _

/-! Expressions and entries. -/

theorem known_action (host : Host) {a : DAAction} (param : Option CString)
    (ha : firstAction actions name = some a) (hp : param.isSome ↔ a.args ≠ 0) :
    (TermSyntax.action name param).Known actions ∧
      (TermSyntax.action name param).tree host actions = .custom a.id param := by
  refine ⟨⟨a, ha, hp⟩, ?_⟩
  simp only [TermSyntax.tree, ha]

/-- The term of one action. -/
theorem reads_action (hn : ActionName name) (h : Reads ⟨.ARGS, []⟩ ws vs ts .init) :
    Reads .init (name :: str "(" :: ws) vs (.ID name :: tLparen :: ts) .init :=
  (reads_word init_unquoted (scan_name hn) (delimited_mark (by decide))).cons
    (reads_openParen.cons h)

theorem reads_paren (h : ∀ vs, Reads .init ws vs ts .init) :
    Reads .init (str "(" :: ws ++ [str ")"]) vs (tLparen :: ts ++ [tRparen]) .init :=
  (reads_mark rfl rfl rfl).cons ((h _).append (reads_mark rfl rfl rfl))

theorem reads_operands (hd : isDigit c = false) (ha : isAlpha c = false)
    (hs : isSpace c = false) (h : ∀ vs, Reads .init ws vs ts .init)
    (h' : ∀ vs, Reads .init ws' vs ts' .init) (vs : List CString) :
    Reads .init ((str "(" :: ws ++ [str ")"]) ++ [c] :: (str "(" :: ws' ++ [str ")"])) vs
      ((tLparen :: ts ++ [tRparen]) ++ .char c :: (tLparen :: ts' ++ [tRparen])) .init :=
  (reads_paren h).append ((reads_mark hd ha hs).cons (reads_paren h'))

/-- The tokens of a written expression are an expression with its tree. -/
theorem WritesExpr.reads {e : DAParserExpr} (h : WritesExpr actions e ws) (host : Host) :
    ∃ ts z, DerivesExpr .E ts z ∧ z.Known actions ∧ z.tree host actions = e ∧
      ∀ vs, Reads .init ws vs ts .init := by
  induction h with
  | @identity uid gid u g hu hg =>
    obtain ⟨tu, du, hscan, hdu, hid, -⟩ := hu.reads host
    obtain ⟨tg, dg, hscan', hdg, -, hid'⟩ := hg.reads host
    refine ⟨_, .term (.userGroup du dg), .prim (.term (.userGroup hdu hdg)), trivial, ?_, ?_⟩
    · simp only [ExprSyntax.tree, TermSyntax.tree, hid, hid']
    · intro vs
      have huser : scan scanRules .init (str "user") = ([.USER], ⟨.BEFORE_ARGS, []⟩) := by
        decide +kernel
      refine (reads_word init_unquoted huser (delimited_mark (by decide))).cons ?_
      refine reads_openParen.cons ?_
      refine (reads_word args_unquoted hscan (delimited_mark (by decide))).cons ?_
      refine reads_colon.cons ?_
      exact (reads_word args_unquoted hscan' (delimited_mark (by decide))).cons reads_closeParen
  | @action name a hn ha hargs =>
    obtain ⟨hk, ht⟩ := known_action host none ha (by simp [hargs])
    exact ⟨_, _, .prim (.term (.action name)), hk, ht,
      fun vs => reads_action hn reads_closeParen⟩
  | @actionParam name a hn ha hargs param p hp =>
    obtain ⟨hk, ht⟩ := known_action host (some param) ha (by simp [hargs])
    exact ⟨_, _, .prim (.term (.actionParam name (.string param))), hk, ht,
      fun vs => reads_action hn (hp.reads.cons reads_closeParen)⟩
  | not _ ih =>
    obtain ⟨ts, z, hz, hk, ht, hr⟩ := ih
    refine ⟨_, .not z, .not (.prim (.paren hz)), hk, ?_, ?_⟩
    · rw [ExprSyntax.tree, ht]
    · intro vs
      exact (reads_mark rfl rfl rfl).cons (reads_paren hr)
  | and _ _ ihx ihy =>
    obtain ⟨ts, z, hz, hk, ht, hr⟩ := ihx
    obtain ⟨ts', z', hz', hk', ht', hr'⟩ := ihy
    refine ⟨_, .and z z', .and (.paren hz) (.prim (.paren hz')), ⟨hk, hk'⟩, ?_, ?_⟩
    · rw [ExprSyntax.tree, ht, ht']
    · intro vs
      have h := reads_operands (c := ch '&') rfl rfl rfl hr hr' vs
      simp only [List.cons_append, List.append_assoc, List.nil_append] at h ⊢
      exact h
  | or _ _ ihx ihy =>
    obtain ⟨ts, z, hz, hk, ht, hr⟩ := ihx
    obtain ⟨ts', z', hz', hk', ht', hr'⟩ := ihy
    refine ⟨_, .or z z', .or (.paren hz) (.prim (.paren hz')), ⟨hk, hk'⟩, ?_, ?_⟩
    · rw [ExprSyntax.tree, ht, ht']
    · intro vs
      have h := reads_operands (c := ch '|') rfl rfl rfl hr hr' vs
      simp only [List.cons_append, List.append_assoc, List.nil_append] at h ⊢
      exact h

theorem reads_access (a : DAAccess) :
    ∃ t, DerivesAccess [t] a ∧ ∀ vs, Delimited vs → Reads .init [accessText a] vs [t] .init := by
  cases a with
  | ALLOW => exact ⟨_, .allow, fun vs => reads_word init_unquoted (by decide +kernel)⟩
  | DENY => exact ⟨_, .deny, fun vs => reads_word init_unquoted (by decide +kernel)⟩

theorem WritesEntry.reads {e : DAParserEntry} (h : WritesEntry actions e ws) (host : Host) :
    ∃ ts d, DerivesEntry ts d ∧ d.Known actions ∧ d.entry host actions = e ∧
      ∀ vs, Delimited vs → Reads .init ws vs ts .init := by
  cases h with
  | wildcard a =>
    obtain ⟨t, ha, hr⟩ := reads_access a
    refine ⟨_, _, .wildcard ha, trivial, rfl, fun vs hv => ?_⟩
    exact (reads_mark rfl rfl rfl).cons ((reads_mark rfl rfl rfl).cons (hr vs hv))
  | access hx a =>
    obtain ⟨t, ha, hr⟩ := reads_access a
    obtain ⟨ts, z, hz, hk, rfl, hr'⟩ := hx.reads host
    refine ⟨_, _, .access hz ha, hk, rfl, fun vs hv => ?_⟩
    exact (hr' _).append ((reads_mark rfl rfl rfl).cons (hr vs hv))
  | allow hx =>
    obtain ⟨ts, z, hz, hk, rfl, hr⟩ := hx.reads host
    exact ⟨_, _, .expr hz, hk, rfl, fun vs _ => hr vs⟩

/-- Induction on the list. -/
theorem WritesEntries.reads {es : List DAParserEntry} (h : WritesEntries actions es ws)
    (host : Host) :
    ∃ ts d us ds, DerivesEntry ts d ∧ DerivesMore us ds ∧ (∀ e ∈ d :: ds, e.Known actions) ∧
      (d :: ds).map (EntrySyntax.entry host actions) = es ∧
      Reads .init ws [] (ts ++ us) .init := by
  induction h with
  | last he =>
    obtain ⟨ts, d, hd, hk, rfl, hr⟩ := he.reads host
    refine ⟨ts, d, [], [], hd, .none, by simpa using hk, rfl, ?_⟩
    rw [List.append_nil]
    exact hr [] (by simp [Delimited])
  | more he _ ih =>
    obtain ⟨ts, d, hd, hk, rfl, hr⟩ := he.reads host
    obtain ⟨ts', d', us, ds, hd', hds, hk', rfl, hr'⟩ := ih
    refine ⟨ts, d, _, d' :: ds, hd, .entry hd' hds, List.forall_mem_cons.2 ⟨hk, hk'⟩, rfl, ?_⟩
    exact (hr _ (delimited_mark (by decide))).append ((reads_mark rfl rfl rfl).cons hr')

/-- The text of a list of entries is compiled to them. -/
theorem compile_renders {es : List DAParserEntry} {text : CString}
    (h : Renders actions es text) :
    daParserCompile host (some text) actions = some ⟨actions, es⟩ := by
  obtain ⟨ws, hws, hspaced⟩ := h
  obtain ⟨ts, d, us, ds, hd, hds, hk, rfl, hr⟩ := hws.reads host
  obtain ⟨y, hy, hscan⟩ := hr text (by rwa [List.append_nil])
  have hall : scanAll text = ts ++ us := by
    cases hy with
    | nil hbl =>
      rw [scanAll, hscan, scan_blank init_unquoted hbl]
      simp
  have hp : DerivesPolicy (scanAll text) ⟨none, d :: ds⟩ := by
    rw [hall]
    exact .entries hd hds
  have hd' := hp
  rw [← tokens_eq_scanAll (hp.no_end host)] at hd'
  exact daParserCompile_of_derives hd' (.of_known hk)

/-! Every list can be written. -/

theorem exists_writesId {i : ℤ} (h : i = DA_WILDCARD ∨ (0 ≤ i ∧ i < 2 ^ 31)) :
    ∃ w, WritesId i w := by
  rcases h with rfl | ⟨h0, h1⟩
  · exact ⟨_, .wildcard⟩
  · refine ⟨decimal i.toNat, ?_⟩
    have hn : WritesId (i.toNat : ℤ) (decimal i.toNat) := .number (by omega)
    rwa [Int.toNat_of_nonneg h0] at hn

theorem exists_writesExpr {e : DAParserExpr} (h : e.Writable actions) :
    ∃ ws, WritesExpr actions e ws := by
  induction h with
  | identity hu hg =>
    obtain ⟨u, hu⟩ := exists_writesId hu
    obtain ⟨g, hg⟩ := exists_writesId hg
    exact ⟨_, .identity hu hg⟩
  | @custom name a hn ha param hp hq =>
    cases param with
    | none =>
      have hargs : a.args = 0 := by simpa using hp
      exact ⟨_, .action hn ha hargs⟩
    | some param =>
      have hargs : a.args ≠ 0 := hp.1 rfl
      exact ⟨_, .actionParam hn ha hargs (.double (hq param rfl))⟩
  | not _ ih =>
    obtain ⟨ws, hws⟩ := ih
    exact ⟨_, .not hws⟩
  | and _ _ ihx ihy =>
    obtain ⟨us, hus⟩ := ihx
    obtain ⟨vs, hvs⟩ := ihy
    exact ⟨_, .and hus hvs⟩
  | or _ _ ihx ihy =>
    obtain ⟨us, hus⟩ := ihx
    obtain ⟨vs, hvs⟩ := ihy
    exact ⟨_, .or hus hvs⟩

theorem exists_writesEntry {e : DAParserEntry} (h : e.Writable actions) :
    ∃ ws, WritesEntry actions e ws := by
  obtain ⟨expr, access⟩ := e
  rcases h with rfl | h
  · exact ⟨_, .wildcard access⟩
  · obtain ⟨ws, hws⟩ := exists_writesExpr h
    exact ⟨_, .access hws access⟩

theorem exists_writesEntries {es : List DAParserEntry} (hne : es ≠ [])
    (h : ∀ e ∈ es, e.Writable actions) : ∃ ws, WritesEntries actions es ws := by
  induction es with
  | nil => exact absurd rfl hne
  | cons e es ih =>
    obtain ⟨us, hus⟩ := exists_writesEntry (h e (List.mem_cons_self ..))
    by_cases hnil : es = []
    · subst hnil
      exact ⟨us, .last hus⟩
    · obtain ⟨vs, hvs⟩ := ih hnil fun e he => h e (List.mem_cons_of_mem _ he)
      exact ⟨_, .more hus hvs⟩

theorem spaced_flatten (ws : List CString) : Spaced ws ws.flatten := by
  induction ws with
  | nil => exact .nil rfl
  | cons w ws ih =>
    have h : Spaced (w :: ws) ([] ++ w ++ ws.flatten) := .cons rfl ih
    exact h

/-- A list of entries has a text, and every text of it is compiled to it. -/
theorem entries_round_trip (host : Host) (actions : Option (List DAAction))
    (entries : List DAParserEntry) (hne : entries ≠ [])
    (hw : ∀ e ∈ entries, e.Writable actions) :
    (∃ text, Renders actions entries text) ∧
    ∀ text, Renders actions entries text →
      ∃ parser, daParserCompile host (some text) actions = some parser ∧
        daParserGetResult parser = entries := by
  refine ⟨?_, fun text h => ⟨_, compile_renders h, rfl⟩⟩
  obtain ⟨ws, hws⟩ := exists_writesEntries hne hw
  exact ⟨_, ws, hws, spaced_flatten ws⟩

theorem actionName_call : ActionName (str "Call") :=
  ⟨⟨ch 'C', str "all", rfl, rfl, by decide +kernel⟩, by decide +kernel⟩

/-- A parameter with a quote and a semicolon in it. -/
theorem entries_round_trip_quote :
    ∃ text parser, Renders (some exampleActions)
        [⟨.null, .DENY⟩, ⟨.not (.custom 7 (some (str "a\";"))), .ALLOW⟩] text ∧
      daParserCompile exampleHost (some text) (some exampleActions) = some parser ∧
      daParserGetResult parser =
        [⟨.null, .DENY⟩, ⟨.not (.custom 7 (some (str "a\";"))), .ALLOW⟩] := by
  have hw : DAParserExpr.Writable (some exampleActions)
      (.not (.custom 7 (some (str "a\";")))) := by
    refine .not (.custom (a := ⟨str "Call", 7, 1⟩) actionName_call (by decide) (by decide) ?_)
    intro p hp
    obtain rfl := Option.some.inj hp
    exact ⟨by decide, by decide⟩
  obtain ⟨⟨text, h⟩, hall⟩ := entries_round_trip exampleHost (some exampleActions)
    [⟨.null, .DENY⟩, ⟨.not (.custom 7 (some (str "a\";"))), .ALLOW⟩] (by simp)
    (List.forall_mem_cons.2 ⟨Or.inl rfl, List.forall_mem_cons.2 ⟨Or.inr hw, by simp⟩⟩)
  obtain ⟨parser, hc, hr⟩ := hall text h
  exact ⟨text, parser, h, hc, hr⟩

end DbusAccess
