import DbusAccess.Proofs.Rendering

/-! Which strings quotes can stand for. -/

namespace DbusAccess

open MaximalMunch

variable {x y r s buf : CString} {q : UInt8} {p : StartCondition} {st st' : ScanState}
  {ts : List Token}

/-- Between quotes, a backslash that was taken for itself has no quote behind it. -/
def NoEscape (q : UInt8) (buf x : CString) : Prop :=
  buf.getLast? = some (ch '\\') → x.head? ≠ some q

theorem noEscape_append {c : UInt8} (h : c = ch '\\' → y.head? ≠ some q) :
    NoEscape q (buf ++ [c]) y := by
  intro hlast
  rw [List.getLast?_concat] at hlast
  exact h (Option.some.inj hlast)

/-- Induction on the rounds of the scanner. The closing quote is not behind a backslash. -/
theorem scans_last (h : Scans scanRules st x ts st' r) (hst : st = ⟨p, buf⟩)
    (hp : QuotedBy q p) (hb : NoEscape q buf x) {us : List Token} (hts : ts = .STRING s :: us) :
    s.getLast? ≠ some (ch '\\') := by
  induction h generalizing buf with
  | refl => cases hts
  | @step st st' x x' k rule ts hsel _ ih =>
    subst hst
    rw [hp.rules] at hsel
    cases x with
    | nil =>
      obtain ⟨hk, -, hm, -⟩ := select_spec hsel
      have hle := rule.pat.longest_le []
      rw [← hm, List.length_nil] at hle
      omega
    | cons c y =>
      by_cases hc : c = q
      · subst hc
        rw [select_close hp] at hsel
        obtain ⟨rfl, rfl⟩ := Prod.mk.inj (Option.some.inj hsel)
        -- the string is what has been collected
        obtain ⟨hs, -⟩ := List.cons.inj hts
        obtain rfl := Token.STRING.inj hs
        exact fun hlast => hb hlast rfl
      · by_cases he : c = ch '\\' ∧ y.head? = some q
        · obtain ⟨rfl, hy⟩ := he
          obtain ⟨z, rfl⟩ : ∃ z, y = q :: z := by
            cases y with
            | nil => cases hy
            | cons d z => exact ⟨z, by rw [Option.some.inj hy]⟩
          rw [select_escaped hp] at hsel
          obtain ⟨rfl, rfl⟩ := Prod.mk.inj (Option.some.inj hsel)
          exact ih rfl (noEscape_append fun hq => absurd hq hp.ne.1) hts
        · have hplain : c = ch '\\' → y.head? ≠ some q := fun h h' => he ⟨h, h'⟩
          obtain ⟨rule', hsel', hact⟩ := select_plain hc hplain
          rw [hsel'] at hsel
          obtain ⟨rfl, rfl⟩ := Prod.mk.inj (Option.some.inj hsel)
          have hact' : rule'.act ⟨p, buf⟩ ((c :: y).take 1) = (⟨p, buf ++ [c]⟩, none) :=
            hact ⟨p, buf⟩
          rw [hact'] at hts ih
          exact ih rfl (noEscape_append hplain) hts

/-- No literal stands for a string with a backslash at the end. -/
theorem scans_string_last (h : Scans scanRules ⟨.ARGS, buf⟩ (q :: x) [.STRING s] st r)
    (hq : QuotedBy q p) : s.getLast? ≠ some (ch '\\') := by
  obtain ⟨rule, hsel, hact⟩ := select_open hq buf x
  generalize hts : [Token.STRING s] = ts at h
  generalize hx : q :: x = x' at h
  generalize hst : (⟨.ARGS, buf⟩ : ScanState) = st0 at h
  cases h with
  | refl => cases hts
  | @step _ _ _ _ k rule' ts' hsel' hs =>
    subst hx
    subst hst
    rw [hsel] at hsel'
    obtain ⟨rfl, rfl⟩ := Prod.mk.inj (Option.some.inj hsel')
    have hact' : rule.act ⟨.ARGS, buf⟩ ((q :: x).take 1) = (⟨p, []⟩, none) := hact
    rw [hact'] at hts hs
    exact scans_last hs rfl hq (fun hlast => absurd hlast (by simp)) hts.symm

theorem zero_not_mem_escape (h0 : 0 ∉ s) : 0 ∉ escape q s := by
  intro hmem
  obtain ⟨c, hc, hmem⟩ := List.mem_flatMap.1 hmem
  split_ifs at hmem with hcq
  · simp only [List.mem_cons, List.not_mem_nil, or_false] at hmem
    rcases hmem with hmem | hmem
    · exact absurd hmem (by decide)
    · exact h0 (hmem ▸ hc)
  · exact h0 (List.mem_singleton.1 hmem ▸ hc)

/-- Between quotes of either kind, with a backslash before each such quote, stands any
string without a backslash at the end, and nothing else can stand there. -/
theorem quoted_strings (q : UInt8) (hq : q = ch '"' ∨ q = ch '\'') (buf : CString) :
    (∀ s r, 0 ∉ s → s.getLast? ≠ some (ch '\\') →
      Scans scanRules ⟨.ARGS, buf⟩ (q :: escape q s ++ q :: r) [.STRING s] ⟨.ARGS, []⟩ r) ∧
    (∀ x s st r, Scans scanRules ⟨.ARGS, buf⟩ (q :: x) [.STRING s] st r →
      s.getLast? ≠ some (ch '\\')) ∧
    ∀ s, 0 ∉ s → ((∃ x st r, 0 ∉ x ∧ Scans scanRules ⟨.ARGS, buf⟩ (q :: x) [.STRING s] st r) ↔
      s.getLast? ≠ some (ch '\\')) := by
  obtain ⟨p, hp, hq0⟩ : ∃ p, QuotedBy q p ∧ q ≠ 0 := by
    rcases hq with rfl | rfl
    · exact ⟨_, .double, by decide⟩
    · exact ⟨_, .single, by decide⟩
  refine ⟨fun s r _ hs => scans_string hp hs buf r, fun x s st r h => scans_string_last h hp, ?_⟩
  intro s h0
  refine ⟨fun h => ?_, fun hs => ?_⟩
  · obtain ⟨x, st, r, -, h⟩ := h
    exact scans_string_last h hp
  · refine ⟨escape q s ++ q :: [], _, _, ?_, scans_string hp hs buf []⟩
    rw [List.mem_append, not_or]
    exact ⟨zero_not_mem_escape h0, by simpa using hq0.symm⟩

/-- A backslash in front of a quote, after another string. -/
theorem quoted_strings_backslash :
    Scans scanRules ⟨.ARGS, str "old"⟩ (ch '"' :: escape (ch '"') (str "a\\\"b") ++ ch '"' :: [])
      [.STRING (str "a\\\"b")] ⟨.ARGS, []⟩ [] :=
  (quoted_strings (ch '"') (Or.inl rfl) (str "old")).1 (str "a\\\"b") [] (by decide) (by decide)

end DbusAccess
