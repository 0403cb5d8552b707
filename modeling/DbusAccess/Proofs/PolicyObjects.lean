import DbusAccess.Lib.Counters
import DbusAccess.Proofs.PolicyMemory

/-! Policies as objects with a count of references: their checks and comparisons leave
the memory as it is, and the last reference takes everything with it. -/

namespace DbusAccess.InMemory

open Separation Assertion

variable {σ γ : Type} {g : GPattern σ} {p q : Option Addr} {a : Addr}
  {R : Assertion (Block σ)} {f : Prog (Block σ) γ} {S : γ → Assertion (Block σ)}
  {v : DbusAccess.DAPolicyEntry σ} {vs entries : List (DbusAccess.DAPolicyEntry σ)}
  {policy : DbusAccess.DAPolicy σ}

/-! Lists of entries, taken apart and put together. -/

theorem entriesAt_nil : (EntriesAt p [] : Assertion (Block σ)) = fact (p = none) := by
  refine Assertion.ext fun b => ⟨fun h => ?_, fun h => ?_⟩
  · obtain ⟨links, h⟩ := iSup_iff.1 h
    cases links with
    | nil =>
      rw [chain_nil] at h
      rwa [List.map_nil, ExprsAt, mul_one] at h
    | cons c links =>
      rw [mul_comm] at h
      exact (fact_mul.1 (show (fact False * _ : Assertion (Block σ)) b from h)).1.elim
  · refine iSup_iff.2 ⟨[], ?_⟩
    rwa [chain_nil, List.map_nil, ExprsAt, mul_one]

theorem entriesAt_cons (e : DAPolicyEntry) (next : Option Addr) (he : e.access = v.access) :
    single a (.policyEntry e next) * (ExprAt v.expr e.expr * EntriesAt next vs) ≤
      EntriesAt (some a) (v :: vs) := by
  intro b hb
  unfold EntriesAt at hb
  rw [mul_iSup, mul_iSup] at hb
  obtain ⟨links, hb⟩ := iSup_iff.1 hb
  refine iSup_iff.2 ⟨(a, e) :: links, ?_⟩
  rw [List.map_cons, ExprsAt, fact_true he, one_mul]
  refine mul_le_mul_left (chain_push next) _ b ?_
  rwa [mul_assoc, mul_left_comm (Chain _ _ _ _)]

theorem entries_triple
    (hnil : entries = [] → p = none → Triple R f S)
    (hcons : ∀ v vs a e next, entries = v :: vs → p = some a → e.access = v.access →
      Triple (single a (.policyEntry e next) * (ExprAt v.expr e.expr * (EntriesAt next vs * R)))
        f S) :
    Triple (EntriesAt p entries * R) f S := by
  cases entries with
  | nil =>
    rw [entriesAt_nil]
    exact .fact (hnil rfl)
  | cons v vs =>
    rw [EntriesAt, iSup_mul]
    refine .exist fun links => ?_
    rw [mul_assoc]
    refine .chain (fun h _ => ?_) fun c links' next h hp => ?_
    · rw [h]
      exact .fact False.elim
    · rw [h, List.map_cons, ExprsAt]
      refine .pre (fact (c.2.access = v.access) * (single c.1 (Block.policyEntry c.2 next) *
        (ExprAt v.expr c.2.expr *
          (Chain entryLinked next links' none * ExprsAt (links'.map Prod.snd) vs * R)))) ?_ ?_
      · change single c.1 (Block.policyEntry c.2 next) * _ = _
        ac_rfl
      refine .fact fun he => (hcons v vs c.1 c.2 next rfl hp he).mono ?_ fun _ => le_rfl
      refine mul_le_mul_right (mul_le_mul_right (mul_le_mul_left ?_ _) _) _
      exact le_iSup (fun links =>
        Chain entryLinked next links none * ExprsAt (links.map Prod.snd) vs) links'

theorem entriesAt_atLeast : AtLeast entries.length (EntriesAt p entries) := by
  refine .iSup fun links => ?_
  have hlen : ∀ (es : List DAPolicyEntry) (b : Blocks (Block σ)),
      (ExprsAt es entries : Assertion (Block σ)) b → entries.length = es.length := by
    intro es
    induction es generalizing entries with
    | nil =>
      intro b hb
      cases entries with
      | nil => rfl
      | cons v vs => exact hb.1.elim
    | cons e es ih =>
      intro b hb
      cases entries with
      | nil => exact hb.1.elim
      | cons v vs =>
        obtain ⟨-, -, b2, -, -, -, hb2⟩ := fact_mul.1 hb
        rw [List.length_cons, List.length_cons, ih b2 hb2]
  rintro - ⟨b1, b2, hd, rfl, h1, h2⟩
  rw [hlen _ _ h2, List.length_map]
  exact (chain_atLeast.mul (.zero _)) _ ⟨b1, b2, hd, rfl, h1, h2⟩

/-! Decisions. -/

theorem readPolicy_triple {n : ℕ} {d : DAPolicy} {f : DAPolicy → Prog (Block σ) γ}
    (h : Triple (single n (.policy d) * R) (f d) S) :
    Triple (single n (.policy d) * R) (readPolicy n >>= f) S := by
  unfold readPolicy
  rw [bind_assoc]
  exact .read h

theorem checkLoop_triple (pc : DAPolicyCheck) (n : ℕ) (hn : entries.length ≤ n)
    (result : DAAccess) :
    Observes (EntriesAt p entries)
      (walk entryLinked (fun result e => do
        if ← daPolicyExprMatch g pc e.expr then pure e.access else pure result) n result p)
      (entries.foldl (fun result entry =>
        if DbusAccess.daPolicyExprMatch g pc entry.expr then entry.access else result)
        result) := by
  induction entries generalizing n p result with
  | nil =>
    rw [entriesAt_nil]
    refine .within _ (mul_one _).symm (.fact fun hp => ?_)
    rw [hp]
    cases n <;> exact Observes.pure result
  | cons v vs ih =>
    rw [List.length_cons] at hn
    obtain ⟨n, rfl⟩ : ∃ m, n = m + 1 := ⟨n - 1, by omega⟩
    refine .pre _ (mul_one _).symm (entries_triple (fun h => by simp at h) ?_)
    intro v' vs' a e next h hp he
    obtain ⟨rfl, rfl⟩ := List.cons_eq_cons.1 h
    rw [hp, walk, List.foldl_cons, mul_one]
    refine .read (Observes.post ?_ (entriesAt_cons e next he))
    have hmatch : Observes (single a (.policyEntry e next) *
        (ExprAt v.expr e.expr * EntriesAt next vs)) (daPolicyExprMatch g pc e.expr)
        (DbusAccess.daPolicyExprMatch g pc v.expr) :=
      .within (ExprAt v.expr e.expr * (single a (.policyEntry e next) * EntriesAt next vs))
        (by ac_rfl) ((daPolicyExprMatch_triple pc).frame _)
    have hrest : ∀ result', Observes (single a (.policyEntry e next) *
        (ExprAt v.expr e.expr * EntriesAt next vs)) (walk entryLinked _ n result' next) _ :=
      fun result' => .within (EntriesAt next vs *
        (single a (.policyEntry e next) * ExprAt v.expr e.expr)) (by ac_rfl)
        ((ih n (by omega) result').frame _)
    change Observes _ ((do if ← daPolicyExprMatch g pc e.expr then _ else _) >>= _) _
    rw [bind_assoc]
    refine hmatch.bind ?_
    split_ifs with hm
    · rw [pure_bind, he]
      exact hrest _
    · rw [pure_bind]
      exact hrest _

variable {refCount : Int32}

theorem policyAt_le (a : Addr) (refCount : Int32) (p : Option Addr) :
    single a (.policy ⟨refCount, p⟩) * EntriesAt p policy.entries ≤
      PolicyAt a refCount policy :=
  le_iSup (fun p => single a (.policy ⟨refCount, p⟩) * EntriesAt p policy.entries) p

theorem policy_triple
    (h : ∀ p, Triple (single a (.policy ⟨refCount, p⟩) * (EntriesAt p policy.entries * R)) f S) :
    Triple (PolicyAt a refCount policy * R) f S := by
  rw [PolicyAt, iSup_mul]
  refine .exist fun p => ?_
  rw [mul_assoc]
  exact h p

theorem daPolicyCheck_triple (cred : Option DACred) (action : UInt32) (arg : Option CString)
    (default : DAAccess) :
    Observes (PolicyAt a refCount policy) (daPolicyCheck g (some a) cred action arg default)
      (DbusAccess.daPolicyCheck g (some policy) cred action arg default) := by
  unfold daPolicyCheck DbusAccess.daPolicyCheck
  split_ifs with hroot
  · exact .pure DAAccess.ALLOW
  · refine .pre _ (mul_one _).symm (policy_triple fun p => ?_)
    rw [mul_one]
    refine readPolicy_triple (Observes.post ?_ (policyAt_le a refCount p))
    refine .bound (n := policy.entries.length) ?_ fun n hn => ?_
    · rw [← Nat.zero_add policy.entries.length]
      exact (AtLeast.zero _).mul entriesAt_atLeast
    have := (checkLoop_triple (g := g) ⟨cred, action, arg⟩ n hn default (p := p)).frame
      (single a (.policy ⟨refCount, p⟩))
    rwa [mul_comm] at this

/-! Comparisons. -/

variable {es es' : List (DbusAccess.DAPolicyEntry σ)} {b : Addr} {policy' : DbusAccess.DAPolicy σ}
  {refCount' : Int32}

theorem entriesEqual_triple (n : ℕ) (hn : es.length ≤ n) :
    Observes (EntriesAt p es * EntriesAt q es') (entriesEqual g n p q)
      (DbusAccess.entriesEqual g es es') := by
  induction es generalizing n p q es' with
  | nil =>
    rw [entriesAt_nil]
    refine .fact fun hp => .pre _ (mul_one _).symm (entries_triple (fun h hq => ?_) ?_)
    · rw [hp, hq, h, entriesAt_nil, fact_true rfl]
      cases n <;> exact Observes.pure true
    · intro v vs b e next h hq he
      rw [hp, hq, h, mul_one]
      refine Observes.post ?_ (entriesAt_cons e next he)
      cases n <;> exact Observes.pure false
  | cons v vs ih =>
    rw [List.length_cons] at hn
    obtain ⟨n, rfl⟩ : ∃ m, n = m + 1 := ⟨n - 1, by omega⟩
    refine entries_triple (fun h => by simp at h) ?_
    intro v1 vs1 a e next h hp he
    obtain ⟨rfl, rfl⟩ := List.cons_eq_cons.1 h
    refine .pre (EntriesAt q es' * (single a (.policyEntry e next) *
      (ExprAt v.expr e.expr * EntriesAt next vs))) (by ac_rfl) ?_
    have hback : ∀ Q : Assertion (Block σ), Q * (single a (.policyEntry e next) *
        (ExprAt v.expr e.expr * EntriesAt next vs)) ≤ EntriesAt p (v :: vs) * Q := by
      intro Q
      rw [mul_comm, hp]
      exact mul_le_mul_left (entriesAt_cons e next he) Q
    refine entries_triple (fun h' hq => ?_) ?_
    · rw [hp, hq, h', entriesAt_nil, fact_true rfl, mul_one]
      refine Observes.post (Observes.pure false) ?_
      rw [← hp]
      simpa only [one_mul, mul_one] using hback 1
    · intro v' vs' a' e' next' h' hq he'
      rw [h', hp, hq, entriesEqual]
      refine .pre (single a (.policyEntry e next) * (single a' (.policyEntry e' next') *
        (ExprAt v'.expr e'.expr * EntriesAt next' vs' *
          (ExprAt v.expr e.expr * EntriesAt next vs)))) (by ac_rfl) (.read ?_)
      rw [mul_left_comm]
      refine .read (Observes.post (R := EntriesAt (some a) (v :: vs) *
        EntriesAt (some a') (v' :: vs')) ?_ ?_)
      · have hexpr := (daPolicyExprEqual_triple (g := g) (x := v.expr) (y := v'.expr)
          (p := e.expr) (q := e'.expr)).frame (single a (.policyEntry e next) *
            (single a' (.policyEntry e' next') * (EntriesAt next vs * EntriesAt next' vs')))
        have hrest := (ih n (by omega) : Observes (EntriesAt next vs * EntriesAt next' vs')
          (entriesEqual g n next next') _).frame (single a (.policyEntry e next) *
            (single a' (.policyEntry e' next') * (ExprAt v.expr e.expr * ExprAt v'.expr e'.expr)))
        refine (hexpr.within _ (by ac_rfl)).bind ?_
        rw [DbusAccess.entriesEqual, ← he, ← he']
        split_ifs with hc
        · exact Observes.pure false
        · exact hrest.within _ (by ac_rfl)
      · calc _ = single a (.policyEntry e next) * (ExprAt v.expr e.expr * EntriesAt next vs) *
              (single a' (.policyEntry e' next') *
                (ExprAt v'.expr e'.expr * EntriesAt next' vs')) := by ac_rfl
          _ ≤ _ := mul_le_mul' (entriesAt_cons e next he) (entriesAt_cons e' next' he')

/-- Of policies in different places the entries are compared. -/
theorem daPolicyEqual_triple :
    Observes (PolicyAt a refCount policy * PolicyAt b refCount' policy')
      (daPolicyEqual g (some a) (some b))
      (DbusAccess.entriesEqual g policy.entries policy'.entries) := by
  refine policy_triple fun p => ?_
  refine .pre (PolicyAt b refCount' policy' * (single a (.policy ⟨refCount, p⟩) *
    EntriesAt p policy.entries)) (by ac_rfl) (policy_triple fun q => ?_)
  unfold daPolicyEqual
  split_ifs with hab
  · rw [Option.some_inj.1 hab]
    exact .pre (single b (.policy ⟨refCount', q⟩) * (single b (.policy ⟨refCount, p⟩) *
      (EntriesAt q policy'.entries * EntriesAt p policy.entries))) (by ac_rfl) .twice
  · refine .pre (single a (.policy ⟨refCount, p⟩) * (single b (.policy ⟨refCount', q⟩) *
      (EntriesAt p policy.entries * EntriesAt q policy'.entries))) (by ac_rfl) ?_
    refine readPolicy_triple ?_
    rw [mul_left_comm]
    refine readPolicy_triple (.bound (n := policy.entries.length) ?_ fun n hn => ?_)
    · exact ((AtLeast.zero _).mul ((AtLeast.zero _).mul
        (entriesAt_atLeast.mul (.zero _)))).le (by omega)
    · have h : Observes (EntriesAt p policy.entries * EntriesAt q policy'.entries)
          (entriesEqual g n p q) (DbusAccess.entriesEqual g policy.entries policy'.entries) :=
        entriesEqual_triple n hn
      have h := h.frame (single b (.policy ⟨refCount', q⟩) * single a (.policy ⟨refCount, p⟩))
      refine Observes.post (h.within _ (by ac_rfl)) ?_
      calc _ = single a (.policy ⟨refCount, p⟩) * EntriesAt p policy.entries *
            (single b (.policy ⟨refCount', q⟩) * EntriesAt q policy'.entries) := by ac_rfl
        _ ≤ _ := mul_le_mul' (policyAt_le a refCount p) (policyAt_le b refCount' q)

/-! References. -/

theorem daPolicyRef_triple :
    Triple (PolicyAt a refCount policy) (daPolicyRef (some a))
      fun r => fact (r = some a) * PolicyAt a (refCount + 1) policy := by
  refine .pre _ (mul_one _).symm (policy_triple fun p => ?_)
  rw [mul_one]
  refine readPolicy_triple (.write (.pure ?_))
  rw [fact_true rfl, one_mul]
  exact policyAt_le a (refCount + 1) p

theorem exprsAt_free {e : DAPolicyEntry} {es : List DAPolicyEntry} :
    Triple (⨆ vs : List (DbusAccess.DAPolicyEntry σ), ExprsAt (e :: es) vs)
      (daPolicyExprFree e.expr) fun _ => ⨆ vs, ExprsAt es vs := by
  refine .exist fun vs => ?_
  cases vs with
  | nil => exact .pre _ (mul_one _).symm (.fact False.elim)
  | cons v vs =>
    refine .fact fun _ => .last (daPolicyExprFree_triple.call fun _ => .pure ?_)
    rw [one_mul]
    exact le_iSup (fun vs => ExprsAt es vs) vs

theorem exprsAt_none : (⨆ vs, ExprsAt [] vs : Assertion (Block σ)) ≤ 1 := by
  refine iSup_le fun vs => ?_
  cases vs with
  | nil => exact le_rfl
  | cons v vs => exact fun _ h => h.1.elim

theorem daPolicyFinalize_triple {d : DAPolicy} :
    Triple (single a (.policy d) * EntriesAt d.entries entries) (daPolicyFinalize a)
      fun _ => single a (.policy d) := by
  refine readPolicy_triple ?_
  rw [mul_comm]
  cases hd : d.entries with
  | none =>
    refine entries_triple (fun _ _ => .pure le_rfl) fun _ _ _ _ _ _ h => by simp at h
  | some first =>
    rw [EntriesAt, iSup_mul]
    refine .exist fun links => .bound ((chain_atLeast.mul (.zero _)).mul (.zero _)) fun n hn => ?_
    have hwalk : Triple (Chain entryLinked (some first) links none *
        ⨆ vs : List (DbusAccess.DAPolicyEntry σ), ExprsAt (links.map Prod.snd) vs)
        (walk entryLinked (fun _ e => daPolicyExprFree e.expr) n () (some first))
        fun _ => Chain entryLinked (some first) links none * 1 :=
      (walk_triple (I := fun ds _ => ⨆ vs, ExprsAt ds vs) (fun _ _ _ => exprsAt_free) n
        (by omega) ()).post fun _ => mul_le_mul_right exprsAt_none _
    refine (hwalk.mono (mul_le_mul_right (le_iSup (ExprsAt _) entries) _) fun _ => le_rfl).call
      fun _ => ?_
    rw [mul_one]
    refine .last ((freeLinks_triple (fun d n => rfl) n (by omega)).call fun _ => .pure ?_)
    rw [one_mul]

theorem daPolicyUnref_triple (hcount : refCount ≠ 1) :
    Triple (PolicyAt a refCount policy) (daPolicyUnref (some a))
      fun _ => PolicyAt a (refCount - 1) policy := by
  refine .pre _ (mul_one _).symm (policy_triple fun p => ?_)
  rw [mul_one]
  refine readPolicy_triple (.write ?_)
  rw [if_neg (mt Counters.dec_eq_zero.1 hcount)]
  exact .pure (policyAt_le a (refCount - 1) p)

/-- The last reference. -/
theorem daPolicyUnref_last :
    Triple (PolicyAt a 1 policy) (daPolicyUnref (some a)) fun _ => 1 := by
  refine .pre _ (mul_one _).symm (policy_triple fun p => ?_)
  rw [mul_one]
  refine readPolicy_triple (.write ?_)
  rw [if_pos (Counters.dec_eq_zero.2 rfl)]
  refine .bind daPolicyFinalize_triple fun _ => ?_
  rw [← mul_one (single _ _)]
  exact .last (release_triple rfl (.pure le_rfl))

end DbusAccess.InMemory
