import DbusAccess.Proofs.PolicyDecision

/-! What a policy decides depends on the caller through the ids it mentions. -/

namespace DbusAccess

variable {σ : Type} {g : GPattern σ} {cred cred1 cred2 : Option DACred}
  {ids ids' : List (ℤ × ℤ)} {uid gid : ℤ}

theorem AlikeIn.mono (h : AlikeIn ids cred1 cred2) (hsub : ids' ⊆ ids) :
    AlikeIn ids' cred1 cred2 :=
  ⟨fun i hi => h.user i (hsub hi), fun i hi => h.group i (hsub hi)⟩

/-- A concrete id is that of the caller, or the match fails. -/
theorem matchUser_concrete (h : ConcreteId uid) :
    daPolicyExprIdentityMatchUser uid cred = true ↔ HasUser cred uid := by
  unfold daPolicyExprIdentityMatchUser HasUser
  rw [if_neg h.1, if_neg h.2]
  cases cred <;> simp

theorem matchGroup_concrete (h : ConcreteId gid) :
    daPolicyExprIdentityMatchGroup gid cred = true ↔ HasGroup cred gid := by
  unfold daPolicyExprIdentityMatchGroup HasGroup
  rw [if_neg h.1, if_neg h.2]
  cases cred <;> simp

/-- Other ids do not depend on the caller at all. -/
theorem matchUser_congr (h : ConcreteId uid → (HasUser cred1 uid ↔ HasUser cred2 uid)) :
    daPolicyExprIdentityMatchUser uid cred1 = daPolicyExprIdentityMatchUser uid cred2 := by
  by_cases hw : uid = DA_WILDCARD
  · simp only [daPolicyExprIdentityMatchUser, hw, if_true]
  by_cases hi : uid = DA_INVALID
  · simp only [daPolicyExprIdentityMatchUser, hi, if_true]
  rw [Bool.eq_iff_iff, matchUser_concrete ⟨hw, hi⟩, matchUser_concrete ⟨hw, hi⟩]
  exact h ⟨hw, hi⟩

theorem matchGroup_congr (h : ConcreteId gid → (HasGroup cred1 gid ↔ HasGroup cred2 gid)) :
    daPolicyExprIdentityMatchGroup gid cred1 = daPolicyExprIdentityMatchGroup gid cred2 := by
  by_cases hw : gid = DA_WILDCARD
  · simp only [daPolicyExprIdentityMatchGroup, hw, if_true]
  by_cases hi : gid = DA_INVALID
  · simp only [daPolicyExprIdentityMatchGroup, hi, if_true]
  rw [Bool.eq_iff_iff, matchGroup_concrete ⟨hw, hi⟩, matchGroup_concrete ⟨hw, hi⟩]
  exact h ⟨hw, hi⟩

/-- Induction on the tree: operators, negation included, see equal results. -/
theorem exprMatch_congr {x : DAPolicyExpr σ} (h : AlikeIn x.identities cred1 cred2)
    (action : UInt32) (arg : Option CString) :
    daPolicyExprMatch g ⟨cred1, action, arg⟩ x = daPolicyExprMatch g ⟨cred2, action, arg⟩ x := by
  induction x with
  | null => rfl
  | custom => rfl
  | identity uid gid =>
    have hmem : (uid, gid) ∈ (DAPolicyExpr.identity uid gid : DAPolicyExpr σ).identities :=
      List.mem_singleton_self _
    simp only [daPolicyExprMatch, daPolicyExprIdentityMatch]
    rw [matchUser_congr (h.user _ hmem), matchGroup_congr (h.group _ hmem)]
  | not operand ih =>
    simp only [daPolicyExprMatch]
    rw [ih h]
  | and left right ihl ihr =>
    simp only [daPolicyExprMatch]
    rw [ihl (h.mono (List.subset_append_left ..)), ihr (h.mono (List.subset_append_right ..))]
  | or left right ihl ihr =>
    simp only [daPolicyExprMatch]
    rw [ihl (h.mono (List.subset_append_left ..)), ihr (h.mono (List.subset_append_right ..))]

theorem entries_congr {entries : List (DAPolicyEntry σ)}
    (h : AlikeIn (DAPolicy.mk entries).identities cred1 cred2) (action : UInt32)
    (arg : Option CString) (result : DAAccess) :
    entries.foldl (fun result entry =>
        if daPolicyExprMatch g ⟨cred1, action, arg⟩ entry.expr then entry.access else result)
        result =
      entries.foldl (fun result entry =>
        if daPolicyExprMatch g ⟨cred2, action, arg⟩ entry.expr then entry.access else result)
        result := by
  induction entries generalizing result with
  | nil => rfl
  | cons entry entries ih =>
    have hids : (DAPolicy.mk (entry :: entries)).identities =
        entry.expr.identities ++ (DAPolicy.mk entries).identities := List.flatMap_cons
    rw [hids] at h
    rw [List.foldl_cons, List.foldl_cons,
      exprMatch_congr (h.mono (List.subset_append_left ..)),
      ih (h.mono (List.subset_append_right ..))]

theorem any_root (cred : Option DACred) : cred.any (·.euid == 0) = true ↔ ¬ NonRoot cred := by
  cases cred <;> simp [NonRoot]

theorem check_alike (policy : Option (DAPolicy σ)) (h1 : NonRoot cred1) (h2 : NonRoot cred2)
    (h : ∀ p, policy = some p → AlikeIn p.identities cred1 cred2) (action : UInt32)
    (arg : Option CString) (default : DAAccess) :
    daPolicyCheck g policy cred1 action arg default =
      daPolicyCheck g policy cred2 action arg default := by
  unfold daPolicyCheck
  rw [if_neg fun hroot => (any_root cred1).1 hroot h1,
    if_neg fun hroot => (any_root cred2).1 hroot h2]
  cases policy with
  | none => rfl
  | some p => exact entries_congr (h p rfl) action arg default

/-- Two callers other than root, alike in the ids that the policy mentions, get the same
answer. So do callers with the same user and the same set of groups, whatever else is
different, and no credentials are those of a stranger. -/
theorem daPolicyCheck_ids (g : GPattern σ) (policy : Option (DAPolicy σ)) (action : UInt32)
    (arg : Option CString) (default : DAAccess) :
    (∀ cred1 cred2, NonRoot cred1 → NonRoot cred2 →
      (∀ p, policy = some p → AlikeIn p.identities cred1 cred2) →
        daPolicyCheck g policy cred1 action arg default =
          daPolicyCheck g policy cred2 action arg default) ∧
    (∀ c1 c2 : DACred, c1.euid = c2.euid →
      (∀ id, id ∈ c1.egid :: c1.groups ↔ id ∈ c2.egid :: c2.groups) →
        daPolicyCheck g policy (some c1) action arg default =
          daPolicyCheck g policy (some c2) action arg default) ∧
    ∀ c : DACred, c.euid ≠ 0 →
      (∀ p, policy = some p → ∀ i ∈ p.identities, (ConcreteId i.1 → ¬ HasUser (some c) i.1) ∧
        (ConcreteId i.2 → ¬ HasGroup (some c) i.2)) →
        daPolicyCheck g policy none action arg default =
          daPolicyCheck g policy (some c) action arg default := by
  have hnone : NonRoot none := by simp [NonRoot]
  refine ⟨fun cred1 cred2 h1 h2 h => check_alike policy h1 h2 h action arg default, ?_, ?_⟩
  · intro c1 c2 hu hgroups
    by_cases hroot : c1.euid = 0
    · simp [daPolicyCheck, hroot, ← hu]
    · have h1 : NonRoot (some c1) := by simpa [NonRoot] using hroot
      have h2 : NonRoot (some c2) := by simpa [NonRoot, ← hu] using hroot
      refine check_alike policy h1 h2 (fun p _ => ⟨fun i _ _ => ?_, fun i _ _ => ?_⟩) _ _ _
      · simp [HasUser, hu]
      · simp only [HasGroup, Option.some.injEq, exists_eq_left', hgroups]
  · intro c hroot hstranger
    have h2 : NonRoot (some c) := by simpa [NonRoot] using hroot
    have hno : ∀ id, ¬ HasUser none id ∧ ¬ HasGroup none id := by
      intro id
      simp [HasUser, HasGroup]
    refine check_alike policy hnone h2 (fun p hp => ⟨fun i hi hc => ?_, fun i hi hc => ?_⟩) _ _ _
    · exact iff_of_false (hno _).1 ((hstranger p hp i hi).1 hc)
    · exact iff_of_false (hno _).2 ((hstranger p hp i hi).2 hc)

/-- A stranger to the group of a negated rule, and nobody. -/
def exampleNotGroup : DAPolicy CString := ⟨[⟨.DENY, .not (.identity DA_WILDCARD 5)⟩]⟩

theorem daPolicyCheck_ids_stranger :
    daPolicyCheck globPattern (some exampleNotGroup) none 0 none .ALLOW =
      daPolicyCheck globPattern (some exampleNotGroup) (some ⟨1, 6, [7, 7], 3, 1⟩) 0 none
        .ALLOW := by
  refine (daPolicyCheck_ids globPattern _ 0 none .ALLOW).2.2 ⟨1, 6, [7, 7], 3, 1⟩ (by decide) ?_
  rintro p ⟨rfl⟩ i hi
  obtain rfl : i = (DA_WILDCARD, 5) := by simpa [exampleNotGroup, DAPolicy.identities,
    DAPolicyExpr.identities] using hi
  refine ⟨fun hc => absurd rfl hc.1, fun _ ⟨c, hc, id, hid, heq⟩ => ?_⟩
  obtain rfl := Option.some_inj.1 hc
  simp only [List.mem_cons, List.not_mem_nil, or_false] at hid
  rcases hid with rfl | rfl | rfl
  all_goals exact absurd heq (by decide)

end DbusAccess
