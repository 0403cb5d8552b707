import DbusAccess.Proofs.TermPlaces

/-! Names of users and groups in policies: which accounts they stand for, next to the
numerals of the same accounts. -/

namespace DbusAccess

open MaximalMunch Numerals

variable {σ : Type} {g : GPattern σ} {host : Host} {w v : CString} {t t' : Token}
  {u g' : IdSyntax} {account : Option UInt32} {cred : Option DACred} {id uid gid : UInt32}

/-! Terms in policies. -/

theorem inPolicies_user (hw : ReadsArg w t) (hu : DerivesId [t] u) :
    InPolicies host (TermText (str "user") w) (.term (.user u)) :=
  inPolicies_of_term (.user hu) fun _ post hx => scanAll_user hx hw post

theorem inPolicies_group (hw : ReadsArg w t) (hu : DerivesId [t] u) :
    InPolicies host (TermText (str "group") w) (.term (.group u)) :=
  inPolicies_of_term (.group hu) fun _ post hx => scanAll_group hx hw post

theorem inPolicies_pair (hw : ReadsArg w t) (hv : ReadsArg v t') (hu : DerivesId [t] u)
    (hg : DerivesId [t'] g') : InPolicies host (PairText w v) (.term (.userGroup u g')) :=
  inPolicies_of_term (.userGroup hu hg) fun _ post hx => scanAll_pair hx hw hv post

/-- A word that the scanner reads as a name. -/
def IsName (w : CString) : Prop :=
  scan scanRules ⟨.ARGS, []⟩ w = ([.WORD w], ⟨.ARGS, []⟩)

theorem IsName.reads (h : IsName w) : ReadsArg w (.WORD w) := readsArg_of_scan h

theorem reads_decimal (n : ℕ) : ReadsArg (decimal n) (.NUMBER (readInt (decimal n))) := by
  rw [← number_eq (isDecimal_decimal n)]
  obtain ⟨hne, hd⟩ := isDecimal_digits (isDecimal_decimal n)
  exact readsArg_of_scan (scan_digits hne hd)

/-! The ids of names. -/

/-- The id that a policy has for an account in the database, or for none. -/
def accountId : Option UInt32 → ℤ
  | some id => if id.toNat < 2 ^ 31 then id.toNat else DA_INVALID
  | none => DA_INVALID

theorem wordId_toInt (id : UInt32) : wordId (toInt id.toNat) = accountId (some id) := by
  have hid := id.toNat_lt
  rw [wordId, accountId]
  by_cases h : id.toNat < 2 ^ 31
  · rw [toInt_of_lt h, if_pos h, if_neg (by omega)]
  · have hlow := toInt_lower id.toNat
    have hup := toInt_upper id.toNat
    have hmod := toInt_emod id.toNat
    rw [if_neg h, if_pos (by omega)]

theorem uid_word (host : Host) (w : CString) :
    (IdSyntax.word w).uid host = accountId (host.getpwnam w) := by
  rw [IdSyntax.uid, daSystemUid]
  cases host.getpwnam w with
  | none => rfl
  | some id => exact wordId_toInt id

theorem gid_word (host : Host) (w : CString) :
    (IdSyntax.word w).gid host = accountId (host.getgrnam w) := by
  rw [IdSyntax.gid, daSystemGid]
  cases host.getgrnam w with
  | none => rfl
  | some id => exact wordId_toInt id

theorem accountId_ok (account : Option UInt32) :
    IdOk (accountId account) ∧ accountId account ≠ DA_WILDCARD := by
  cases account with
  | none => exact ⟨Or.inr (Or.inl rfl), by decide⟩
  | some id =>
    rw [accountId]
    split_ifs with h
    · exact ⟨Or.inr (Or.inr ⟨by omega, by omega⟩), by rw [DA_WILDCARD]; omega⟩
    · exact ⟨Or.inr (Or.inl rfl), by decide⟩

theorem means_accountId {id' : UInt32} :
    Means (accountId account) id' ↔ ∃ id, account = some id ∧ id.toNat < 2 ^ 31 ∧
      id'.toNat = id.toNat := by
  cases account with
  | none => simp [Means, accountId, DA_INVALID]
  | some id =>
    simp only [Means, accountId, Option.some.injEq, exists_eq_left']
    split_ifs with h
    · omega
    · refine iff_of_false (fun hm => absurd hm.1 (by decide)) fun hm => h hm.1

/-- The caller is the user that has this account. -/
def NamedUser (account : Option UInt32) (cred : Option DACred) : Prop :=
  ∃ id, account = some id ∧ UserIs id.toNat cred

/-- The caller is a member of the group that has this account. -/
def NamedGroup (account : Option UInt32) (cred : Option DACred) : Prop :=
  ∃ id, account = some id ∧ GroupIs id.toNat cred

theorem matchUser_account :
    daPolicyExprIdentityMatchUser (accountId account) cred = true ↔
      ∃ id, account = some id ∧ id.toNat < 2 ^ 31 ∧ UserIs id.toNat cred := by
  obtain ⟨hok, hw⟩ := accountId_ok account
  rw [matchUser_iff hok, or_iff_right hw]
  simp only [means_accountId, UserIs]
  apply Iff.intro
  · intro h
    obtain ⟨c, hc, id, ha, hlt, heq⟩ := h
    exact ⟨id, ha, hlt, c, hc, heq⟩
  · intro h
    obtain ⟨id, ha, hlt, c, hc, heq⟩ := h
    exact ⟨c, hc, id, ha, hlt, heq⟩

theorem matchGroup_account :
    daPolicyExprIdentityMatchGroup (accountId account) cred = true ↔
      ∃ id, account = some id ∧ id.toNat < 2 ^ 31 ∧ GroupIs id.toNat cred := by
  obtain ⟨hok, hw⟩ := accountId_ok account
  rw [matchGroup_iff hok, or_iff_right hw]
  simp only [means_accountId, GroupIs]
  apply Iff.intro
  · intro h
    obtain ⟨c, hc, id', hmem, id, ha, hlt, heq⟩ := h
    exact ⟨id, ha, hlt, c, hc, id', hmem, heq⟩
  · intro h
    obtain ⟨id, ha, hlt, c, hc, id', hmem, heq⟩ := h
    exact ⟨c, hc, id', hmem, id, ha, hlt, heq⟩

/-! The ids of numerals. -/

/-- From `2 ^ 31` on a numeral is for everybody. -/
theorem numeralId_decimal (id : UInt32) : numeralId (decimal id.toNat) =
    if id.toNat < 2 ^ 31 then (id.toNat : ℤ) else DA_WILDCARD := by
  have hid := id.toNat_lt
  split_ifs with h
  · rw [numeralId_of_lt (by rwa [value_decimal]), value_decimal]
  · have hmin : min (value 10 (decimal id.toNat)) ULLONG_MAX = id.toNat := by
      rw [value_decimal, ULLONG_MAX]
      omega
    have hlow := toInt_lower id.toNat
    have hup := toInt_upper id.toNat
    have hmod := toInt_emod id.toNat
    rw [numeralId, readInt, hmin, numberId, if_pos (by omega)]

theorem matchUser_decimal :
    daPolicyExprIdentityMatchUser (numeralId (decimal id.toNat)) cred = true ↔
      (id.toNat < 2 ^ 31 → UserIs id.toNat cred) := by
  by_cases h : id.toNat < 2 ^ 31
  · rw [matchUser_numeral (by rwa [value_decimal]), value_decimal]
    exact (imp_iff_right h).symm
  · rw [numeralId_decimal, if_neg h]
    exact iff_of_true rfl fun hlt => absurd hlt h

theorem matchGroup_decimal :
    daPolicyExprIdentityMatchGroup (numeralId (decimal id.toNat)) cred = true ↔
      (id.toNat < 2 ^ 31 → GroupIs id.toNat cred) := by
  by_cases h : id.toNat < 2 ^ 31
  · rw [matchGroup_numeral (by rwa [value_decimal]), value_decimal]
    exact (imp_iff_right h).symm
  · rw [numeralId_decimal, if_neg h]
    exact iff_of_true rfl fun hlt => absurd hlt h

/-! Which callers a term selects. -/

variable (g host) in
/-- Whether an expression is true of a caller. -/
def ExprSyntax.matches (z : ExprSyntax) (actions : Option (List DAAction))
    (pc : DAPolicyCheck) : Bool :=
  daPolicyExprMatch g pc (daPolicyExprNew g (z.tree host actions))

variable (g host) in
/-- It is true of these callers, and of no others. -/
def Selects (z : ExprSyntax) (P : Option DACred → Prop) : Prop :=
  ∀ actions pc, z.matches g host actions pc = true ↔ P pc.cred

variable (g host) in
def SameCallers (z z' : ExprSyntax) : Prop :=
  ∀ actions pc, z.matches g host actions pc = z'.matches g host actions pc

theorem sameCallers_iff {z z' : ExprSyntax} : SameCallers g host z z' ↔ ∀ actions pc,
    (z.matches g host actions pc = true ↔ z'.matches g host actions pc = true) :=
  forall_congr' fun _ => forall_congr' fun _ => Bool.eq_iff_iff

theorem matches_user (actions : Option (List DAAction)) (pc : DAPolicyCheck) :
    (ExprSyntax.term (.user u)).matches g host actions pc = true ↔
      daPolicyExprIdentityMatchUser (u.uid host) pc.cred = true :=
  (match_identity g _ _ pc).trans (and_iff_left rfl)

theorem matches_group (actions : Option (List DAAction)) (pc : DAPolicyCheck) :
    (ExprSyntax.term (.group u)).matches g host actions pc = true ↔
      daPolicyExprIdentityMatchGroup (u.gid host) pc.cred = true :=
  (match_identity g _ _ pc).trans (and_iff_right rfl)

theorem matches_pair (actions : Option (List DAAction)) (pc : DAPolicyCheck) :
    (ExprSyntax.term (.userGroup u g')).matches g host actions pc = true ↔
      daPolicyExprIdentityMatchUser (u.uid host) pc.cred = true ∧
        daPolicyExprIdentityMatchGroup (g'.gid host) pc.cred = true :=
  match_identity g _ _ pc

/-- The caller with these ids. -/
def callerOf (uid gid : UInt32) : DAPolicyCheck := ⟨some ⟨uid, gid, [], 0, 0⟩, 0, none⟩

theorem userIs_callerOf (uid gid : UInt32) : UserIs uid.toNat (callerOf uid gid).cred :=
  userIs_some.2 rfl

theorem groupIs_callerOf (uid gid : UInt32) : GroupIs gid.toNat (callerOf uid gid).cred :=
  groupIs_single.2 rfl

theorem selects_user_iff : Selects g host (.term (.user (.word w))) (NamedUser (host.getpwnam w)) ↔
    ∀ id, host.getpwnam w = some id → id.toNat < 2 ^ 31 := by
  unfold Selects
  simp only [matches_user, uid_word, matchUser_account, NamedUser]
  apply Iff.intro
  · intro h id hid
    obtain ⟨id', hid', hlt, -⟩ := (h none (callerOf id 0)).2 ⟨id, hid, userIs_callerOf id 0⟩
    rw [hid, Option.some.injEq] at hid'
    rwa [hid']
  · intro h _ pc
    exact exists_congr fun id => and_congr_right fun hid => and_iff_right (h id hid)

theorem selects_group_iff :
    Selects g host (.term (.group (.word w))) (NamedGroup (host.getgrnam w)) ↔
      ∀ id, host.getgrnam w = some id → id.toNat < 2 ^ 31 := by
  unfold Selects
  simp only [matches_group, gid_word, matchGroup_account, NamedGroup]
  apply Iff.intro
  · intro h id hid
    obtain ⟨id', hid', hlt, -⟩ := (h none (callerOf 0 id)).2 ⟨id, hid, groupIs_callerOf 0 id⟩
    rw [hid, Option.some.injEq] at hid'
    rwa [hid']
  · intro h _ pc
    exact exists_congr fun id => and_congr_right fun hid => and_iff_right (h id hid)

theorem selects_pair_iff :
    Selects g host (.term (.userGroup (.word w) (.word v)))
        (fun cred => NamedUser (host.getpwnam w) cred ∧ NamedGroup (host.getgrnam v) cred) ↔
      ∀ uid gid, host.getpwnam w = some uid → host.getgrnam v = some gid →
        uid.toNat < 2 ^ 31 ∧ gid.toNat < 2 ^ 31 := by
  unfold Selects
  simp only [matches_pair, uid_word, gid_word, matchUser_account, matchGroup_account, NamedUser,
    NamedGroup]
  apply Iff.intro
  · intro h uid gid huid hgid
    obtain ⟨⟨uid', huid', hlt, -⟩, ⟨gid', hgid', hlt', -⟩⟩ := (h none (callerOf uid gid)).2
      ⟨⟨uid, huid, userIs_callerOf uid gid⟩, ⟨gid, hgid, groupIs_callerOf uid gid⟩⟩
    rw [huid, Option.some.injEq] at huid'
    rw [hgid, Option.some.injEq] at hgid'
    rw [huid', hgid']
    exact ⟨hlt, hlt'⟩
  · intro h _ pc
    apply Iff.intro
    · intro hm
      obtain ⟨⟨uid, huid, -, hu⟩, ⟨gid, hgid, -, hg⟩⟩ := hm
      exact ⟨⟨uid, huid, hu⟩, ⟨gid, hgid, hg⟩⟩
    · intro hm
      obtain ⟨⟨uid, huid, hu⟩, ⟨gid, hgid, hg⟩⟩ := hm
      obtain ⟨hlt, hlt'⟩ := h uid gid huid hgid
      exact ⟨⟨uid, huid, hlt, hu⟩, ⟨gid, hgid, hlt', hg⟩⟩

/-! Names and numerals. -/

/-- The numeral of an id. -/
def numeralSyntax (id : UInt32) : IdSyntax := .number (readInt (decimal id.toNat))

theorem matchUser_numeralSyntax :
    daPolicyExprIdentityMatchUser ((numeralSyntax id).uid host) cred = true ↔
      (id.toNat < 2 ^ 31 → UserIs id.toNat cred) := matchUser_decimal

theorem matchGroup_numeralSyntax :
    daPolicyExprIdentityMatchGroup ((numeralSyntax id).gid host) cred = true ↔
      (id.toNat < 2 ^ 31 → GroupIs id.toNat cred) := matchGroup_decimal

theorem matchUser_word (h : host.getpwnam w = some id) :
    daPolicyExprIdentityMatchUser ((IdSyntax.word w).uid host) cred = true ↔
      id.toNat < 2 ^ 31 ∧ UserIs id.toNat cred := by
  rw [uid_word, h, matchUser_account]
  simp only [Option.some.injEq, exists_eq_left']

theorem matchGroup_word (h : host.getgrnam w = some id) :
    daPolicyExprIdentityMatchGroup ((IdSyntax.word w).gid host) cred = true ↔
      id.toNat < 2 ^ 31 ∧ GroupIs id.toNat cred := by
  rw [gid_word, h, matchGroup_account]
  simp only [Option.some.injEq, exists_eq_left']

theorem sameCallers_user_iff (h : host.getpwnam w = some id) :
    SameCallers g host (.term (.user (.word w))) (.term (.user (numeralSyntax id))) ↔
      id.toNat < 2 ^ 31 := by
  rw [sameCallers_iff]
  simp only [matches_user, matchUser_word h, matchUser_numeralSyntax]
  apply Iff.intro
  · intro hm
    exact ((hm none (callerOf id 0)).2 fun _ => userIs_callerOf id 0).1
  · intro hlt _ pc
    rw [and_iff_right hlt, imp_iff_right hlt]

theorem sameCallers_group_iff (h : host.getgrnam w = some id) :
    SameCallers g host (.term (.group (.word w))) (.term (.group (numeralSyntax id))) ↔
      id.toNat < 2 ^ 31 := by
  rw [sameCallers_iff]
  simp only [matches_group, matchGroup_word h, matchGroup_numeralSyntax]
  apply Iff.intro
  · intro hm
    exact ((hm none (callerOf 0 id)).2 fun _ => groupIs_callerOf 0 id).1
  · intro hlt _ pc
    rw [and_iff_right hlt, imp_iff_right hlt]

theorem sameCallers_pair_iff (hu : host.getpwnam w = some uid) (hg : host.getgrnam v = some gid) :
    SameCallers g host (.term (.userGroup (.word w) (.word v)))
        (.term (.userGroup (numeralSyntax uid) (numeralSyntax gid))) ↔
      uid.toNat < 2 ^ 31 ∧ gid.toNat < 2 ^ 31 := by
  rw [sameCallers_iff]
  simp only [matches_pair, matchUser_word hu, matchGroup_word hg,
    matchUser_numeralSyntax, matchGroup_numeralSyntax]
  apply Iff.intro
  · intro hm
    obtain ⟨⟨hlt, -⟩, ⟨hlt', -⟩⟩ := (hm none (callerOf uid gid)).2
      ⟨fun _ => userIs_callerOf uid gid, fun _ => groupIs_callerOf uid gid⟩
    exact ⟨hlt, hlt'⟩
  · intro hlt _ pc
    rw [and_iff_right hlt.1, and_iff_right hlt.2, imp_iff_right hlt.1, imp_iff_right hlt.2]

/-- A name stands for the account of that name, or for nobody when there is none, and for
the same callers as the numeral of the account, exactly when the id of the account is below
`2 ^ 31`; so for users, for groups and for both together, anywhere in a policy. -/
theorem named_ids_iff (g : GPattern σ) (host : Host) (w v : CString) (hw : IsName w)
    (hv : IsName v) :
    (InPolicies host (TermText (str "user") w) (.term (.user (.word w))) ∧
      (Selects g host (.term (.user (.word w))) (NamedUser (host.getpwnam w)) ↔
        ∀ id, host.getpwnam w = some id → id.toNat < 2 ^ 31) ∧
      ∀ id, host.getpwnam w = some id →
        InPolicies host (TermText (str "user") (decimal id.toNat))
          (.term (.user (numeralSyntax id))) ∧
        (SameCallers g host (.term (.user (.word w))) (.term (.user (numeralSyntax id))) ↔
          id.toNat < 2 ^ 31)) ∧
    (InPolicies host (TermText (str "group") w) (.term (.group (.word w))) ∧
      (Selects g host (.term (.group (.word w))) (NamedGroup (host.getgrnam w)) ↔
        ∀ id, host.getgrnam w = some id → id.toNat < 2 ^ 31) ∧
      ∀ id, host.getgrnam w = some id →
        InPolicies host (TermText (str "group") (decimal id.toNat))
          (.term (.group (numeralSyntax id))) ∧
        (SameCallers g host (.term (.group (.word w))) (.term (.group (numeralSyntax id))) ↔
          id.toNat < 2 ^ 31)) ∧
    InPolicies host (PairText w v) (.term (.userGroup (.word w) (.word v))) ∧
    (Selects g host (.term (.userGroup (.word w) (.word v)))
        (fun cred => NamedUser (host.getpwnam w) cred ∧ NamedGroup (host.getgrnam v) cred) ↔
      ∀ uid gid, host.getpwnam w = some uid → host.getgrnam v = some gid →
        uid.toNat < 2 ^ 31 ∧ gid.toNat < 2 ^ 31) ∧
    ∀ uid gid, host.getpwnam w = some uid → host.getgrnam v = some gid →
      InPolicies host (PairText (decimal uid.toNat) (decimal gid.toNat))
        (.term (.userGroup (numeralSyntax uid) (numeralSyntax gid))) ∧
      (SameCallers g host (.term (.userGroup (.word w) (.word v)))
          (.term (.userGroup (numeralSyntax uid) (numeralSyntax gid))) ↔
        uid.toNat < 2 ^ 31 ∧ gid.toNat < 2 ^ 31) := by
  refine ⟨⟨inPolicies_user hw.reads (.word w), selects_user_iff, fun id hid => ?_⟩,
    ⟨inPolicies_group hw.reads (.word w), selects_group_iff, fun id hid => ?_⟩,
    inPolicies_pair hw.reads hv.reads (.word w) (.word v), selects_pair_iff,
    fun uid gid huid hgid => ?_⟩
  · exact ⟨inPolicies_user (reads_decimal _) (.number _), sameCallers_user_iff hid⟩
  · exact ⟨inPolicies_group (reads_decimal _) (.number _), sameCallers_group_iff hid⟩
  · exact ⟨inPolicies_pair (reads_decimal _) (reads_decimal _) (.number _) (.number _),
      sameCallers_pair_iff huid hgid⟩

theorem isName_root : IsName (str "root") :=
  scan_word (by decide) (by decide +kernel) (by decide)

theorem named_ids_iff_root :
    SameCallers globPattern exampleHost (.term (.user (.word (str "root"))))
      (.term (.user (numeralSyntax 0))) ↔ (0 : UInt32).toNat < 2 ^ 31 :=
  ((named_ids_iff globPattern exampleHost (str "root") (str "root") isName_root
    isName_root).1.2.2 0 rfl).2

/-- A host with an account in the upper half of the ids. -/
def upperHost : Host where
  charSigned := true
  getpwnam user := if user = str "nobody" then some 4294967294 else none
  getgrnam _ := none

/-- A rule for `nobody` does not let in `nobody`. -/
theorem named_ids_refused :
    IsName (str "nobody") ∧
      NamedUser (upperHost.getpwnam (str "nobody")) (some ⟨4294967294, 7, [], 0, 0⟩) ∧
      ∃ p, daPolicyNewFull globPattern upperHost (some (str "user(nobody)")) none = some p ∧
        daPolicyCheck globPattern (some p) (some ⟨4294967294, 7, [], 0, 0⟩) 0 none .DENY =
          .DENY := by
  refine ⟨scan_word (by decide) (by decide +kernel) (by decide), ⟨4294967294, rfl,
    userIs_some.2 rfl⟩, ?_⟩
  exact ⟨⟨[⟨.ALLOW, .identity (-2) (-1)⟩]⟩, by decide +kernel, rfl⟩

end DbusAccess
