import DbusAccess.Proofs.PolicyCompile
import DbusAccess.Proofs.PolicyDecision

/-! Runs of clients that compile, share, check, compare and drop policies. -/

namespace DbusAccess.InMemory

open Counters Separation Assertion Transition

variable {σ γ : Type} {g : GPattern σ} {host : Host} {s s' : Clients σ} {a : Addr}
  {refs refs' : List (Addr × PolicyText)} {policy : DbusAccess.DAPolicy σ}
  {objs objs' : List (Addr × DbusAccess.DAPolicy σ)}

/-- The references to a policy. -/
def count (refs : List (Addr × PolicyText)) (a : Addr) : ℕ := (refs.map Prod.fst).count a

theorem count_cons_self {r : Addr × PolicyText} : count (r :: refs) r.1 = count refs r.1 + 1 :=
  List.count_cons_self

theorem count_cons_of_ne {r : Addr × PolicyText} (h : a ≠ r.1) :
    count (r :: refs) a = count refs a := List.count_cons_of_ne h.symm

/-- Policies with their counts. -/
def Objects (refs : List (Addr × PolicyText)) (objs : List (Addr × DbusAccess.DAPolicy σ)) :
    Assertion (Block σ) := (objs.map fun o => PolicyAt o.1 (.ofNat (count refs o.1)) o.2).prod

theorem objects_cons (o : Addr × DbusAccess.DAPolicy σ) :
    Objects refs (o :: objs) = PolicyAt o.1 (.ofNat (count refs o.1)) o.2 * Objects refs objs := by
  rw [Objects, List.map_cons, List.prod_cons, Objects]

/-- The counts of other policies do not matter. -/
theorem objects_congr (h : ∀ o ∈ objs, count refs o.1 = count refs' o.1) :
    (Objects refs objs : Assertion (Block σ)) = Objects refs' objs := by
  induction objs with
  | nil => rfl
  | cons o objs ih =>
    obtain ⟨ho, h⟩ := List.forall_mem_cons.1 h
    rw [objects_cons, objects_cons, ho, ih h]

theorem objects_perm (h : objs.Perm objs') :
    (Objects refs objs : Assertion (Block σ)) = Objects refs objs' := (h.map _).prod_eq

/-- Every reference is to a policy of its text, whose count has room for it, and nothing
else is allocated. -/
structure ClientInv (g : GPattern σ) (host : Host) (s : Clients σ)
    (objs : List (Addr × DbusAccess.DAPolicy σ)) : Prop where
  nodup : (objs.map Prod.fst).Nodup
  held : ∀ o ∈ objs, s.Holds o.1
  compiled : ∀ r ∈ s.refs, ∃ policy, (r.1, policy) ∈ objs ∧
    DbusAccess.daPolicyNewFull g host r.2.spec r.2.actions = some policy
  room : ∀ a, count s.refs a ≤ 2 ^ 32
  blocks : (Objects s.refs objs : Assertion (Block σ)) s.heap.blocks

theorem ClientInv.init : ClientInv g host .init [] :=
  ⟨List.nodup_nil, fun _ h => absurd h List.not_mem_nil, fun _ h => absurd h List.not_mem_nil,
    fun _ => Nat.zero_le _, rfl⟩

theorem ClientInv.object (h : ClientInv g host s objs) (ha : s.Holds a) :
    ∃ policy, (a, policy) ∈ objs := by
  obtain ⟨r, hr, rfl⟩ := List.mem_map.1 ha
  obtain ⟨policy, hmem, -⟩ := h.compiled r hr
  exact ⟨policy, hmem⟩

theorem ClientInv.perm (h : ClientInv g host s objs) (hp : objs.Perm objs') :
    ClientInv g host s objs' where
  nodup := ((hp.map Prod.fst).nodup_iff).1 h.nodup
  held o ho := h.held o (hp.mem_iff.2 ho)
  compiled r hr := by
    obtain ⟨policy, hmem, hc⟩ := h.compiled r hr
    exact ⟨policy, hp.mem_iff.1 hmem, hc⟩
  room := h.room
  blocks := by
    rw [← objects_perm hp]
    exact h.blocks

/-- A policy in front of the others. -/
theorem ClientInv.focus (h : ClientInv g host s objs) (ha : (a, policy) ∈ objs) :
    ∃ rest, objs.Perm ((a, policy) :: rest) ∧ ClientInv g host s ((a, policy) :: rest) := by
  obtain ⟨l1, l2, rfl⟩ := List.append_of_mem ha
  exact ⟨l1 ++ l2, List.perm_middle, h.perm List.perm_middle⟩

theorem ClientInv.notMem (h : ClientInv g host s ((a, policy) :: objs)) :
    ∀ o ∈ objs, o.1 ≠ a := by
  intro o ho heq
  exact (List.nodup_cons.1 h.nodup).1 (List.mem_map.2 ⟨o, ho, heq⟩)

/-- The references stay, and so do the policies. -/
theorem ClientInv.keep {heap : Heap (Block σ)} (h : ClientInv g host s objs)
    (hb : (Objects s.refs objs : Assertion (Block σ)) heap.blocks) :
    ClientInv g host ⟨heap, s.refs⟩ objs := ⟨h.nodup, h.held, h.compiled, h.room, hb⟩

/-- A new policy is where no other one is. -/
theorem policyAt_new {n : Int32} {b : Blocks (Block σ)}
    (hb : (PolicyAt a n policy * Objects refs objs : Assertion (Block σ)) b) :
    ∀ o ∈ objs, o.1 ≠ a := by
  rintro ⟨a', policy'⟩ ho rfl
  obtain ⟨l1, l2, rfl⟩ := List.append_of_mem ho
  rw [objects_perm List.perm_middle, objects_cons, PolicyAt, PolicyAt, iSup_mul] at hb
  obtain ⟨p, hb⟩ := iSup_iff.1 hb
  rw [iSup_mul, mul_iSup] at hb
  obtain ⟨q, hb⟩ := iSup_iff.1 hb
  rw [mul_assoc, mul_assoc, mul_left_comm (EntriesAt p _)] at hb
  exact single_twice hb

theorem ClientInv.step_new (h : ClientInv g host s objs) (text : PolicyText) :
    ∃ s' objs', ClientEvent.exec g host s (.new text) = some s' ∧ ClientInv g host s' objs' := by
  have hb := h.blocks
  rw [← one_mul (Objects s.refs objs)] at hb
  obtain ⟨r, heap, he, hb⟩ := daPolicyNewFull_triple g host text.spec text.actions s.heap _ hb
  cases hv : DbusAccess.daPolicyNewFull g host text.spec text.actions with
  | none =>
    simp only [hv] at hb
    obtain ⟨rfl, hblocks⟩ := fact_mul.1 hb
    exact ⟨_, objs, by rw [ClientEvent.exec, he]; rfl, h.keep hblocks⟩
  | some policy =>
    simp only [hv, iSup_mul] at hb
    obtain ⟨a, hb⟩ := iSup_iff.1 hb
    rw [mul_assoc] at hb
    obtain ⟨rfl, hblocks⟩ := fact_mul.1 hb
    have hnew := policyAt_new hblocks
    have hcount : count s.refs a = 0 := by
      refine List.count_eq_zero.2 fun ha => ?_
      obtain ⟨policy', hmem⟩ := h.object ha
      exact hnew _ hmem rfl
    refine ⟨⟨heap, (a, text) :: s.refs⟩, (a, policy) :: objs, by rw [ClientEvent.exec, he]; rfl,
      ?_, ?_, ?_, fun b => ?_, ?_⟩
    · refine List.nodup_cons.2 ⟨fun ha => ?_, h.nodup⟩
      obtain ⟨o, ho, heq⟩ := List.mem_map.1 ha
      exact hnew o ho heq
    · refine List.forall_mem_cons.2 ⟨List.mem_cons_self, fun o ho => ?_⟩
      exact List.mem_cons_of_mem _ (h.held o ho)
    · refine List.forall_mem_cons.2 ⟨⟨policy, List.mem_cons_self, hv⟩, fun r hr => ?_⟩
      obtain ⟨policy', hmem, hc⟩ := h.compiled r hr
      exact ⟨policy', List.mem_cons_of_mem _ hmem, hc⟩
    · by_cases hb : b = a
      · rw [hb, count_cons_self, hcount]
        exact Nat.one_le_two_pow
      · rw [count_cons_of_ne hb]
        exact h.room b
    · rw [objects_cons, count_cons_self, hcount,
        objects_congr fun o ho => count_cons_of_ne (hnew o ho)]
      exact hblocks

theorem find_of_holds (ha : s.Holds a) :
    ∃ r ∈ s.refs, s.refs.find? (·.1 = a) = some r ∧ r.1 = a := by
  obtain ⟨r, hr, rfl⟩ := List.mem_map.1 ha
  cases hf : s.refs.find? (·.1 = r.1) with
  | none => exact absurd (List.find?_eq_none.1 hf r hr) (by simp)
  | some r' => exact ⟨r', List.mem_of_find?_eq_some hf, rfl, by simpa using List.find?_some hf⟩

/-- Taking a reference never fails, but only a count with room for it shows it. -/
theorem ClientInv.step_ref (h : ClientInv g host s objs) (ha : s.Holds a) :
    ∃ s', ClientEvent.exec g host s (.ref a) = some s' ∧
      (count s.refs a < 2 ^ 32 → ∃ objs', ClientInv g host s' objs') := by
  obtain ⟨policy, hmem⟩ := h.object ha
  obtain ⟨rest, -, h⟩ := h.focus hmem
  obtain ⟨r, hr, hfind, rfl⟩ := find_of_holds ha
  have hb := h.blocks
  rw [objects_cons] at hb
  obtain ⟨p, heap, he, hb⟩ := daPolicyRef_triple s.heap _ hb
  rw [mul_assoc] at hb
  replace hb := (fact_mul.1 hb).2
  refine ⟨⟨heap, r :: s.refs⟩, by rw [ClientEvent.exec, he]; simp only [hfind]; rfl,
    fun hroom => ⟨_, h.nodup, fun o ho => List.mem_cons_of_mem _ (h.held o ho),
      List.forall_mem_cons.2 ⟨h.compiled r hr, h.compiled⟩, fun b => ?_, ?_⟩⟩
  · by_cases hb : b = r.1
    · rw [hb, count_cons_self]
      exact hroom
    · rw [count_cons_of_ne hb]
      exact h.room b
  · rwa [objects_cons, count_cons_self, ← ofNat_inc,
      objects_congr fun o ho => count_cons_of_ne (h.notMem o ho)]

theorem map_eraseP (refs : List (Addr × PolicyText)) (a : Addr) :
    (refs.eraseP (·.1 = a)).map Prod.fst = (refs.map Prod.fst).erase a := by
  have hp : (fun r : Addr × PolicyText => decide (r.1 = a)) = (fun b => a == b) ∘ Prod.fst := by
    funext r
    rw [Function.comp_apply, Bool.eq_iff_iff, decide_eq_true_iff, beq_iff_eq, eq_comm]
  rw [List.erase_eq_eraseP, List.eraseP_map, hp]

theorem count_eraseP_self : count (refs.eraseP (·.1 = a)) a = count refs a - 1 := by
  rw [count, map_eraseP, List.count_erase_self, count]

theorem count_eraseP_of_ne {b : Addr} (h : b ≠ a) :
    count (refs.eraseP (·.1 = a)) b = count refs b := by
  rw [count, map_eraseP, List.count_erase_of_ne h, count]

theorem count_eraseP_le (b : Addr) : count (refs.eraseP (·.1 = a)) b ≤ count refs b :=
  List.Sublist.count_le b (List.eraseP_sublist.map _)

/-- Another reference is given up. -/
theorem ClientInv.drop {heap : Heap (Block σ)} (h : ClientInv g host s ((a, policy) :: objs))
    (hcount : count s.refs a ≠ 1)
    (hb : (PolicyAt a (.ofNat (count s.refs a) - 1) policy * Objects s.refs objs :
      Assertion (Block σ)) heap.blocks) :
    ClientInv g host ⟨heap, s.refs.eraseP (·.1 = a)⟩ ((a, policy) :: objs) where
  nodup := h.nodup
  held o ho := by
    refine List.count_pos_iff.1 ?_
    have hpos : 0 < count s.refs o.1 := List.count_pos_iff.2 (h.held o ho)
    change 0 < count (s.refs.eraseP (·.1 = a)) o.1
    by_cases ho' : o.1 = a
    · rw [ho'] at hpos ⊢
      rw [count_eraseP_self]
      omega
    · rwa [count_eraseP_of_ne ho']
  compiled r hr := h.compiled r (List.mem_of_mem_eraseP hr)
  room b := (count_eraseP_le b).trans (h.room b)
  blocks := by
    have hpos : 0 < count s.refs a := List.count_pos_iff.2 (h.held _ List.mem_cons_self)
    rwa [objects_cons, count_eraseP_self, ← ofNat_dec hpos,
      objects_congr fun o ho => count_eraseP_of_ne (h.notMem o ho)]

/-- The last reference is given up. -/
theorem ClientInv.last {heap : Heap (Block σ)} (h : ClientInv g host s ((a, policy) :: objs))
    (hcount : count s.refs a = 1)
    (hb : (Objects s.refs objs : Assertion (Block σ)) heap.blocks) :
    ClientInv g host ⟨heap, s.refs.eraseP (·.1 = a)⟩ objs where
  nodup := (List.nodup_cons.1 h.nodup).2
  held o ho := by
    refine List.count_pos_iff.1 ?_
    change 0 < count (s.refs.eraseP (·.1 = a)) o.1
    rw [count_eraseP_of_ne (h.notMem o ho)]
    exact List.count_pos_iff.2 (h.held o (List.mem_cons_of_mem _ ho))
  compiled r hr := by
    obtain ⟨policy', hmem, hc⟩ := h.compiled r (List.mem_of_mem_eraseP hr)
    refine ⟨policy', ?_, hc⟩
    rcases List.mem_cons.1 hmem with heq | hmem
    · -- no reference to this one is left
      have hzero : count (s.refs.eraseP (·.1 = a)) a = 0 := by rw [count_eraseP_self, hcount]
      refine absurd (List.mem_map.2 ⟨r, hr, ?_⟩) (List.count_eq_zero.1 hzero)
      exact congrArg Prod.fst heq
    · exact hmem
  room b := (count_eraseP_le b).trans (h.room b)
  blocks := by
    rwa [objects_congr fun o ho => count_eraseP_of_ne (h.notMem o ho)]

theorem ClientInv.step_unref (h : ClientInv g host s objs) (ha : s.Holds a) :
    ∃ s' objs', ClientEvent.exec g host s (.unref a) = some s' ∧ ClientInv g host s' objs' := by
  obtain ⟨policy, hmem⟩ := h.object ha
  obtain ⟨rest, -, h⟩ := h.focus hmem
  have hb := h.blocks
  rw [objects_cons] at hb
  by_cases hcount : count s.refs a = 1
  · rw [hcount] at hb
    obtain ⟨_, heap, he, hb⟩ := daPolicyUnref_last s.heap _ hb
    rw [one_mul] at hb
    exact ⟨_, _, by rw [ClientEvent.exec, he]; rfl, h.last hcount hb⟩
  · have hpos : 0 < count s.refs a := List.count_pos_iff.2 ha
    have hlast := mt (ofNat_eq_one hpos (h.room a)).1 hcount
    obtain ⟨_, heap, he, hb⟩ := daPolicyUnref_triple hlast s.heap _ hb
    exact ⟨_, _, by rw [ClientEvent.exec, he]; rfl, h.drop hcount hb⟩

theorem ClientInv.check (h : ClientInv g host s objs) (ha : (a, policy) ∈ objs)
    (cred : Option DACred) (action : UInt32) (arg : Option CString) (default : DAAccess) :
    ∃ heap, daPolicyCheck g (some a) cred action arg default s.heap =
        some (DbusAccess.daPolicyCheck g (some policy) cred action arg default, heap) ∧
      ClientInv g host ⟨heap, s.refs⟩ objs := by
  obtain ⟨rest, hp, h'⟩ := h.focus ha
  have hb := h'.blocks
  rw [objects_cons] at hb
  obtain ⟨heap, he, hb⟩ := (daPolicyCheck_triple (g := g) cred action arg default).run hb
  rw [← objects_cons, ← objects_perm hp] at hb
  exact ⟨heap, he, h.keep hb⟩

/-- Two policies are in different places. -/
theorem ClientInv.compare {b : Addr} {policy' : DbusAccess.DAPolicy σ}
    (h : ClientInv g host s objs) (ha : (a, policy) ∈ objs) (hb : (b, policy') ∈ objs)
    (hab : a ≠ b) :
    ∃ heap, daPolicyEqual g (some a) (some b) s.heap =
        some (DbusAccess.entriesEqual g policy.entries policy'.entries, heap) ∧
      ClientInv g host ⟨heap, s.refs⟩ objs := by
  obtain ⟨rest, hp, h1⟩ := h.focus ha
  have hmem : (b, policy') ∈ rest := by
    rcases List.mem_cons.1 (hp.mem_iff.1 hb) with heq | hmem
    · exact absurd (congrArg Prod.fst heq).symm hab
    · exact hmem
  obtain ⟨l1, l2, rfl⟩ := List.append_of_mem hmem
  have hp' : objs.Perm ((a, policy) :: (b, policy') :: (l1 ++ l2)) :=
    hp.trans (List.perm_middle.cons _)
  have hblocks := (h.perm hp').blocks
  rw [objects_cons, objects_cons, ← mul_assoc] at hblocks
  obtain ⟨heap, he, hblocks⟩ := (daPolicyEqual_triple (g := g)).run hblocks
  rw [mul_assoc, ← objects_cons, ← objects_cons, ← objects_perm hp'] at hblocks
  exact ⟨heap, he, h.keep hblocks⟩

theorem ClientInv.step (h : ClientInv g host s objs) {e : ClientEvent} (hen : e.enabled s) :
    ∃ s', e.exec g host s = some s' ∧ (e.fits s → ∃ objs', ClientInv g host s' objs') := by
  cases e with
  | new text =>
    obtain ⟨s', objs', hex, h'⟩ := h.step_new text
    exact ⟨s', hex, fun _ => ⟨objs', h'⟩⟩
  | ref a => exact h.step_ref hen
  | unref a =>
    obtain ⟨s', objs', hex, h'⟩ := h.step_unref hen
    exact ⟨s', hex, fun _ => ⟨objs', h'⟩⟩
  | check a cred action arg default =>
    obtain ⟨policy, hmem⟩ := h.object hen
    obtain ⟨heap, he, h'⟩ := h.check hmem cred action arg default
    exact ⟨_, by rw [ClientEvent.exec, he]; rfl, fun _ => ⟨objs, h'⟩⟩
  | equal a b =>
    by_cases hab : a = b
    · subst hab
      refine ⟨s, ?_, fun _ => ⟨objs, h⟩⟩
      rw [ClientEvent.exec, daPolicyEqual, if_pos rfl]
      rfl
    · obtain ⟨policy, hmem⟩ := h.object hen.1
      obtain ⟨policy', hmem'⟩ := h.object hen.2
      obtain ⟨heap, he, h'⟩ := h.compare hmem hmem' hab
      exact ⟨_, by rw [ClientEvent.exec, he]; rfl, fun _ => ⟨objs, h'⟩⟩

theorem run_clientInv {acts : List ClientEvent} (h : Run (countedClients g host) acts s) :
    ∃ objs, ClientInv g host s objs :=
  h.invariant (I := fun s => ∃ objs, ClientInv g host s objs) ⟨[], .init⟩
    fun s e s' ⟨objs, hinv⟩ hen hex => by
      obtain ⟨t, ht, hinv'⟩ := hinv.step hen.1
      obtain rfl : t = s' := Option.some_inj.1 (ht.symm.trans hex)
      exact hinv' hen.2

/-- The policy of a reference is the one of its text. -/
theorem ClientInv.policy_eq (h : ClientInv g host s objs) {r : Addr × PolicyText} (hr : r ∈ s.refs)
    (hpolicy : DbusAccess.daPolicyNewFull g host r.2.spec r.2.actions = some policy) :
    (r.1, policy) ∈ objs := by
  obtain ⟨policy', hmem, hc⟩ := h.compiled r hr
  rw [hc, Option.some_inj] at hpolicy
  rwa [← hpolicy]

/-- In every run of clients that use what they hold, in which no count comes round: no block
is used after its release or released twice or in the wrong way, none is lost, and a policy
that is held stays what its text made it. -/
theorem clients_safe (g : GPattern σ) (host : Host) (acts : List ClientEvent) (s : Clients σ)
    (h : Run (countedClients g host) acts s) : ClientsSafe g host s := by
  obtain ⟨objs, hinv⟩ := run_clientInv h
  refine ⟨fun e hen => ?_, fun r hr => ?_, fun r hr => ?_, ?_, fun hrefs => ?_⟩
  · obtain ⟨s', hex, -⟩ := hinv.step hen
    exact ⟨s', hex⟩
  · obtain ⟨policy, hmem, -⟩ := hinv.compiled r hr
    obtain ⟨rest, -, hinv⟩ := hinv.focus hmem
    have hb := hinv.blocks
    rw [objects_cons, PolicyAt, iSup_mul] at hb
    obtain ⟨p, hb⟩ := iSup_iff.1 hb
    rw [mul_assoc] at hb
    exact ⟨p, (single_mul.1 hb).1⟩
  · obtain ⟨policy, hmem, hc⟩ := hinv.compiled r hr
    refine ⟨policy, hc, fun cred action arg default => ?_⟩
    obtain ⟨heap, he, -⟩ := hinv.check hmem cred action arg default
    exact ⟨heap, he⟩
  · intro r1 hr1 r2 hr2 hne policy1 policy2 h1 h2
    obtain ⟨heap, he, -⟩ := hinv.compare (hinv.policy_eq hr1 h1) (hinv.policy_eq hr2 h2) hne
    exact ⟨heap, he⟩
  · cases objs with
    | nil => exact hinv.blocks
    | cons o objs =>
      have ho := hinv.held o List.mem_cons_self
      rw [Clients.Holds, hrefs] at ho
      exact absurd ho List.not_mem_nil

/-- Two clients share one policy, and compare it with another one. -/
def exampleClients : List ClientEvent :=
  [.new ⟨some (str "*=deny;user(1)"), none⟩, .ref 14, .unref 14,
    .new ⟨some (str "!group(7)"), none⟩, .equal 14 30, .check 30 none 0 none .DENY, .unref 14,
    .unref 30]

theorem clients_safe_example : ∃ s, Run (countedClients globPattern exampleHost) exampleClients s ∧
    ClientsSafe globPattern exampleHost s := by
  obtain ⟨s, hs⟩ := Option.isSome_iff_exists.1 (show
    ((countedClients globPattern exampleHost).replay .init exampleClients).isSome = true by
      decide +kernel)
  have hrun := Run.nil.replay hs
  exact ⟨s, hrun, clients_safe globPattern exampleHost _ s hrun⟩

end DbusAccess.InMemory
