import DbusAccess.Proofs.PolicyClients
import DbusAccess.Proofs.PolicySteps

/-! Interleavings of threads that share policies. A reference keeps a policy as it is; who
gives up the last one has the policy alone. -/

namespace DbusAccess.InMemory

open Counters Separation Assertion Transition

variable {σ γ : Type} {g : GPattern σ} {host : Host} {s s' : Threads σ} {a : Addr} {n : Int32}
  {links l l' : List (Addr × DAPolicyEntry)} {c : Addr × DAPolicyEntry}
  {es es' : List DAPolicyEntry} {v : DbusAccess.DAPolicyEntry σ}
  {vs vs' : List (DbusAccess.DAPolicyEntry σ)} {call : CheckCall} {result : DAAccess}

/-! What a step does to a policy. Its links stay where they are. -/

/-- A policy whose first expressions may be freed already. -/
def PolicyIn (a : Addr) (n : Int32) (links : List (Addr × DAPolicyEntry)) (es : List DAPolicyEntry)
    (vs : List (DbusAccess.DAPolicyEntry σ)) : Assertion (Block σ) :=
  single a (.policy ⟨n, front links⟩) *
    (Chain entryLinked (front links) links none * ExprsAt es vs)

theorem policyAt_eq (a : Addr) (n : Int32) (policy : DbusAccess.DAPolicy σ) :
    PolicyAt a n policy = ⨆ links, PolicyIn a n links (links.map Prod.snd) policy.entries := by
  unfold PolicyAt EntriesAt PolicyIn
  simp only [mul_iSup]
  rw [iSup_comm]
  refine iSup_congr fun links => le_antisymm (iSup_le fun p => ?_) (le_iSup (fun p =>
    single a (Block.policy ⟨n, p⟩) *
      (Chain entryLinked p links none * ExprsAt (links.map Prod.snd) policy.entries)) (front links))
  rw [chain_front, mul_assoc, mul_left_comm]
  intro b hb
  obtain ⟨rfl, hb⟩ := fact_mul.1 hb
  exact hb

theorem exprsAt_length {es : List DAPolicyEntry} {vs : List (DbusAccess.DAPolicyEntry σ)}
    {b : Blocks (Block σ)} (h : (ExprsAt es vs : Assertion (Block σ)) b) :
    es.length = vs.length := by
  induction es generalizing vs b with
  | nil =>
    cases vs with
    | nil => rfl
    | cons v vs => exact h.1.elim
  | cons e es ih =>
    cases vs with
    | nil => exact h.1.elim
    | cons v vs =>
      obtain ⟨-, -, b2, -, -, -, h2⟩ := fact_mul.1 h
      rw [List.length_cons, List.length_cons, ih h2]

theorem policyIn_length {R : Assertion (Block σ)} {b : Blocks (Block σ)}
    (h : (PolicyIn a n links es vs * R) b) : es.length = vs.length := by
  obtain ⟨_, _, _, _, ⟨_, _, _, _, _, _, _, _, _, _, hexprs⟩, _⟩ := h
  exact exprsAt_length hexprs

theorem exprsAt_middle (e : DAPolicyEntry) (h : es.length = vs.length) :
    (ExprsAt (es ++ e :: es') (vs ++ v :: vs') : Assertion (Block σ)) =
      fact (e.access = v.access) * (ExprAt v.expr e.expr * (ExprsAt es vs * ExprsAt es' vs')) := by
  induction es generalizing vs with
  | nil =>
    obtain rfl := List.length_eq_zero_iff.1 h.symm
    rw [List.nil_append, List.nil_append, ExprsAt, ExprsAt, one_mul]
  | cons e' es ih =>
    cases vs with
    | nil => cases h
    | cons v' vs =>
      rw [List.cons_append, List.cons_append, ExprsAt, ih (Nat.succ_injective h), ExprsAt]
      ac_rfl

theorem checkStart_triple : Observes (PolicyIn a n links es vs : Assertion (Block σ))
    (checkStart a call) (if call.root then .checking a call none .ALLOW
      else .checking a call (front links) call.default) := by
  unfold checkStart
  split_ifs
  · exact .pure _
  · exact readPolicy_triple (Observes.pure (P := PolicyIn a n links es vs) _)

theorem checkEntry_triple (h : es.length = vs.length) :
    Observes (PolicyIn a n (l ++ c :: l') (es ++ c.2 :: es') (vs ++ v :: vs'))
      (checkEntry g call c.1 result)
      (front l', if DbusAccess.daPolicyExprMatch g ⟨call.cred, call.action, call.arg⟩ v.expr
        then v.access else result) := by
  unfold PolicyIn checkEntry
  rw [exprsAt_middle c.2 h]
  refine .within (fact (c.2.access = v.access) * (Chain entryLinked (front (l ++ c :: l'))
    (l ++ c :: l') none * (ExprAt v.expr c.2.expr * (single a (.policy ⟨n, front (l ++ c :: l')⟩) *
      (ExprsAt es vs * ExprsAt es' vs'))))) (by ac_rfl) (.fact fun hc => ?_)
  refine Triple.chainLook ?_
  simp only [entryLinked.view_node]
  rw [← hc]
  refine Observes.within _ (mul_left_comm _ _ _)
    (((daPolicyExprMatch_triple _).frame _).bind (?_ : Observes _ _ _))
  split_ifs
  · exact .pure _
  · exact .pure _

theorem finalizeEntry_triple :
    Triple (PolicyIn a n (l ++ c :: l') (c.2 :: es) (v :: vs)) (finalizeEntry c.1)
      fun next => fact (next = front l') * PolicyIn a n (l ++ c :: l') es vs := by
  unfold PolicyIn finalizeEntry
  rw [ExprsAt]
  refine .pre (fact (c.2.access = v.access) * (Chain entryLinked (front (l ++ c :: l'))
    (l ++ c :: l') none * (ExprAt v.expr c.2.expr * (single a (.policy ⟨n, front (l ++ c :: l')⟩) *
      ExprsAt es vs)))) (by ac_rfl) (.fact fun _ => ?_)
  refine Triple.chainLook ?_
  simp only [entryLinked.view_node]
  rw [mul_left_comm]
  refine daPolicyExprFree_triple.call fun _ => .pure ?_
  rw [fact_true rfl, one_mul, one_mul]
  exact le_of_eq (by ac_rfl)

theorem unreferenced_triple : Observes (PolicyIn a n links es vs : Assertion (Block σ))
    ((Phase.unreferenced a).step g) (.finalizing a (front links)) :=
  readPolicy_triple (Observes.pure (P := PolicyIn a n links es vs) _)

theorem freePolicy_triple :
    Triple (PolicyIn a n links [] [] : Assertion (Block σ)) (freePolicy a) fun _ => 1 := by
  unfold PolicyIn freePolicy
  rw [ExprsAt, mul_one]
  refine readPolicy_triple (.bound ((AtLeast.zero _).mul chain_atLeast) fun n hn => ?_)
  rw [mul_comm]
  refine (freeLinks_triple (fun d n => rfl) n (by omega)).call fun _ => ?_
  rw [mul_comm]
  exact .last (release_triple rfl (.pure le_rfl))

theorem gAtomicIntDecAndTest_triple :
    Triple (PolicyIn a n links es vs : Assertion (Block σ)) (gAtomicIntDecAndTest a)
      fun zero => fact (zero = decide (n - 1 = 0)) * PolicyIn a (n - 1) links es vs := by
  refine readPolicy_triple (.write (.pure ?_))
  rw [fact_true rfl, one_mul]
  rfl

theorem daPolicyRef_triple_in :
    Triple (PolicyIn a n links es vs : Assertion (Block σ)) (daPolicyRef (some a))
      fun _ => PolicyIn a (n + 1) links es vs :=
  readPolicy_triple (.write (.pure le_rfl))

/-! Policies and threads. -/

def refCount (refs : List Reference) (a : Addr) : ℕ := (refs.map Reference.policy).count a

/-- A policy in memory: where its entries are, and how many expressions are freed. -/
structure Shared (σ : Type) where
  addr : Addr
  links : List (Addr × DAPolicyEntry)
  policy : DbusAccess.DAPolicy σ
  freed : ℕ
  length : links.length = policy.entries.length

def Shared.At (refs : List Reference) (o : Shared σ) : Assertion (Block σ) :=
  PolicyIn o.addr (.ofNat (refCount refs o.addr)) o.links ((o.links.drop o.freed).map Prod.snd)
    (o.policy.entries.drop o.freed)

def AllAt (refs : List Reference) (objs : List (Shared σ)) : Assertion (Block σ) :=
  (objs.map (Shared.At refs)).prod

/-- Between the rounds of a check: the result of the entries so far. -/
def Shared.checked (g : GPattern σ) (o : Shared σ) (call : CheckCall) (k : ℕ) : DAAccess :=
  (o.policy.entries.take k).foldl (fun result entry =>
    if DbusAccess.daPolicyExprMatch g ⟨call.cred, call.action, call.arg⟩ entry.expr
    then entry.access else result) call.default

/-- What a thread may rely on, with the number of steps that are left. -/
def Phase.Ok (g : GPattern σ) (refs : List Reference) (objs : List (Shared σ)) (t : ThreadId) :
    ℕ → Phase → Prop
  | m, .idle => m = 0
  | m, .checking a call entry result => (∃ r ∈ refs, r.thread = t ∧ r.policy = a) ∧
    ∃ o ∈ objs, o.addr = a ∧ o.freed = 0 ∧ ∃ k ≤ o.links.length, entry = front (o.links.drop k) ∧
      m = o.links.length - k + 1 ∧
      if call.root then k = o.links.length ∧ result = .ALLOW else result = o.checked g call k
  | m, .unreferenced a => refCount refs a = 0 ∧
    ∃ o ∈ objs, o.addr = a ∧ o.freed = 0 ∧ m = o.links.length + 2
  | m, .finalizing a entry => refCount refs a = 0 ∧
    ∃ o ∈ objs, o.addr = a ∧ o.freed ≤ o.links.length ∧
      entry = front (o.links.drop o.freed) ∧ m = o.links.length - o.freed + 1

/-- A policy that nobody refers to has a thread that destroys it. `left` gives the steps
that are left to each thread. -/
structure ThreadInv (g : GPattern σ) (host : Host) (s : Threads σ) (objs : List (Shared σ))
    (left : ThreadId → ℕ) : Prop where
  nodup : (objs.map Shared.addr).Nodup
  compiled : ∀ r ∈ s.refs, ∃ o ∈ objs, o.addr = r.policy ∧ o.freed = 0 ∧
    DbusAccess.daPolicyNewFull g host r.text.spec r.text.actions = some o.policy
  needed : ∀ o ∈ objs, 0 < refCount s.refs o.addr ∨ ∃ t, (s.phase t).destroys o.addr = true
  phases : ∀ t, (s.phase t).Ok g s.refs objs t (left t)
  alone : ∀ t t' a, (s.phase t).destroys a = true → (s.phase t').destroys a = true → t = t'
  room : ∀ a, refCount s.refs a ≤ 2 ^ 32
  blocks : (AllAt s.refs objs : Assertion (Block σ)) s.heap.blocks

variable {objs objs' : List (Shared σ)} {o o' : Shared σ} {refs refs' : List Reference}
  {t t' : ThreadId} {m : ℕ} {left : ThreadId → ℕ} {ph ph' : Phase} {heap : Heap (Block σ)}

theorem allAt_cons (refs : List Reference) (o : Shared σ) (objs : List (Shared σ)) :
    AllAt refs (o :: objs) = o.At refs * AllAt refs objs := by
  rw [AllAt, List.map_cons, List.prod_cons, AllAt]

theorem allAt_perm (h : objs.Perm objs') :
    (AllAt refs objs : Assertion (Block σ)) = AllAt refs objs' := (h.map _).prod_eq

theorem at_congr (h : refCount refs o.addr = refCount refs' o.addr) :
    (o.At refs : Assertion (Block σ)) = o.At refs' := by
  rw [Shared.At, Shared.At, h]

theorem allAt_congr (h : ∀ o ∈ objs, refCount refs o.addr = refCount refs' o.addr) :
    (AllAt refs objs : Assertion (Block σ)) = AllAt refs' objs := by
  unfold AllAt
  rw [List.map_congr_left fun o ho => at_congr (h o ho)]

theorem ThreadInv.init : ThreadInv g host .init [] fun _ => 0 where
  nodup := List.nodup_nil
  compiled _ h := absurd h List.not_mem_nil
  needed _ h := absurd h List.not_mem_nil
  phases _ := rfl
  alone _ _ _ h := by cases h
  room _ := Nat.zero_le _
  blocks := rfl

/-! What threads rely on is kept. -/

/-- References and policies may come, and no reference of the thread goes. -/
theorem Phase.Ok.mono (h : ph.Ok g refs objs t m)
    (hrefs : ∀ r ∈ refs, r.thread = t → ∃ r' ∈ refs', r'.thread = t ∧ r'.policy = r.policy)
    (hcount : ∀ o ∈ objs, refCount refs o.addr = 0 → refCount refs' o.addr = 0)
    (hobjs : ∀ o ∈ objs, some o.addr = ph.policy → o ∈ objs') : ph.Ok g refs' objs' t m := by
  cases ph with
  | idle => exact h
  | checking a call entry result =>
    obtain ⟨⟨r, hr, ht, rfl⟩, o, ho, haddr, hrest⟩ := h
    obtain ⟨r', hr', ht', hp⟩ := hrefs r hr ht
    exact ⟨⟨r', hr', ht', hp⟩, o, hobjs o ho (congrArg some haddr), haddr, hrest⟩
  | unreferenced a =>
    obtain ⟨hzero, o, ho, rfl, hrest⟩ := h
    exact ⟨hcount o ho hzero, o, hobjs o ho rfl, rfl, hrest⟩
  | finalizing a entry =>
    obtain ⟨hzero, o, ho, rfl, hrest⟩ := h
    exact ⟨hcount o ho hzero, o, hobjs o ho rfl, rfl, hrest⟩

theorem ThreadInv.perm (h : ThreadInv g host s objs left) (hp : objs.Perm objs') :
    ThreadInv g host s objs' left where
  nodup := ((hp.map Shared.addr).nodup_iff).1 h.nodup
  compiled r hr := by
    obtain ⟨o, ho, hrest⟩ := h.compiled r hr
    exact ⟨o, hp.mem_iff.1 ho, hrest⟩
  needed o ho := h.needed o (hp.mem_iff.2 ho)
  phases t := (h.phases t).mono (fun r hr ht => ⟨r, hr, ht, rfl⟩) (fun _ _ => id)
    fun o ho _ => hp.mem_iff.1 ho
  alone := h.alone
  room := h.room
  blocks := allAt_perm hp ▸ h.blocks

/-- A policy in front of the others. -/
theorem ThreadInv.focus (h : ThreadInv g host s objs left) (ho : o ∈ objs) :
    ∃ rest, objs.Perm (o :: rest) ∧ ThreadInv g host s (o :: rest) left := by
  obtain ⟨l1, l2, rfl⟩ := List.append_of_mem ho
  exact ⟨l1 ++ l2, List.perm_middle, h.perm List.perm_middle⟩

theorem ThreadInv.same (h : ThreadInv g host s objs left) (ho : o ∈ objs) (ho' : o' ∈ objs)
    (ha : o.addr = o'.addr) : o = o' := List.inj_on_of_nodup_map h.nodup ho ho' ha

theorem ThreadInv.ne (h : ThreadInv g host s (o :: objs) left) (ho' : o' ∈ objs) :
    o'.addr ≠ o.addr := by
  intro heq
  exact (List.nodup_cons.1 h.nodup).1 (List.mem_map.2 ⟨o', ho', heq⟩)

/-- Reading a policy changes nothing. -/
theorem ThreadInv.observe {c : Prog (Block σ) γ} {x : γ} (h : ThreadInv g host s objs left)
    (ho : o ∈ objs) (hc : Observes (o.At s.refs) c x) :
    ∃ heap, c s.heap = some (x, heap) ∧ (AllAt s.refs objs : Assertion (Block σ)) heap.blocks := by
  obtain ⟨rest, hp, h'⟩ := h.focus ho
  have hb := h'.blocks
  rw [allAt_cons] at hb
  obtain ⟨heap, he, hb⟩ := hc.run hb
  rw [← allAt_cons, ← allAt_perm hp] at hb
  exact ⟨heap, he, hb⟩

theorem setPhase_of_ne (s : Threads σ) (ph : Phase) (h : t' ≠ t) :
    (s.setPhase t ph).phase t' = s.phase t' := Function.update_of_ne h ..

theorem ThreadInv.phases_after (h : ThreadInv g host s objs left) (hok : ph.Ok g refs' objs' t m)
    (hkeep : ∀ t' m', t' ≠ t → (s.phase t').Ok g s.refs objs t' m' →
      (s.phase t').Ok g refs' objs' t' m') (t' : ThreadId) :
    ((s.setPhase t ph).phase t').Ok g refs' objs' t' (Function.update left t m t') := by
  by_cases hself : t' = t
  · rw [hself, setPhase_self, Function.update_self]
    exact hok
  · rw [setPhase_of_ne _ _ hself, Function.update_of_ne hself]
    exact hkeep t' _ hself (h.phases t')

/-- What a thread destroys now must not be what another one destroys. -/
theorem ThreadInv.alone_after (h : ThreadInv g host s objs left)
    (hother : ∀ t' a, t' ≠ t → ph.destroys a = true → (s.phase t').destroys a ≠ true)
    (t1 t2 : ThreadId) (a : Addr) (h1 : ((s.setPhase t ph).phase t1).destroys a = true)
    (h2 : ((s.setPhase t ph).phase t2).destroys a = true) : t1 = t2 := by
  by_cases hself1 : t1 = t
  · by_cases hself2 : t2 = t
    · rw [hself1, hself2]
    · rw [hself1, setPhase_self] at h1
      rw [setPhase_of_ne _ _ hself2] at h2
      exact absurd h2 (hother t2 a hself2 h1)
  · rw [setPhase_of_ne _ _ hself1] at h1
    by_cases hself2 : t2 = t
    · rw [hself2, setPhase_self] at h2
      exact absurd h1 (hother t1 a hself1 h2)
    · rw [setPhase_of_ne _ _ hself2] at h2
      exact h.alone t1 t2 a h1 h2

/-- A thread goes on, and destroys what it did before. -/
theorem ThreadInv.quiet (h : ThreadInv g host s objs left)
    (hb : (AllAt s.refs objs : Assertion (Block σ)) heap.blocks) (hok : ph.Ok g s.refs objs t m)
    (hd : ∀ a, ph.destroys a = (s.phase t).destroys a) :
    ThreadInv g host ({ s with heap := heap }.setPhase t ph) objs (Function.update left t m) := by
  have hsame : ∀ t' a, ((({ s with heap := heap } : Threads σ).setPhase t ph).phase t').destroys a =
      (s.phase t').destroys a := by
    intro t' a
    by_cases ht : t' = t
    · rw [ht, setPhase_self, hd]
    · rw [setPhase_of_ne _ _ ht]
  refine ⟨h.nodup, h.compiled, fun o ho => ?_, h.phases_after hok fun _ _ _ => id,
    fun t1 t2 a h1 h2 => ?_, h.room, hb⟩
  · refine (h.needed o ho).imp id fun ⟨t', ht'⟩ => ⟨t', ?_⟩
    rw [hsame, ht']
  · rw [hsame] at h1 h2
    exact h.alone t1 t2 a h1 h2

/-- A thread reads a policy, and goes on. -/
theorem ThreadInv.quiet_step (h : ThreadInv g host s objs left) (ph : Phase) (ho : o ∈ objs)
    (hc : Observes (o.At s.refs) ((s.phase t).step g) ph) (hok : ph.Ok g s.refs objs t m)
    (hd : ∀ a, ph.destroys a = (s.phase t).destroys a) :
    ∃ s', ThreadEvent.exec g host s (.step t) = some s' ∧
      ThreadInv g host s' objs (Function.update left t m) := by
  obtain ⟨heap, he, hb⟩ := h.observe ho hc
  exact ⟨_, by rw [ThreadEvent.exec, he]; rfl, h.quiet hb hok hd⟩

/-! Rounds. -/

theorem Shared.at_whole (refs : List Reference) (h : o.freed = 0) :
    (o.At refs : Assertion (Block σ)) =
      PolicyIn o.addr (.ofNat (refCount refs o.addr)) o.links (o.links.map Prod.snd)
        o.policy.entries := by
  rw [Shared.At, h, List.drop_zero, List.drop_zero]

theorem front_drop {k : ℕ} (h : k < links.length) : front (links.drop k) = some links[k].1 := by
  rw [List.drop_eq_getElem_cons h]
  rfl

theorem front_drop_length {k : ℕ} (h : links.length ≤ k) : front (links.drop k) = none := by
  rw [List.drop_eq_nil_of_le h]
  rfl

theorem Shared.checked_succ {k : ℕ} (h : k < o.policy.entries.length) :
    o.checked g call (k + 1) =
      if DbusAccess.daPolicyExprMatch g ⟨call.cred, call.action, call.arg⟩
        o.policy.entries[k].expr then o.policy.entries[k].access else o.checked g call k := by
  rw [Shared.checked, List.take_succ_eq_append_getElem h, List.foldl_append]
  rfl

theorem Shared.checked_all (hroot : call.root = false) :
    o.checked g call o.links.length =
      DbusAccess.daPolicyCheck g (some o.policy) call.cred call.action call.arg call.default := by
  rw [Shared.checked, o.length, List.take_length, DbusAccess.daPolicyCheck]
  rw [CheckCall.root] at hroot
  rw [hroot]
  rfl

theorem split_at {α : Type} (l : List α) {k : ℕ} (h : k < l.length) :
    l = l.take k ++ l[k] :: l.drop (k + 1) := by
  rw [← List.drop_eq_getElem_cons h, List.take_append_drop]

theorem Shared.checkEntry_at {k : ℕ} (hf : o.freed = 0) (hk : k < o.links.length) :
    Observes (o.At refs) (checkEntry g call o.links[k].1 (o.checked g call k))
      (front (o.links.drop (k + 1)), o.checked g call (k + 1)) := by
  have hk' : k < o.policy.entries.length := o.length ▸ hk
  rw [o.at_whole refs hf, o.checked_succ hk']
  have hround : Observes (PolicyIn o.addr (.ofNat (refCount refs o.addr))
      (o.links.take k ++ o.links[k] :: o.links.drop (k + 1))
      ((o.links.take k).map Prod.snd ++ o.links[k].2 :: (o.links.drop (k + 1)).map Prod.snd)
      (o.policy.entries.take k ++ o.policy.entries[k] :: o.policy.entries.drop (k + 1)))
      (checkEntry g call o.links[k].1 (o.checked g call k)) _ :=
    checkEntry_triple (by rw [List.length_map, List.length_take, List.length_take, o.length])
  rw [← split_at o.links hk, ← split_at o.policy.entries hk', ← List.map_cons, ← List.map_append,
    ← split_at o.links hk] at hround
  exact hround

theorem Shared.finalizeEntry_at (hk : o.freed < o.links.length) :
    Triple (o.At refs) (finalizeEntry o.links[o.freed].1) fun next =>
      fact (next = front (o.links.drop (o.freed + 1))) *
        ({ o with freed := o.freed + 1 } : Shared σ).At refs := by
  have hk' : o.freed < o.policy.entries.length := o.length ▸ hk
  have hround : Triple (PolicyIn o.addr (.ofNat (refCount refs o.addr))
      (o.links.take o.freed ++ o.links[o.freed] :: o.links.drop (o.freed + 1))
      (o.links[o.freed].2 :: (o.links.drop (o.freed + 1)).map Prod.snd)
      (o.policy.entries[o.freed] :: o.policy.entries.drop (o.freed + 1)))
      (finalizeEntry o.links[o.freed].1) _ := finalizeEntry_triple
  rw [← split_at o.links hk, ← List.map_cons, ← List.drop_eq_getElem_cons hk,
    ← List.drop_eq_getElem_cons hk'] at hround
  exact hround

/-! Who destroys a policy has it alone. -/

theorem refCount_eq_zero : refCount refs a = 0 ↔ ∀ r ∈ refs, r.policy ≠ a := by
  rw [refCount, List.count_eq_zero]
  simp

theorem Phase.Ok.unreferenced (h : ph.Ok g refs objs t m) (hd : ph.destroys a = true) :
    refCount refs a = 0 := by
  cases ph with
  | idle => cases hd
  | checking => cases hd
  | unreferenced b =>
    obtain rfl := beq_iff_eq.1 hd
    exact h.1
  | finalizing b entry =>
    obtain rfl := beq_iff_eq.1 hd
    exact h.1

theorem ThreadInv.untouched (h : ThreadInv g host s objs left) (ht : (s.phase t).destroys a = true)
    (hne : t' ≠ t) : (s.phase t').policy ≠ some a := by
  have hm' := h.phases t'
  have hzero := refCount_eq_zero.1 ((h.phases t).unreferenced ht)
  intro hpolicy
  have hboth : (s.phase t').destroys a = true → False := fun hd => hne (h.alone t' t a hd ht)
  cases hph : s.phase t' with
  | idle =>
    rw [hph] at hpolicy
    cases hpolicy
  | checking b call entry result =>
    rw [hph] at hpolicy hm'
    obtain rfl := Option.some.inj hpolicy
    obtain ⟨⟨r, hr, -, hp⟩, -⟩ := hm'
    exact hzero r hr hp
  | unreferenced b =>
    rw [hph] at hpolicy hboth
    exact hboth (beq_iff_eq.2 (Option.some.inj hpolicy))
  | finalizing b entry =>
    rw [hph] at hpolicy hboth
    exact hboth (beq_iff_eq.2 (Option.some.inj hpolicy))

theorem Phase.destroys_unique {b : Addr} (ha : ph.destroys a = true) (hb : ph.destroys b = true) :
    a = b := by
  cases ph with
  | idle => cases ha
  | checking => cases ha
  | unreferenced => exact (beq_iff_eq.1 ha).symm.trans (beq_iff_eq.1 hb)
  | finalizing => exact (beq_iff_eq.1 ha).symm.trans (beq_iff_eq.1 hb)

/-- The policies that a thread does not destroy stay as they are. -/
theorem ThreadInv.destroying (h : ThreadInv g host s (o :: objs) left)
    (ht : (s.phase t).destroys o.addr = true)
    (hb : (AllAt s.refs objs' : Assertion (Block σ)) heap.blocks)
    (hnodup : (objs'.map Shared.addr).Nodup) (hsub : ∀ o' ∈ objs, o' ∈ objs')
    (hback : ∀ o' ∈ objs', o' ∈ objs ∨ o'.addr = o.addr ∧ ph.destroys o.addr = true)
    (hok : ph.Ok g s.refs objs' t m) (hd : ∀ a, ph.destroys a = true → a = o.addr) :
    ThreadInv g host ({ s with heap := heap }.setPhase t ph) objs' (Function.update left t m) := by
  have hzero := refCount_eq_zero.1 ((h.phases t).unreferenced ht)
  refine ⟨hnodup, fun r hr => ?_, fun o' ho' => ?_, h.phases_after hok fun t' m' hself hm' => ?_,
    h.alone_after fun t' a hself h1 h2 => ?_, h.room, hb⟩
  · obtain ⟨o', ho', haddr, hrest⟩ := h.compiled r hr
    rcases List.mem_cons.1 ho' with rfl | ho'
    · exact absurd haddr.symm (hzero r hr)
    · exact ⟨o', hsub o' ho', haddr, hrest⟩
  · rcases hback o' ho' with hmem | ⟨haddr, hself⟩
    · refine (h.needed o' (List.mem_cons_of_mem _ hmem)).imp id ?_
      rintro ⟨t', ht'⟩
      refine ⟨t', ?_⟩
      rwa [setPhase_of_ne]
      rintro rfl
      exact h.ne hmem (Phase.destroys_unique ht' ht)
    · refine Or.inr ⟨t, ?_⟩
      rw [setPhase_self, haddr, hself]
  · refine hm'.mono (fun r hr hrt => ⟨r, hr, hrt, rfl⟩) (fun _ _ => id) fun o' ho' ha => ?_
    rcases List.mem_cons.1 ho' with rfl | ho'
    · exact absurd ha.symm (h.untouched ht hself)
    · exact hsub o' ho'
  · rw [hd a h1] at h2
    exact hself (h.alone t' t o.addr h2 ht)

theorem exec_step (h : (s.phase t).step g s.heap = some (ph, heap)) :
    ThreadEvent.exec g host s (.step t) = some ({ s with heap := heap }.setPhase t ph) := by
  rw [ThreadEvent.exec, h]
  rfl

theorem ThreadInv.step_finalize (h : ThreadInv g host s (o :: objs) left)
    (hph : s.phase t = .finalizing o.addr (front (o.links.drop o.freed)))
    (hk : o.freed < o.links.length) :
    ∃ s', ThreadEvent.exec g host s (.step t) = some s' ∧
      ThreadInv g host s' ({ o with freed := o.freed + 1 } :: objs)
        (Function.update left t (o.links.length - (o.freed + 1) + 1)) := by
  have hself : (s.phase t).destroys o.addr = true := by
    rw [hph]
    exact beq_self_eq_true o.addr
  have hb := h.blocks
  rw [allAt_cons] at hb
  obtain ⟨next, heap, he, hb⟩ := o.finalizeEntry_at hk s.heap _ hb
  rw [mul_assoc, ← allAt_cons] at hb
  obtain ⟨hnext, hb⟩ := fact_mul.1 hb
  have hok : (Phase.finalizing o.addr (front (o.links.drop (o.freed + 1)))).Ok g s.refs
      ({ o with freed := o.freed + 1 } :: objs) t (o.links.length - (o.freed + 1) + 1) :=
    ⟨(h.phases t).unreferenced hself, _, List.mem_cons_self, rfl, hk, rfl, rfl⟩
  refine ⟨_, exec_step ?_, h.destroying hself hb h.nodup
    (fun o' => List.mem_cons_of_mem _) ?_ hok ?_⟩
  · rw [hph, front_drop hk, Phase.step, run_bind he, hnext]
    rfl
  · intro o' ho'
    rcases List.mem_cons.1 ho' with rfl | ho'
    · exact Or.inr ⟨rfl, beq_self_eq_true o.addr⟩
    · exact Or.inl ho'
  · exact fun a ha => (beq_iff_eq.1 ha).symm

theorem ThreadInv.step_free (h : ThreadInv g host s (o :: objs) left)
    (hph : s.phase t = .finalizing o.addr none) (hk : o.freed = o.links.length) :
    ∃ s', ThreadEvent.exec g host s (.step t) = some s' ∧
      ThreadInv g host s' objs (Function.update left t 0) := by
  have hself : (s.phase t).destroys o.addr = true := by
    rw [hph]
    exact beq_self_eq_true o.addr
  have hb := h.blocks
  rw [allAt_cons, Shared.At, hk, List.drop_length, o.length, List.drop_length, List.map_nil] at hb
  obtain ⟨_, heap, he, hb⟩ := freePolicy_triple s.heap _ hb
  rw [one_mul] at hb
  have hidle : Phase.idle.Ok g s.refs objs t 0 := rfl
  refine ⟨_, exec_step ?_, h.destroying hself hb (List.nodup_cons.1 h.nodup).2
    (fun o' => id) (fun o' => Or.inl) hidle (fun a ha => by cases ha)⟩
  rw [hph, Phase.step, run_bind he]
  rfl

theorem ThreadInv.step_check {entry : Option Addr} (h : ThreadInv g host s objs left)
    (hph : s.phase t = .checking a call entry result) (hleft : left t = m + 1) :
    ∃ s', ThreadEvent.exec g host s (.step t) = some s' ∧
      ThreadInv g host s' objs (Function.update left t m) := by
  have hd : ∀ b, Phase.destroys b (s.phase t) = false := by
    intro b
    rw [hph]
    rfl
  have hok := h.phases t
  rw [hph, hleft] at hok
  obtain ⟨hr, o, ho, rfl, hf, k, hk, rfl, hm, hresult⟩ := hok
  rcases hk.lt_or_eq with hlt | rfl
  · -- there is another entry, so the caller is not root
    have hroot : call.root = false := by
      by_contra hroot
      rw [if_pos (Bool.eq_true_of_not_eq_false hroot)] at hresult
      omega
    rw [hroot, if_neg Bool.false_ne_true] at hresult
    subst hresult
    refine h.quiet_step (.checking o.addr call (front (o.links.drop (k + 1)))
      (o.checked g call (k + 1))) ho ?_ ⟨hr, o, ho, rfl, hf, k + 1, hlt, rfl, by omega, ?_⟩ ?_
    · rw [hph, front_drop hlt]
      exact Observes.map (o.checkEntry_at hf hlt) fun r => Phase.checking o.addr call r.1 r.2
    · rw [hroot, if_neg Bool.false_ne_true]
    · exact fun b => (hd b).symm
  · obtain rfl : m = 0 := by omega
    refine h.quiet_step .idle ho ?_ rfl fun b => (hd b).symm
    rw [hph, front_drop_length le_rfl]
    exact .pure _

/-- One step less is left. -/
theorem ThreadInv.step_step (h : ThreadInv g host s objs left) (hleft : left t = m + 1) :
    ∃ s' objs', ThreadEvent.exec g host s (.step t) = some s' ∧
      ThreadInv g host s' objs' (Function.update left t m) := by
  have hok := h.phases t
  rw [hleft] at hok
  cases hph : s.phase t with
  | idle =>
    rw [hph] at hok
    cases hok
  | checking a call entry result =>
    obtain ⟨s', hex, hinv⟩ := h.step_check hph hleft
    exact ⟨s', objs, hex, hinv⟩
  | unreferenced a =>
    rw [hph] at hok
    obtain ⟨hzero, o, ho, rfl, hf, hm⟩ := hok
    have hwhole := o.at_whole s.refs hf
    obtain ⟨s', hex, hinv⟩ := h.quiet_step (t := t) (m := m)
      (.finalizing o.addr (front o.links)) ho
      (by rw [hph, hwhole]; exact unreferenced_triple)
      ⟨hzero, o, ho, rfl, by omega, by rw [hf, List.drop_zero], by omega⟩
      (fun b => by rw [hph]; rfl)
    exact ⟨s', objs, hex, hinv⟩
  | finalizing a entry =>
    rw [hph] at hok
    obtain ⟨hzero, o, ho, rfl, hk, rfl, hm⟩ := hok
    obtain ⟨rest, -, h'⟩ := h.focus ho
    rcases hk.lt_or_eq with hlt | heq
    · obtain ⟨s', hex, hinv⟩ := h'.step_finalize hph hlt
      obtain rfl : m = o.links.length - (o.freed + 1) + 1 := by omega
      exact ⟨s', _, hex, hinv⟩
    · obtain ⟨s', hex, hinv⟩ := h'.step_free (by rw [hph, front_drop_length heq.ge]) heq
      obtain rfl : m = 0 := by omega
      exact ⟨s', _, hex, hinv⟩

/-- Nothing is left to do for an idle thread only. -/
theorem Phase.Ok.eq_zero (h : ph.Ok g refs objs t m) : ph = .idle ↔ m = 0 := by
  cases ph with
  | idle => exact iff_of_true rfl h
  | checking =>
    obtain ⟨-, o, -, -, -, k, -, -, rfl, -⟩ := h
    exact iff_of_false (fun hidle => by cases hidle) (Nat.succ_ne_zero _)
  | unreferenced =>
    obtain ⟨-, o, -, -, -, rfl⟩ := h
    exact iff_of_false (fun hidle => by cases hidle) (Nat.succ_ne_zero _)
  | finalizing =>
    obtain ⟨-, o, -, -, -, -, rfl⟩ := h
    exact iff_of_false (fun hidle => by cases hidle) (Nat.succ_ne_zero _)

/-! Calls. -/

theorem Phase.eq_idle (h : ph.isIdle = true) : ph = .idle := by
  cases ph with
  | idle => rfl
  | checking => cases h
  | unreferenced => cases h
  | finalizing => cases h

theorem refCount_perm (h : refs.Perm refs') (a : Addr) : refCount refs a = refCount refs' a :=
  (h.map _).count_eq a

theorem refCount_cons_self (r : Reference) : refCount (r :: refs) r.policy = refCount refs r.policy + 1 :=
  List.count_cons_self

theorem refCount_cons_of_ne {r : Reference} (h : a ≠ r.policy) :
    refCount (r :: refs) a = refCount refs a := List.count_cons_of_ne h.symm

/-- One of the references that a thread holds. -/
theorem Threads.Holds.split (h : s.Holds t a) : ∃ r rest, s.refs.Perm (r :: rest) ∧
    s.refs.eraseP (Reference.is t a) = rest ∧ s.refs.find? (Reference.is t a) = some r ∧
    r.thread = t ∧ r.policy = a := by
  obtain ⟨r0, hr0, his0⟩ := List.any_eq_true.1 h
  obtain ⟨r, l1, l2, hl1, his, hsplit, herase⟩ := List.exists_of_eraseP hr0 his0
  obtain ⟨ht, ha⟩ : r.thread = t ∧ r.policy = a := by simpa [Reference.is] using his
  refine ⟨r, l1 ++ l2, hsplit ▸ List.perm_middle, herase, ?_, ht, ha⟩
  rw [hsplit, List.find?_append, List.find?_eq_none.2 hl1, List.find?_cons_of_pos his]
  rfl

/-- A call of an idle thread: references change, and perhaps the thread has a policy to
destroy. -/
theorem ThreadInv.recount (h : ThreadInv g host s objs left) (ph : Phase)
    (ht : (s.phase t).isIdle = true)
    (hb : (AllAt refs' objs : Assertion (Block σ)) heap.blocks)
    (hfrom : ∀ r ∈ refs', ∃ r0 ∈ s.refs, r0.policy = r.policy ∧ r0.text = r.text)
    (hneeded : ∀ o ∈ objs, 0 < refCount s.refs o.addr →
      0 < refCount refs' o.addr ∨ ph.destroys o.addr = true)
    (hzero : ∀ o ∈ objs, refCount s.refs o.addr = 0 → refCount refs' o.addr = 0)
    (hkeep : ∀ r ∈ s.refs, r.thread ≠ t → ∃ r' ∈ refs', r'.thread = r.thread ∧
      r'.policy = r.policy)
    (hroom : ∀ a, refCount refs' a ≤ 2 ^ 32)
    (hok : ph.Ok g refs' objs t m) (hd : ∀ a, ph.destroys a = true → 0 < refCount s.refs a) :
    ThreadInv g host ((⟨heap, refs', s.phase⟩ : Threads σ).setPhase t ph) objs
      (Function.update left t m) := by
  refine ⟨h.nodup, fun r hr => ?_, fun o ho => ?_, h.phases_after hok fun t' m' hself hm' => ?_,
    h.alone_after fun t' a _ h1 h2 => ?_, hroom, hb⟩
  · obtain ⟨r0, hr0, hp, htext⟩ := hfrom r hr
    obtain ⟨o, ho, haddr, hf, hc⟩ := h.compiled r0 hr0
    exact ⟨o, ho, haddr.trans hp, hf, htext ▸ hc⟩
  · rcases h.needed o ho with hpos | ⟨t', ht'⟩
    · refine (hneeded o ho hpos).imp id fun hself => ⟨t, ?_⟩
      rw [setPhase_self, hself]
    · refine Or.inr ⟨t', ?_⟩
      rw [setPhase_of_ne _ _, ht']
      rintro rfl
      rw [Phase.eq_idle ht] at ht'
      cases ht'
  · refine hm'.mono (fun r hr hrt => ?_) hzero fun o ho _ => ho
    obtain ⟨r', hr', ht', hp⟩ := hkeep r hr (hrt ▸ hself)
    exact ⟨r', hr', ht'.trans hrt, hp⟩
  · have hpos := hd a h1
    rw [(h.phases t').unreferenced h2] at hpos
    exact hpos.false

theorem setPhase_idle (heap : Heap (Block σ)) (refs : List Reference)
    (h : (s.phase t).isIdle = true) :
    (⟨heap, refs, s.phase⟩ : Threads σ).setPhase t .idle = ⟨heap, refs, s.phase⟩ := by
  rw [Threads.setPhase, ← Phase.eq_idle h, Function.update_eq_self]

theorem refCount_pos {r : Reference} (h : r ∈ refs) : 0 < refCount refs r.policy :=
  List.count_pos_iff.2 (List.mem_map_of_mem h)

/-- The policy of a reference, in front of the others. -/
theorem ThreadInv.referred {r : Reference} (h : ThreadInv g host s objs left) (hr : r ∈ s.refs) :
    ∃ o rest, o.addr = r.policy ∧ objs.Perm (o :: rest) ∧ ThreadInv g host s (o :: rest) left := by
  obtain ⟨o, ho, haddr, -⟩ := h.compiled r hr
  obtain ⟨rest, hp, h'⟩ := h.focus ho
  exact ⟨o, rest, haddr, hp, h'⟩

/-- Taking a reference never fails, but only a count with room for it shows it. -/
theorem ThreadInv.step_ref (h : ThreadInv g host s objs left) (ht : (s.phase t).isIdle = true)
    (hh : s.Holds t a) :
    ∃ s', ThreadEvent.exec g host s (.ref t a) = some s' ∧ (refCount s.refs a < 2 ^ 32 →
      ∃ objs', ThreadInv g host s' objs' (Function.update left t 0)) := by
  obtain ⟨r, others, hperm, -, hfind, rfl, rfl⟩ := hh.split
  have hr : r ∈ s.refs := hperm.mem_iff.2 List.mem_cons_self
  obtain ⟨o, rest, haddr, -, h'⟩ := h.referred hr
  have hb := h'.blocks
  rw [allAt_cons] at hb
  obtain ⟨p, heap, he, hb⟩ := daPolicyRef_triple_in s.heap _ hb
  have hcount : ∀ o' ∈ rest, refCount s.refs o'.addr = refCount (r :: s.refs) o'.addr :=
    fun o' ho' => (refCount_cons_of_ne (haddr ▸ h'.ne ho')).symm
  have hself : (PolicyIn o.addr (.ofNat (refCount s.refs o.addr) + 1) o.links
      ((o.links.drop o.freed).map Prod.snd) (o.policy.entries.drop o.freed) :
        Assertion (Block σ)) = o.At (r :: s.refs) := by
    rw [Shared.At, haddr, refCount_cons_self, ofNat_inc]
  rw [hself, allAt_congr hcount, ← allAt_cons] at hb
  refine ⟨⟨heap, r :: s.refs, s.phase⟩, ?_, fun hroom => ⟨o :: rest, ?_⟩⟩
  · rw [← haddr] at hfind ⊢
    rw [ThreadEvent.exec, he]
    simp [hfind]
  rw [← setPhase_idle heap (r :: s.refs) ht]
  refine h'.recount .idle ht hb (fun r' hr' => ?_) (fun o' ho' hpos => ?_)
    (fun o' ho' hzero => ?_) (fun r' hr' _ => ⟨r', List.mem_cons_of_mem _ hr', rfl, rfl⟩)
    (fun b => ?_) rfl (fun _ hd => by cases hd)
  · rcases List.mem_cons.1 hr' with rfl | hr'
    · exact ⟨r', hr, rfl, rfl⟩
    · exact ⟨r', hr', rfl, rfl⟩
  · left
    by_cases heq : o'.addr = r.policy
    · rw [heq, refCount_cons_self]
      omega
    · rwa [refCount_cons_of_ne heq]
  · have hne : o'.addr ≠ r.policy := by
      intro heq
      have hpos := refCount_pos hr
      rw [← heq, hzero] at hpos
      exact hpos.false
    rwa [refCount_cons_of_ne hne]
  · by_cases heq : b = r.policy
    · rw [heq, refCount_cons_self]
      exact hroom
    · rw [refCount_cons_of_ne heq]
      exact h.room b

/-- The thread that gives up the last reference goes on to destroy the policy. -/
theorem ThreadInv.step_unref (h : ThreadInv g host s objs left) (ht : (s.phase t).isIdle = true)
    (hh : s.Holds t a) :
    ∃ s' objs' m, ThreadEvent.exec g host s (.unref t a) = some s' ∧
      ThreadInv g host s' objs' (Function.update left t m) := by
  obtain ⟨r, others, hperm, herase, -, rfl, rfl⟩ := hh.split
  have hr : r ∈ s.refs := hperm.mem_iff.2 List.mem_cons_self
  have hsub : ∀ r' ∈ others, r' ∈ s.refs := fun r' hr' => hperm.mem_iff.2 (List.mem_cons_of_mem _ hr')
  obtain ⟨o, rest, haddr, -, h'⟩ := h.referred hr
  have hself : refCount s.refs o.addr = refCount others o.addr + 1 := by
    rw [refCount_perm hperm, haddr, refCount_cons_self]
  have hother : ∀ b, b ≠ o.addr → refCount s.refs b = refCount others b := by
    intro b hb
    rw [refCount_perm hperm, refCount_cons_of_ne (haddr ▸ hb)]
  have hb := h'.blocks
  rw [allAt_cons] at hb
  obtain ⟨zero, heap, he, hb⟩ := gAtomicIntDecAndTest_triple s.heap _ hb
  rw [mul_assoc] at hb
  have hzero := (fact_mul.1 hb).1
  replace hb := (fact_mul.1 hb).2
  have hlast : zero = decide (refCount others o.addr = 0) := by
    have hone := ofNat_eq_one (hself ▸ Nat.succ_pos _) (h.room o.addr)
    rw [hzero, decide_eq_decide, dec_eq_zero, hone, hself]
    exact Nat.succ_inj
  have hcount : Int32.ofNat (refCount s.refs o.addr) - 1 = .ofNat (refCount others o.addr) := by
    rw [ofNat_dec (hself ▸ Nat.succ_pos _), hself, Nat.add_sub_cancel]
  rw [hcount] at hb
  change (o.At others * AllAt s.refs rest : Assertion (Block σ)) heap.blocks at hb
  rw [allAt_congr fun o' ho' => hother o'.addr (h'.ne ho'), ← allAt_cons] at hb
  have hfrom : ∀ r' ∈ others, ∃ r0 ∈ s.refs, r0.policy = r'.policy ∧ r0.text = r'.text :=
    fun r' hr' => ⟨r', hsub r' hr', rfl, rfl⟩
  have hgone : ∀ o' ∈ o :: rest, refCount s.refs o'.addr = 0 → refCount others o'.addr = 0 := by
    intro o' _ hnone
    have hne : o'.addr ≠ o.addr := by
      intro heq
      rw [heq, hself] at hnone
      cases hnone
    rwa [← hother _ hne]
  have hkeep : ∀ r' ∈ s.refs, r'.thread ≠ r.thread → ∃ r'' ∈ others, r''.thread = r'.thread ∧
      r''.policy = r'.policy := by
    intro r' hr' hne
    rcases List.mem_cons.1 (hperm.mem_iff.1 hr') with rfl | hr'
    · exact absurd rfl hne
    · exact ⟨r', hr', rfl, rfl⟩
  have hroom : ∀ b, refCount others b ≤ 2 ^ 32 := by
    intro b
    by_cases hb : b = o.addr
    · have hle := h.room o.addr
      rw [hself] at hle
      rw [hb]
      exact Nat.le_of_succ_le hle
    · rw [← hother b hb]
      exact h.room b
  have hexec : ThreadEvent.exec g host s (.unref r.thread r.policy) = some (if zero then
      (⟨heap, others, s.phase⟩ : Threads σ).setPhase r.thread (.unreferenced r.policy)
      else ⟨heap, others, s.phase⟩) := by
    rw [← haddr] at herase ⊢
    rw [ThreadEvent.exec, he]
    simp [herase]
  by_cases hnone : refCount others o.addr = 0
  · obtain rfl : zero = true := hlast.trans (decide_eq_true hnone)
    refine ⟨_, _, _, hexec, h'.recount (.unreferenced r.policy) (m := o.links.length + 2) ht hb
      hfrom (fun o' ho' hpos => ?_) hgone hkeep hroom ⟨haddr ▸ hnone, o, List.mem_cons_self, haddr,
        ?_, rfl⟩ fun b hd => ?_⟩
    · by_cases heq : o'.addr = o.addr
      · right
        rw [heq, haddr]
        exact beq_self_eq_true r.policy
      · exact Or.inl (hother _ heq ▸ hpos)
    · obtain ⟨o', ho', haddr', hf, -⟩ := h'.compiled r hr
      rwa [← h'.same ho' List.mem_cons_self (haddr'.trans haddr.symm)]
    · rw [← beq_iff_eq.1 hd]
      exact refCount_pos hr
  · obtain rfl : zero = false := hlast.trans (decide_eq_false hnone)
    have hinv := h'.recount .idle (m := 0) ht hb hfrom (fun o' ho' hpos => ?_) hgone hkeep hroom
      rfl (fun _ hd => by cases hd)
    · rw [setPhase_idle heap others ht] at hinv
      exact ⟨_, _, 0, hexec, hinv⟩
    · left
      by_cases heq : o'.addr = o.addr
      · rw [heq]
        omega
      · exact hother _ heq ▸ hpos

theorem ThreadInv.step_pass (h : ThreadInv g host s objs left) (ht : (s.phase t).isIdle = true)
    (hh : s.Holds t a) (t' : ThreadId) :
    ∃ s' objs', ThreadEvent.exec g host s (.pass t t' a) = some s' ∧
      ThreadInv g host s' objs' (Function.update left t 0) := by
  obtain ⟨r, others, hperm, herase, hfind, rfl, rfl⟩ := hh.split
  have hr : r ∈ s.refs := hperm.mem_iff.2 List.mem_cons_self
  have hsub : ∀ r' ∈ others, r' ∈ s.refs := fun r' hr' => hperm.mem_iff.2 (List.mem_cons_of_mem _ hr')
  have hcount : ∀ b, refCount s.refs b = refCount ({ r with thread := t' } :: others) b :=
    fun b => refCount_perm hperm b
  have hb := h.blocks
  rw [allAt_congr fun o _ => hcount o.addr] at hb
  have hinv := h.recount .idle (m := 0) ht hb (fun r' hr' => ?_)
    (fun o ho hpos => Or.inl (hcount o.addr ▸ hpos)) (fun o ho hzero => hcount o.addr ▸ hzero)
    (fun r' hr' hne => ?_) (fun b => hcount b ▸ h.room b) rfl (fun _ hd => by cases hd)
  · rw [setPhase_idle s.heap _ ht] at hinv
    refine ⟨_, _, ?_, hinv⟩
    rw [ThreadEvent.exec, hfind, herase]
    rfl
  · rcases List.mem_cons.1 hr' with rfl | hr'
    · exact ⟨r, hr, rfl, rfl⟩
    · exact ⟨r', hsub r' hr', rfl, rfl⟩
  · rcases List.mem_cons.1 (hperm.mem_iff.1 hr') with rfl | hr'
    · exact absurd rfl hne
    · exact ⟨r', List.mem_cons_of_mem _ hr', rfl, rfl⟩

theorem ThreadInv.step_start (h : ThreadInv g host s objs left) (ht : (s.phase t).isIdle = true)
    (hh : s.Holds t a) (call : CheckCall) :
    ∃ s' objs' m, ThreadEvent.exec g host s (.check t a call) = some s' ∧
      ThreadInv g host s' objs' (Function.update left t m) := by
  obtain ⟨r, others, hperm, -, -, rfl, rfl⟩ := hh.split
  have hr : r ∈ s.refs := hperm.mem_iff.2 List.mem_cons_self
  obtain ⟨o, ho, haddr, hf, -⟩ := h.compiled r hr
  rw [← haddr]
  obtain ⟨heap, he, hb⟩ := h.observe ho (x := if call.root then Phase.checking o.addr call none .ALLOW
      else Phase.checking o.addr call (front o.links) call.default)
    (o.at_whole s.refs hf ▸ checkStart_triple)
  have hok : ∃ m, (if call.root then Phase.checking o.addr call none .ALLOW
      else .checking o.addr call (front o.links) call.default).Ok g s.refs objs r.thread m := by
    split_ifs with hroot
    · exact ⟨_, ⟨r, hr, rfl, haddr.symm⟩, o, ho, rfl, hf, o.links.length, le_rfl,
        (front_drop_length le_rfl).symm, rfl, by rw [if_pos hroot]; exact ⟨rfl, rfl⟩⟩
    · exact ⟨_, ⟨r, hr, rfl, haddr.symm⟩, o, ho, rfl, hf, 0, Nat.zero_le _, rfl, rfl,
        by rw [if_neg hroot]; rfl⟩
  obtain ⟨m, hok⟩ := hok
  refine ⟨_, objs, m, by rw [ThreadEvent.exec, he]; rfl, h.quiet hb hok fun b => ?_⟩
  rw [Phase.eq_idle ht]
  split_ifs <;> rfl

/-- No two policies are in one place. -/
theorem allAt_new (ho : o ∈ objs) {b : Blocks (Block σ)}
    (hb : (PolicyIn a n links es vs * AllAt refs objs : Assertion (Block σ)) b) : o.addr ≠ a := by
  rintro rfl
  obtain ⟨l1, l2, rfl⟩ := List.append_of_mem ho
  rw [allAt_perm List.perm_middle, allAt_cons, Shared.At, PolicyIn, PolicyIn] at hb
  simp only [mul_assoc] at hb
  rw [mul_left_comm (ExprsAt es vs), mul_left_comm (Chain _ _ links _)] at hb
  exact single_twice hb

theorem ThreadInv.step_new (h : ThreadInv g host s objs left) (ht : (s.phase t).isIdle = true)
    (text : PolicyText) :
    ∃ s' objs', ThreadEvent.exec g host s (.new t text) = some s' ∧
      ThreadInv g host s' objs' (Function.update left t 0) := by
  have hb := h.blocks
  rw [← one_mul (AllAt s.refs objs)] at hb
  obtain ⟨r, heap, he, hb⟩ := daPolicyNewFull_triple g host text.spec text.actions s.heap _ hb
  cases hv : DbusAccess.daPolicyNewFull g host text.spec text.actions with
  | none =>
    simp only [hv] at hb
    obtain ⟨rfl, hblocks⟩ := fact_mul.1 hb
    have hinv := h.recount .idle (m := 0) ht hblocks (fun r' hr' => ⟨r', hr', rfl, rfl⟩)
      (fun _ _ hpos => Or.inl hpos) (fun _ _ hzero => hzero) (fun r' hr' _ => ⟨r', hr', rfl, rfl⟩)
      h.room rfl (fun _ hd => by cases hd)
    rw [setPhase_idle heap s.refs ht] at hinv
    exact ⟨_, _, by rw [ThreadEvent.exec, he]; rfl, hinv⟩
  | some policy =>
    simp only [hv, iSup_mul] at hb
    obtain ⟨a, hb⟩ := iSup_iff.1 hb
    rw [mul_assoc, policyAt_eq, iSup_mul] at hb
    obtain ⟨rfl, hlinks⟩ := fact_mul.1 hb
    obtain ⟨links, hblocks⟩ := iSup_iff.1 hlinks
    have hlength : links.length = policy.entries.length := by
      rw [← policyIn_length hblocks, List.length_map]
    have hnew : ∀ o ∈ objs, o.addr ≠ a := fun o ho => allAt_new ho hblocks
    have hcount : ∀ o ∈ objs, refCount s.refs o.addr = refCount (⟨t, a, text⟩ :: s.refs) o.addr :=
      fun o ho => (refCount_cons_of_ne (r := ⟨t, a, text⟩) (hnew o ho)).symm
    have hfresh : refCount s.refs a = 0 := refCount_eq_zero.2 fun r hr ha => by
      obtain ⟨o, ho, haddr, -⟩ := h.compiled r hr
      exact hnew o ho (haddr.trans ha)
    have hone : refCount (⟨t, a, text⟩ :: s.refs) a = 1 := by
      rw [refCount_cons_self ⟨t, a, text⟩, hfresh]
    have hzero : Function.update left t 0 = left := by
      have hleft := (h.phases t).eq_zero.1 (Phase.eq_idle ht)
      rw [← hleft, Function.update_eq_self]
    rw [hzero]
    refine ⟨⟨heap, ⟨t, a, text⟩ :: s.refs, s.phase⟩, ⟨a, links, policy, 0, hlength⟩ :: objs,
      by rw [ThreadEvent.exec, he]; rfl, List.nodup_cons.2 ⟨fun ha => ?_, h.nodup⟩,
      List.forall_mem_cons.2 ⟨⟨_, List.mem_cons_self, rfl, rfl, hv⟩, fun r hr => ?_⟩,
      List.forall_mem_cons.2 ⟨Or.inl (by rw [hone]; exact Nat.one_pos), fun o ho => ?_⟩,
      fun t' => ?_, h.alone, fun b => ?_, ?_⟩
    · obtain ⟨o, ho, haddr⟩ := List.mem_map.1 ha
      exact hnew o ho haddr
    · obtain ⟨o, ho, hrest⟩ := h.compiled r hr
      exact ⟨o, List.mem_cons_of_mem _ ho, hrest⟩
    · exact (h.needed o ho).imp (fun hpos => hcount o ho ▸ hpos) id
    · exact (h.phases t').mono (fun r hr hrt => ⟨r, List.mem_cons_of_mem _ hr, hrt, rfl⟩)
        (fun o ho hzero => hcount o ho ▸ hzero) fun o ho _ => List.mem_cons_of_mem _ ho
    · by_cases heq : b = a
      · rw [heq, hone]
        exact Nat.one_le_two_pow
      · rw [refCount_cons_of_ne (r := ⟨t, a, text⟩) heq]
        exact h.room b
    · rw [allAt_cons, ← allAt_congr hcount, Shared.At, hone, List.drop_zero, List.drop_zero]
      exact hblocks

/-- A thread that is in a call has its own steps counted, and no others. -/
theorem ThreadInv.step (h : ThreadInv g host s objs left) {e : ThreadEvent} (hen : e.enabled s) :
    ∃ s', e.exec g host s = some s' ∧ (e.fits s → ∃ objs' left', ThreadInv g host s' objs' left' ∧
      ∀ t, (s.phase t).isIdle = false → left t = left' t + if e.isStep t then 1 else 0) := by
  have hcall : ∀ {t m}, (s.phase t).isIdle = true → ∀ t', (s.phase t').isIdle = false →
      left t' = Function.update left t m t' + 0 := by
    intro t m ht t' ht'
    have hne : t' ≠ t := by
      rintro rfl
      rw [ht] at ht'
      cases ht'
    rw [Function.update_of_ne hne, Nat.add_zero]
  cases e with
  | new t text =>
    obtain ⟨s', objs', hex, hinv⟩ := h.step_new hen text
    exact ⟨s', hex, fun _ => ⟨objs', _, hinv, hcall hen⟩⟩
  | ref t a =>
    obtain ⟨s', hex, hinv⟩ := h.step_ref hen.1 hen.2
    refine ⟨s', hex, fun hfits => ?_⟩
    obtain ⟨objs', hinv⟩ := hinv hfits
    exact ⟨objs', _, hinv, hcall hen.1⟩
  | unref t a =>
    obtain ⟨s', objs', m, hex, hinv⟩ := h.step_unref hen.1 hen.2
    exact ⟨s', hex, fun _ => ⟨objs', _, hinv, hcall hen.1⟩⟩
  | check t a call =>
    obtain ⟨s', objs', m, hex, hinv⟩ := h.step_start hen.1 hen.2 call
    exact ⟨s', hex, fun _ => ⟨objs', _, hinv, hcall hen.1⟩⟩
  | pass t t' a =>
    obtain ⟨s', objs', hex, hinv⟩ := h.step_pass hen.1 hen.2 t'
    exact ⟨s', hex, fun _ => ⟨objs', _, hinv, hcall hen.1⟩⟩
  | step t =>
    cases hleft : left t with
    | zero =>
      have hbusy : (s.phase t).isIdle = false := hen
      rw [(h.phases t).eq_zero.2 hleft] at hbusy
      cases hbusy
    | succ m =>
      obtain ⟨s', objs', hex, hinv⟩ := h.step_step hleft
      refine ⟨s', hex, fun _ => ⟨objs', _, hinv, fun t' _ => ?_⟩⟩
      by_cases ht : t' = t
      · simp [ht, hleft, ThreadEvent.isStep]
      · simp [ht, ThreadEvent.isStep, Ne.symm ht]

variable {acts acts' : List ThreadEvent}

theorem run_threadInv (h : Run (countedThreads g host) acts s) :
    ∃ objs left, ThreadInv g host s objs left :=
  h.invariant (I := fun s => ∃ objs left, ThreadInv g host s objs left) ⟨[], _, .init⟩
    fun s e s' ⟨objs, left, hinv⟩ hen hex => by
      obtain ⟨t, ht, hinv'⟩ := hinv.step hen.1
      obtain rfl : t = s' := Option.some_inj.1 (ht.symm.trans hex)
      obtain ⟨objs', left', hinv', -⟩ := hinv' hen.2
      exact ⟨objs', left', hinv'⟩

/-- Whatever the other threads do, a call is as many steps nearer to its end as its thread
has made. -/
theorem ThreadInv.run_left (hinv : ThreadInv g host s objs left)
    (h : Run (countedThreads g host) acts s) (h' : Run (countedThreads g host) (acts ++ acts') s')
    (hcall : InCall g host t acts acts') : ∃ objs' left', ThreadInv g host s' objs' left' ∧
      left t = left' t + acts'.countP (ThreadEvent.isStep t) := by
  refine h.induct_since (I := fun acts' s' => InCall g host t acts acts' → ∃ objs' left',
    ThreadInv g host s' objs' left' ∧ left t = left' t + acts'.countP (ThreadEvent.isStep t))
    (fun _ => ⟨objs, left, hinv, rfl⟩) ?_ h' hcall
  intro l u e u' hrun ih hen hex hcall
  obtain ⟨objs1, left1, hinv1, hleft1⟩ := ih fun before e' after v hl hv =>
    hcall before e' (after ++ [e]) v (by simp [hl]) hv
  have hbusy := hcall l e [] u rfl hrun
  obtain ⟨v, hv, hinv2⟩ := hinv1.step hen.1
  obtain rfl : v = u' := Option.some_inj.1 (hv.symm.trans hex)
  obtain ⟨objs2, left2, hinv2, hleft2⟩ := hinv2 hen.2
  refine ⟨objs2, left2, hinv2, ?_⟩
  rw [hleft1, hleft2 t hbusy, List.countP_append, List.countP_singleton]
  omega

/-- In every interleaving of threads that use what they hold, in which no count comes round:
nobody uses or frees what another thread has freed, the result of a check is that of the
text of its policy, whatever the others do meanwhile, one thread destroys a policy when the
last reference is gone, nothing is left behind, nobody has to wait for others, and a thread
alone does what the functions do. -/
theorem threads_safe (g : GPattern σ) (host : Host) (acts : List ThreadEvent) (s : Threads σ)
    (h : Run (countedThreads g host) acts s) : ThreadsSafe g host acts s := by
  obtain ⟨objs, left, hinv⟩ := run_threadInv h
  refine ⟨fun e hen => ?_, fun r hr => ?_, fun t t' a ht ht' => ?_, fun t a call result hph => ?_,
    fun t => ⟨left t, fun acts' s' h' hcall => ?_⟩, fun t a ht hh => calls_alone ht hh,
    fun hrefs hidle => ?_⟩
  · obtain ⟨s', hex, -⟩ := hinv.step hen
    exact ⟨s', hex⟩
  · obtain ⟨o, rest, haddr, -, hinv⟩ := hinv.referred hr
    have hb := hinv.blocks
    rw [allAt_cons, Shared.At, PolicyIn, mul_assoc, haddr] at hb
    exact ⟨_, (single_mul.1 hb).1⟩
  · exact ⟨hinv.alone t t' a ht ht', refCount_eq_zero.1 ((hinv.phases t).unreferenced ht)⟩
  · have hm := hinv.phases t
    rw [hph] at hm
    obtain ⟨⟨r, hr, ht, rfl⟩, o, ho, haddr, -, k, hk, hnone, -, hresult⟩ := hm
    obtain ⟨o', ho', haddr', -, hc⟩ := hinv.compiled r hr
    obtain rfl := hinv.same ho ho' (haddr.trans haddr'.symm)
    refine ⟨r, hr, ht, rfl, _, hc, ?_⟩
    cases hroot : call.root with
    | true =>
      rw [if_pos hroot] at hresult
      rw [hresult.2, DbusAccess.daPolicyCheck]
      exact (if_pos hroot).symm
    | false =>
      rw [hroot, if_neg Bool.false_ne_true] at hresult
      rcases hk.lt_or_eq with hlt | rfl
      · rw [front_drop hlt] at hnone
        cases hnone
      · rw [hresult, Shared.checked_all hroot]
  · obtain ⟨objs', left', hinv', hleft⟩ := hinv.run_left h h' hcall
    rw [(hinv'.phases t).eq_zero]
    omega
  · cases objs with
    | nil => exact hinv.blocks
    | cons o objs =>
      rcases hinv.needed o List.mem_cons_self with hpos | ⟨t, ht⟩
      · rw [refCount_eq_zero.2 (by simp [hrefs])] at hpos
        exact absurd hpos (lt_irrefl 0)
      · rw [hidle t] at ht
        cases ht

/-- The reference of one thread is given up while the other one checks, and a policy is
compiled while another one is destroyed. -/
def exampleThreads : List ThreadEvent :=
  [.new 1 ⟨some (str "*=deny;user(1)"), none⟩, .ref 1 14, .pass 1 2 14,
    .check 2 14 ⟨some ⟨1, 1, [], 0, 0⟩, 0, none, .DENY⟩, .step 2, .unref 1 14, .step 2, .step 2,
    .unref 2 14, .step 2, .new 1 ⟨some (str "!group(7)"), none⟩, .step 2]

theorem threads_safe_example : ∃ s, Run (countedThreads globPattern exampleHost) exampleThreads s ∧
    ThreadsSafe globPattern exampleHost exampleThreads s := by
  obtain ⟨s, hs⟩ := Option.isSome_iff_exists.1 (show
    ((countedThreads globPattern exampleHost).replay .init exampleThreads).isSome = true by
      decide +kernel)
  have hrun := Run.nil.replay hs
  exact ⟨s, hrun, threads_safe globPattern exampleHost _ s hrun⟩

end DbusAccess.InMemory
