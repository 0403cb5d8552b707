import DbusAccess.Spec.PolicyThreads

/-! The steps of a thread that runs alone are those of `da_policy_check` and
`da_policy_unref`. -/

namespace DbusAccess.InMemory

open Separation Transition

variable {σ : Type} {g : GPattern σ} {host : Host} {s s' : Threads σ} {t : ThreadId} {a : Addr}
  {call : CheckCall} {result result' : DAAccess} {ph : Phase} {h h' : Heap (Block σ)}
  {p : DAPolicy} {entry expr : Option Addr}

/-! The rounds are those of the loops. -/

theorem daPolicyUnref_eq (a : Addr) : (daPolicyUnref (some a) : Prog (Block σ) Unit) =
    gAtomicIntDecAndTest a >>= fun zero =>
      if zero then daPolicyFinalize a >>= fun _ => release (.gSlice .DAPolicy) a else pure () := by
  simp [daPolicyUnref, gAtomicIntDecAndTest]

theorem walk_checkEntry (call : CheckCall) (n : ℕ) (entry : Addr) (result : DAAccess) :
    walk entryLinked (fun result e => do
        if ← daPolicyExprMatch g ⟨call.cred, call.action, call.arg⟩ e.expr then pure e.access
        else pure result) (n + 1) result (some entry) =
      checkEntry g call entry result >>= fun r => walk entryLinked (fun result e => do
        if ← daPolicyExprMatch g ⟨call.cred, call.action, call.arg⟩ e.expr then pure e.access
        else pure result) n r.2 r.1 := by
  rw [walk, checkEntry, bind_assoc]
  refine bind_congr fun b => ?_
  cases entryLinked.view b with
  | none => rfl
  | some e =>
    simp only [bind_assoc]
    refine bind_congr fun x => ?_
    cases x <;> simp

theorem walk_finalizeEntry (n : ℕ) (entry : Addr) :
    walk (entryLinked : Linked (Block σ) DAPolicyEntry) (fun _ e => daPolicyExprFree e.expr) (n + 1)
        () (some entry) =
      finalizeEntry entry >>= fun next =>
        walk entryLinked (fun _ e => daPolicyExprFree e.expr) n () next := by
  rw [walk, finalizeEntry, bind_assoc]
  refine bind_congr fun b => ?_
  cases entryLinked.view b with
  | none => rfl
  | some e => simp

theorem steps_checking (n : ℕ) (hw : walk entryLinked (fun result e => do
        if ← daPolicyExprMatch g ⟨call.cred, call.action, call.arg⟩ e.expr then pure e.access
        else pure result) n result entry h = some (result', h')) :
    ∃ k, Phase.steps g k (.checking a call entry result) h =
      some (.checking a call none result', h') := by
  induction n generalizing entry result h with
  | zero =>
    cases entry with
    | none =>
      rw [walk] at hw
      obtain ⟨rfl, rfl⟩ := Prod.mk.inj (Option.some.inj hw)
      exact ⟨0, rfl⟩
    | some entry => cases hw
  | succ n ih =>
    cases entry with
    | none =>
      rw [walk] at hw
      obtain ⟨rfl, rfl⟩ := Prod.mk.inj (Option.some.inj hw)
      exact ⟨0, rfl⟩
    | some entry =>
      rw [walk_checkEntry] at hw
      obtain ⟨⟨entry', result1⟩, h1, h1eq, hw⟩ := bind_eq_some.1 hw
      obtain ⟨k, hk⟩ := ih hw
      refine ⟨k + 1, ?_⟩
      rw [Phase.steps, Phase.step, bind_assoc, run_bind h1eq, pure_bind]
      exact hk

theorem check_steps (hc : daPolicyCheck g (some a) call.cred call.action call.arg call.default h =
      some (result, h')) :
    ∃ k ph h1, checkStart a call h = some (ph, h1) ∧
      Phase.steps g k ph h1 = some (.checking a call none result, h') := by
  unfold daPolicyCheck at hc
  unfold checkStart CheckCall.root
  split_ifs at hc ⊢ with hroot
  · obtain ⟨rfl, rfl⟩ := Prod.mk.inj (Option.some.inj hc)
    exact ⟨0, _, h, rfl, rfl⟩
  · obtain ⟨p, h1, hp, hc⟩ := bind_eq_some.1 hc
    obtain ⟨n, h2, hn, hc⟩ := bind_eq_some.1 hc
    obtain ⟨rfl, rfl⟩ := Prod.mk.inj (Option.some.inj hn)
    obtain ⟨k, hk⟩ := steps_checking (a := a) _ hc
    exact ⟨k, _, h1, run_bind hp, hk⟩

/-- The policy is where it was, and no block was added. -/
def PolicyStays (a : Addr) (p : DAPolicy) (n : ℕ) (h : Heap (Block σ)) : Prop :=
  h.blocks.lookup a = some (.policy p) ∧ h.next = n

theorem release_stays {k : Allocation} {q : Addr} {m : ℕ} (hk : k ≠ .gSlice .DAPolicy) :
    Keeps (PolicyStays (σ := σ) a p m) (release k q) := by
  refine Keeps.freeIf fun h b hstays hb hok => ⟨?_, hstays.2⟩
  have hne : a ≠ q := by
    rintro rfl
    rw [hstays.1, Option.some_inj] at hb
    exact hk (hb ▸ of_decide_eq_true hok).symm
  exact (Finmap.lookup_erase_ne hne).trans hstays.1

theorem customFree_stays (expr : Addr) (pattern : Option Addr) {m : ℕ} :
    Keeps (PolicyStays (σ := σ) a p m) (daPolicyExprCustomFree expr pattern) := by
  unfold daPolicyExprCustomFree
  cases pattern with
  | none => exact release_stays (by decide)
  | some pattern =>
    refine .bind ?_ fun _ => release_stays (by decide)
    exact release_stays (by decide)

theorem exprFree_stays (n : ℕ) (expr : Option Addr) {m : ℕ} :
    Keeps (PolicyStays (σ := σ) a p m) (exprFree n expr) := by
  induction n generalizing expr with
  | zero =>
    cases expr with
    | none => exact .pure ()
    | some expr => exact .failure
  | succ n ih =>
    cases expr with
    | none => exact .pure ()
    | some expr =>
      refine .bind (.read expr) fun b => ?_
      split
      · exact (ih _).bind fun _ => (ih _).bind fun _ => release_stays (by decide)
      · exact (ih _).bind fun _ => release_stays (by decide)
      · exact release_stays (by decide)
      · exact customFree_stays _ _
      · exact .failure

theorem steps_finalizing (n : ℕ) (hp : h.blocks.lookup a = some (.policy p))
    (hw : walk (entryLinked : Linked (Block σ) DAPolicyEntry) (fun _ e => daPolicyExprFree e.expr) n
      () entry h = some ((), h')) :
    (∃ k, Phase.steps g k (.finalizing a entry) h = some (.finalizing a none, h')) ∧
      PolicyStays a p h.next h' := by
  induction n generalizing entry h with
  | zero =>
    cases entry with
    | none =>
      rw [walk] at hw
      obtain ⟨-, rfl⟩ := Prod.mk.inj (Option.some.inj hw)
      exact ⟨⟨0, rfl⟩, hp, rfl⟩
    | some entry => cases hw
  | succ n ih =>
    cases entry with
    | none =>
      rw [walk] at hw
      obtain ⟨-, rfl⟩ := Prod.mk.inj (Option.some.inj hw)
      exact ⟨⟨0, rfl⟩, hp, rfl⟩
    | some entry =>
      rw [walk_finalizeEntry] at hw
      obtain ⟨next, h1, hentry, hw⟩ := bind_eq_some.1 hw
      have hkeeps : Keeps (PolicyStays (σ := σ) a p h.next) (finalizeEntry entry) := by
        refine .bind (.read entry) fun b => ?_
        split
        · exact Keeps.bind (fun h1 _ h2 hstays hex => exprFree_stays _ _ h1 _ h2 hstays hex)
            fun _ => .pure _
        · exact .failure
      obtain ⟨hp1, hnext⟩ := hkeeps h next h1 ⟨hp, rfl⟩ hentry
      obtain ⟨⟨k, hk⟩, hstays⟩ := ih hp1 hw
      refine ⟨⟨k + 1, ?_⟩, hnext ▸ hstays⟩
      rw [Phase.steps, Phase.step, bind_assoc, run_bind hentry, pure_bind]
      exact hk

theorem readPolicy_eq (hp : h.blocks.lookup a = some (.policy p)) :
    readPolicy a h = some (p, h) := by
  have hread : read a h = some (.policy p, h) := by
    rw [Separation.read, hp]
    rfl
  rw [readPolicy, run_bind hread]
  rfl

theorem Phase.steps_add {ph1 : Phase} {r : Phase × Heap (Block σ)} {h1 : Heap (Block σ)} (k m : ℕ)
    (h1eq : Phase.steps g k ph h = some (ph1, h1)) (h2 : Phase.steps g m ph1 h1 = some r) :
    Phase.steps g (k + m) ph h = some r := by
  induction k generalizing ph h with
  | zero =>
    obtain ⟨rfl, rfl⟩ := Prod.mk.inj (Option.some.inj h1eq)
    rwa [Nat.zero_add]
  | succ k ih =>
    rw [Phase.steps] at h1eq
    obtain ⟨ph2, h2', hstep, h1eq⟩ := bind_eq_some.1 h1eq
    rw [Nat.succ_add, Phase.steps, run_bind hstep]
    exact ih h1eq

/-- Finalizing reads the policy again when its expressions are freed; it is still there. -/
theorem finalize_steps (hp : h.blocks.lookup a = some (.policy p))
    (hf : (daPolicyFinalize a >>= fun _ => release (.gSlice .DAPolicy) a) h = some ((), h')) :
    ∃ k, Phase.steps g k (.unreferenced a) h = some (.idle, h') := by
  rw [daPolicyFinalize, bind_assoc, run_bind (readPolicy_eq hp)] at hf
  have hfree : ∀ h1, PolicyStays a p h.next h1 →
      (freeLinks entryLinked (fun b => b.allocation = .gSlice .DAPolicyEntry) h.next p.entries >>=
        fun _ => release (.gSlice .DAPolicy) a) h1 = some ((), h') →
      Phase.steps g 1 (.finalizing a none) h1 = some (.idle, h') := by
    intro h1 ⟨hp1, hnext⟩ hex
    have hbound : bound h1 = some (h.next, h1) := by rw [bound, hnext]
    rw [Phase.steps, Phase.step, bind_assoc, freePolicy, bind_assoc, run_bind (readPolicy_eq hp1),
      bind_assoc, run_bind hbound, run_bind hex]
    rfl
  have hstart : ∀ k, Phase.steps g (k + 1) (.unreferenced a) h =
      Phase.steps g k (.finalizing a p.entries) h := by
    intro k
    rw [Phase.steps, Phase.step, bind_assoc, run_bind (readPolicy_eq hp), pure_bind]
  cases hentries : p.entries with
  | none =>
    simp only [hentries, pure_bind] at hf hstart hfree
    refine ⟨2, (hstart 1).trans (hfree h ⟨hp, rfl⟩ ?_)⟩
    rwa [freeLinks, pure_bind]
  | some first =>
    simp only [hentries, bind_assoc] at hf hstart hfree
    obtain ⟨n, h1, hn, hf⟩ := bind_eq_some.1 hf
    obtain ⟨rfl, rfl⟩ := Prod.mk.inj (Option.some.inj hn)
    obtain ⟨_, h2, hw, hf⟩ := bind_eq_some.1 hf
    obtain ⟨⟨k, hk⟩, hstays⟩ := steps_finalizing (g := g) _ hp hw
    exact ⟨k + 1 + 1, (hstart (k + 1)).trans (Phase.steps_add k 1 hk (hfree h2 hstays hf))⟩

theorem unref_steps (hu : daPolicyUnref (some a) h = some ((), h')) :
    ∃ zero h1, gAtomicIntDecAndTest a h = some (zero, h1) ∧
      if zero then ∃ k, Phase.steps g k (.unreferenced a) h1 = some (.idle, h') else h1 = h' := by
  rw [daPolicyUnref_eq] at hu
  obtain ⟨zero, h1, hzero, hu⟩ := bind_eq_some.1 hu
  refine ⟨zero, h1, hzero, ?_⟩
  split_ifs at hu ⊢
  · obtain ⟨p, h2, -, hzero⟩ := bind_eq_some.1 hzero
    obtain ⟨_, h3, hwrite, hzero⟩ := bind_eq_some.1 hzero
    obtain ⟨-, rfl⟩ := Prod.mk.inj (Option.some.inj hzero)
    unfold write at hwrite
    split_ifs at hwrite with hmem
    obtain ⟨-, rfl⟩ := Prod.mk.inj (Option.some.inj hwrite)
    exact finalize_steps (Finmap.lookup_insert _) hu
  · exact (Prod.mk.inj (Option.some.inj hu)).2

/-! A thread alone. -/

theorem setPhase_self (s : Threads σ) (t : ThreadId) (ph : Phase) :
    (s.setPhase t ph).phase t = ph :=
  Function.update_self ..

theorem replay_steps (k : ℕ) (hk : Phase.steps g k (s.phase t) s.heap = some (ph, h)) :
    (threadSystem g host).replay s (List.replicate k (.step t)) =
      some ({ s with heap := h }.setPhase t ph) := by
  induction k generalizing s with
  | zero =>
    obtain ⟨rfl, rfl⟩ := Prod.mk.inj (Option.some.inj hk)
    rw [Threads.setPhase, Function.update_eq_self]
    rfl
  | succ k ih =>
    rw [Phase.steps] at hk
    obtain ⟨ph1, h1, hstep, hk⟩ := bind_eq_some.1 hk
    have hbusy : (threadSystem g host).enabled s (.step t) := by
      change (s.phase t).isIdle = false
      cases hph : s.phase t with
      | idle =>
        rw [hph] at hstep
        cases hstep
      | _ => rfl
    have hexec : (threadSystem g host).exec s (.step t) =
        some ({ s with heap := h1 }.setPhase t ph1) := by
      change ThreadEvent.exec g host s (.step t) = _
      rw [ThreadEvent.exec, hstep]
      rfl
    have hrest : Phase.steps g k (({ s with heap := h1 }.setPhase t ph1).phase t) h1 =
        some (ph, h) := by
      rwa [setPhase_self]
    rw [List.replicate_succ, System.replay, if_pos hbusy, hexec, Option.bind_some, ih hrest]
    simp [Threads.setPhase]

/-- A call begins, and the steps follow. -/
theorem replay_call {e : ThreadEvent} (k : ℕ) (hen : e.enabled s) (hex : e.exec g host s = some s')
    (hk : Phase.steps g k (s'.phase t) s'.heap = some (ph, h)) :
    ∃ s'', (threadSystem g host).replay s (e :: List.replicate k (.step t)) = some s'' ∧
      s''.heap = h ∧ s''.phase t = ph := by
  refine ⟨_, ?_, rfl, setPhase_self { s' with heap := h } t ph⟩
  rw [System.replay, if_pos (show (threadSystem g host).enabled s e from hen),
    show (threadSystem g host).exec s e = some s' from hex, Option.bind_some]
  exact replay_steps k hk

theorem calls_alone (ht : (s.phase t).isIdle = true) (hh : s.Holds t a) : Alone g host s t a := by
  refine ⟨fun call result heap hc => ?_, fun heap hu => ?_⟩
  · obtain ⟨k, ph, h1, hstart, hk⟩ := check_steps hc
    have hexec : ThreadEvent.exec g host s (.check t a call) =
        some ({ s with heap := h1 }.setPhase t ph) := by
      rw [ThreadEvent.exec, hstart]
      rfl
    refine ⟨k, replay_call k ⟨ht, hh⟩ hexec ?_⟩
    rwa [setPhase_self]
  · obtain ⟨zero, h1, hzero, hrest⟩ := unref_steps (g := g) hu
    have hexec : ThreadEvent.exec g host s (.unref t a) = some (if zero then
        Threads.setPhase ⟨h1, s.refs.eraseP (Reference.is t a), s.phase⟩ t (.unreferenced a)
        else ⟨h1, s.refs.eraseP (Reference.is t a), s.phase⟩) := by
      rw [ThreadEvent.exec, hzero]
      rfl
    cases zero with
    | true =>
      obtain ⟨k, hk⟩ := by simpa using hrest
      refine ⟨k, replay_call k ⟨ht, hh⟩ hexec ?_⟩
      rw [if_pos rfl, setPhase_self]
      exact hk
    | false =>
      obtain rfl : h1 = heap := by simpa using hrest
      refine ⟨0, replay_call 0 ⟨ht, hh⟩ hexec ?_⟩
      rw [if_neg Bool.false_ne_true]
      change some (s.phase t, h1) = _
      cases hph : s.phase t with
      | idle => rfl
      | _ =>
        rw [hph] at ht
        cases ht

end DbusAccess.InMemory
