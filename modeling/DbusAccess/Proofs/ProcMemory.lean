import DbusAccess.Lib.Counters
import DbusAccess.Proofs.CredParse
import DbusAccess.Spec.Proc

/-! Memory of the process objects: what each function does to it, and the arrays of
groups in every run. -/

namespace DbusAccess

open Counters Transition

variable {m m' : ProcMemory} {p q : ProcId} {priv : DAProcPriv} {pid : Int32} {e : ProcEvent}
  {file : CString → Option (List UInt8)} {count : ProcId → ℕ} {acts : List ProcEvent}
  {groups : Option (List UInt32)} {cred : DACred} {a : ArrayId}

/-- Counters show `count`, the references to each object. -/
structure Tallied (m : ProcMemory) (count : ProcId → ℕ) : Prop where
  shown : ∀ p priv, m.heap p = some priv → priv.refCount = Int32.ofNat (count p)
  fresh : ∀ p, m.nextProc ≤ p → m.heap p = none ∧ count p = 0

/-- Counters have room for the references. Objects have arrays of their own, and are not yet
finalized. -/
structure ProcOrdered (m : ProcMemory) (count : ProcId → ℕ) : Prop extends Tallied m count where
  live : ∀ p priv, m.heap p = some priv → 0 < count p ∧ count p ≤ 2 ^ 32
  freed : ∀ p, m.heap p = none → count p = 0
  array : ∀ p priv a, m.heap p = some priv → priv.groups = some a → (m.arrays a).isSome = true
  own : ∀ p q priv priv' a, m.heap p = some priv → m.heap q = some priv' →
    priv.groups = some a → priv'.groups = some a → p = q
  nextArray : ∀ a, m.nextArray ≤ a → m.arrays a = none
  unfinished : ∀ p, (m.heap p).isSome = true ∨ m.nextProc ≤ p → m.finalized p = 0

theorem Tallied.unused (h : Tallied m count) : m.heap m.nextProc = none := (h.fresh _ le_rfl).1

/-! Making an object. -/

/-- After `da_proc_new` returned an object. -/
def ProcMemory.create (m : ProcMemory) (pid : Int32) (cred : DACred)
    (groups : Option (List UInt32)) : ProcMemory :=
  { (gNew m groups).1 with
    heap := Function.update m.heap m.nextProc (some ⟨⟨pid, cred⟩, (gNew m groups).2, 1⟩)
    nextProc := m.nextProc + 1 }

/-- After the parser returned `FALSE` to it. -/
def ProcMemory.abandon (m : ProcMemory) (groups : Option (List UInt32)) : ProcMemory :=
  { (gNew m groups).1 with nextProc := m.nextProc + 1 }

theorem daProcParse_eq {data : List UInt8} {ok : Bool} {credPriv : DACredPriv}
    (hp : m.heap p = some priv) (hcred : priv.pub.cred = .zero)
    (hparse : daCredParse .zero ⟨none⟩ data = .ok (ok, cred, credPriv)) :
    daProcParse m p data = some ((gNew m credPriv.groups).1.setProc p
      { priv with pub.cred := cred, groups := (gNew m credPriv.groups).2 }, ok) := by
  simp only [daProcParse, hp, hcred, hparse, Option.bind_eq_bind, Option.bind_some]

theorem daProcParse_error {data : List UInt8} {fault : MemFault}
    (hp : m.heap p = some priv) (hcred : priv.pub.cred = .zero)
    (hparse : daCredParse .zero ⟨none⟩ data = .error fault) : daProcParse m p data = none := by
  simp only [daProcParse, hp, hcred, hparse, Option.bind_eq_bind, Option.bind_some]

/-- A cleared object is filled by the parser, and kept or given back. -/
theorem daProcNew_file {data : List UInt8} (hp : m.heap m.nextProc = none)
    (hdata : procFile pid file = some data) :
    (∀ fault, daCredParse .zero ⟨none⟩ data = .error fault → daProcNew m pid file = none) ∧
      ∀ ok cred credPriv, daCredParse .zero ⟨none⟩ data = .ok (ok, cred, credPriv) →
        daProcNew m pid file = some
          (if ok then (m.create pid cred credPriv.groups, some m.nextProc)
            else (m.abandon credPriv.groups, none)) := by
  unfold procFile at hdata
  split_ifs at hdata with hpid
  have hset : ((gSliceNew0 m).1.setProc m.nextProc ⟨⟨0, .zero⟩, none, 1⟩).heap m.nextProc =
      some ⟨⟨0, .zero⟩, none, 1⟩ := Function.update_self ..
  have hnew : daProcNew m pid file =
      (daProcParse ((gSliceNew0 m).1.setProc m.nextProc ⟨⟨0, .zero⟩, none, 1⟩) m.nextProc data).bind
        fun r => if r.2 then (r.1.heap m.nextProc).bind fun priv =>
            some (r.1.setProc m.nextProc { priv with pub.pid := pid }, some m.nextProc)
          else (gSliceFree r.1 m.nextProc).bind fun m' => some (m', none) := by
    simp [daProcNew, hpid, hdata, gSliceNew0]
  rw [hnew]
  refine ⟨fun fault hparse => ?_, fun ok cred credPriv hparse => ?_⟩
  · rw [daProcParse_error hset rfl hparse, Option.bind_none]
  · rw [daProcParse_eq hset rfl hparse, Option.bind_some]
    obtain ⟨groups⟩ := credPriv
    cases ok with
    | true =>
      cases groups <;>
        simp [ProcMemory.create, gNew, gSliceNew0, ProcMemory.setProc]
    | false =>
      cases groups <;>
        simp [ProcMemory.abandon, gNew, gSliceNew0, ProcMemory.setProc, gSliceFree, ← hp]

/-- What `da_proc_new` can do, by what the file says. -/
theorem daProcNew_cases (hp : m.heap m.nextProc = none) (pid : Int32)
    (file : CString → Option (List UInt8)) :
    daProcNew m pid file = none ∧ (ProcEvent.new pid file).faults ∨
    daProcNew m pid file = some (m, none) ∧ procFile pid file = none ∨
    ∃ data, procFile pid file = some data ∧
      ((Status.ofText data).completeWith cutWords = true ∧ daProcNew m pid file =
          some (m.create pid ((Status.ofText data).credWith cutWords)
            ((Status.ofText data).groupsWith cutWords), some m.nextProc) ∨
        (Status.ofText data).completeWith cutWords = false ∧ daProcNew m pid file =
          some (m.abandon ((Status.ofText data).groupsWith cutWords), none)) := by
  cases hdata : procFile pid file with
  | none =>
    refine Or.inr (Or.inl ⟨?_, rfl⟩)
    unfold procFile at hdata
    split_ifs at hdata with hpid
    · simp [daProcNew, hpid, hdata]
    · simp [daProcNew, hpid]
  | some data =>
    obtain ⟨herror, hok⟩ := daProcNew_file hp hdata
    cases hparse : daCredParse .zero ⟨none⟩ data with
    | error fault => exact Or.inl ⟨herror fault hparse, data, fault, hdata, hparse⟩
    | ok r =>
      obtain rfl := daCredParse_cut hparse
      refine Or.inr (Or.inr ⟨data, rfl, ?_⟩)
      have hnew := hok _ _ _ hparse
      cases hc : (Status.ofText data).completeWith cutWords with
      | true =>
        rw [hc] at hnew
        exact Or.inl ⟨rfl, hnew⟩
      | false =>
        rw [hc] at hnew
        exact Or.inr ⟨rfl, hnew⟩

/-! References. -/

theorem setProc_self (m : ProcMemory) (p : ProcId) (priv : DAProcPriv) :
    (m.setProc p priv).heap p = some priv := Function.update_self ..

/-- After the last reference was given up. -/
def ProcMemory.free (m : ProcMemory) (p : ProcId) (priv : DAProcPriv) : ProcMemory :=
  { m with
    heap := Function.update m.heap p none
    arrays := fun a => if priv.groups = some a then none else m.arrays a
    finalized := Function.update m.finalized p (m.finalized p + 1) }

/-- After `da_proc_unref`. -/
def ProcMemory.release (m : ProcMemory) (p : ProcId) (priv : DAProcPriv) : ProcMemory :=
  if priv.refCount = 1 then m.free p priv
  else m.setProc p { priv with refCount := priv.refCount - 1 }

theorem daProcFinalize_eq (hp : m.heap p = some priv)
    (ha : ∀ a, priv.groups = some a → (m.arrays a).isSome = true) :
    daProcFinalize m p = some { m with
      heap := Function.update m.heap p (some { priv with groups := none })
      arrays := fun a => if priv.groups = some a then none else m.arrays a
      finalized := Function.update m.finalized p (m.finalized p + 1) } := by
  obtain ⟨pub, groups, refCount⟩ := priv
  cases groups with
  | none =>
    have hself : Function.update m.heap p (some ⟨pub, none, refCount⟩) = m.heap := by
      rw [← hp, Function.update_eq_self]
    simp [daProcFinalize, daProcCleanup, hp, hself]
  | some a =>
    obtain ⟨ids, hids⟩ := Option.isSome_iff_exists.1 (ha a rfl)
    simp only [daProcFinalize, daProcCleanup, hp, gFree, hids, Option.bind_eq_bind,
      Option.bind_some, ProcMemory.setProc, Option.some.injEq, ProcMemory.mk.injEq, true_and,
      and_true]
    funext b
    rw [Function.update_apply]
    simp only [eq_comm]

theorem daProcUnref_eq (hp : m.heap p = some priv)
    (ha : ∀ a, priv.groups = some a → (m.arrays a).isSome = true) :
    daProcUnref m (some p) = some (m.release p priv) := by
  simp only [daProcUnref, hp, Option.bind_eq_bind, Option.bind_some, ProcMemory.release]
  by_cases hr : priv.refCount = 1
  · have hset := setProc_self m p { priv with refCount := priv.refCount - 1 }
    rw [if_pos (dec_eq_zero.2 hr), if_pos hr, daProcFinalize_eq hset ha, Option.bind_some]
    simp [gSliceFree, ProcMemory.free, ProcMemory.setProc]
  · rw [if_neg (mt dec_eq_zero.1 hr), if_neg hr]

/-- Where it returns, what it frees was allocated. -/
theorem daProcUnref_inv (hex : daProcUnref m (some p) = some m') :
    ∃ priv, m.heap p = some priv ∧ m' = m.release p priv := by
  have hret := hex
  obtain ⟨priv, hp, hex⟩ := Option.bind_eq_some_iff.1 hex
  refine ⟨priv, hp, ?_⟩
  by_cases hr : priv.refCount = 1
  · rw [if_pos (dec_eq_zero.2 hr)] at hex
    obtain ⟨m1, hfin, -⟩ := Option.bind_eq_some_iff.1 hex
    obtain ⟨priv', hp', hfin⟩ := Option.bind_eq_some_iff.1 hfin
    obtain rfl := Option.some.inj ((setProc_self ..).symm.trans hp')
    rw [daProcUnref_eq hp fun a ha => ?_] at hret
    · exact (Option.some.inj hret).symm
    · rw [ha] at hfin
      obtain ⟨m2, hfree, -⟩ := Option.bind_eq_some_iff.1 hfin
      obtain ⟨ids, hids, -⟩ := Option.bind_eq_some_iff.1 hfree
      exact Option.isSome_iff_exists.2 ⟨ids, hids⟩
  · rw [if_neg (mt dec_eq_zero.1 hr)] at hex
    rw [ProcMemory.release, if_neg hr]
    exact (Option.some.inj hex).symm

theorem daProcRef_eq (hp : m.heap p = some priv) :
    daProcRef m (some p) = some (m.setProc p { priv with refCount := priv.refCount + 1 }) := by
  simp [daProcRef, hp]

theorem ProcOrdered.congr {count' : ProcId → ℕ} (h : ProcOrdered m count)
    (hc : ∀ p, count' p = count p) : ProcOrdered m count' := by
  obtain rfl : count' = count := funext hc
  exact h

theorem Tallied.take (h : Tallied m count) (proc : Option ProcId) :
    Tallied (m.take proc) count := by
  cases proc
  all_goals exact ⟨h.shown, h.fresh⟩

theorem Tallied.give (h : Tallied m count) (proc : Option ProcId) :
    Tallied (m.give proc) count := by
  cases proc
  all_goals exact ⟨h.shown, h.fresh⟩

theorem Tallied.ref (h : Tallied m count) (hp : m.heap p = some priv) :
    Tallied (m.setProc p { priv with refCount := priv.refCount + 1 })
      (Function.update count p (count p + 1)) := by
  have hinc : priv.refCount + 1 = Int32.ofNat (count p + 1) :=
    h.shown p priv hp ▸ ofNat_inc (count p)
  have ⟨h1, h2⟩ := h
  constructor <;> simp only [ProcMemory.setProc, Function.update_apply] <;> grind

theorem Tallied.release (h : Tallied m count) (hp : m.heap p = some priv) (hpos : 0 < count p) :
    Tallied (m.release p priv) (Function.update count p (count p - 1)) := by
  have hdec : priv.refCount - 1 = Int32.ofNat (count p - 1) := h.shown p priv hp ▸ ofNat_dec hpos
  have ⟨h1, h2⟩ := h
  unfold ProcMemory.release
  split_ifs with hr
  · constructor <;> simp only [ProcMemory.free, Function.update_apply] <;> grind
  · constructor <;> simp only [ProcMemory.setProc, Function.update_apply] <;> grind

theorem Tallied.create (h : Tallied m count) (pid : Int32) (cred : DACred)
    (groups : Option (List UInt32)) :
    Tallied (m.create pid cred groups) (Function.update count m.nextProc 1) := by
  have hone : (1 : Int32) = Int32.ofNat (Function.update count m.nextProc 1 m.nextProc) := by
    rw [Function.update_self]
    rfl
  have ⟨h1, h2⟩ := h
  constructor <;> simp only [ProcMemory.create, Function.update_apply] <;> grind

theorem Tallied.abandon (h : Tallied m count) (groups : Option (List UInt32)) :
    Tallied (m.abandon groups) count := by
  have ⟨h1, h2⟩ := h
  cases groups with
  | none => constructor <;> simp only [ProcMemory.abandon, gNew] <;> grind
  | some ids => constructor <;> simp only [ProcMemory.abandon, gNew] <;> grind

theorem ProcOrdered.take (h : ProcOrdered m count) (proc : Option ProcId) :
    ProcOrdered (m.take proc) count := by
  have htallied := h.toTallied.take proc
  cases proc
  all_goals exact ⟨htallied, h.live, h.freed, h.array, h.own, h.nextArray, h.unfinished⟩

theorem ProcOrdered.give (h : ProcOrdered m count) (proc : Option ProcId) :
    ProcOrdered (m.give proc) count := by
  have htallied := h.toTallied.give proc
  cases proc
  all_goals exact ⟨htallied, h.live, h.freed, h.array, h.own, h.nextArray, h.unfinished⟩

theorem ProcOrdered.ref (h : ProcOrdered m count) (hp : m.heap p = some priv)
    (hroom : count p < 2 ^ 32) :
    ProcOrdered (m.setProc p { priv with refCount := priv.refCount + 1 })
      (Function.update count p (count p + 1)) := by
  have htallied := h.toTallied.ref hp
  have ⟨_, h1, h2, h3, h4, h5, h6⟩ := h
  refine ⟨htallied, ?_, ?_, ?_, ?_, ?_, ?_⟩ <;>
    simp only [ProcMemory.setProc, Function.update_apply] <;> grind

theorem ProcOrdered.release (h : ProcOrdered m count) (hp : m.heap p = some priv) :
    ProcOrdered (m.release p priv) (Function.update count p (count p - 1)) := by
  obtain ⟨hpos, hroom⟩ := h.live p priv hp
  have htallied := h.toTallied.release hp hpos
  have hlast : priv.refCount = 1 ↔ count p = 1 := h.shown p priv hp ▸ ofNat_eq_one hpos hroom
  have ⟨⟨_, h0⟩, h1, h2, h3, h4, h5, h6⟩ := h
  unfold ProcMemory.release at *
  split_ifs at * with hr
  · refine ⟨htallied, ?_, ?_, ?_, ?_, ?_, ?_⟩ <;>
      simp only [ProcMemory.free, Function.update_apply] <;> grind
  · refine ⟨htallied, ?_, ?_, ?_, ?_, ?_, ?_⟩ <;>
      simp only [ProcMemory.setProc, Function.update_apply] <;> grind

theorem ProcOrdered.create (h : ProcOrdered m count) (pid : Int32) (cred : DACred)
    (groups : Option (List UInt32)) :
    ProcOrdered (m.create pid cred groups) (Function.update count m.nextProc 1) := by
  have htallied := h.toTallied.create pid cred groups
  have ⟨⟨_, h0⟩, h1, h2, h3, h4, h5, h6⟩ := h
  cases groups with
  | none =>
    refine ⟨htallied, ?_, ?_, ?_, ?_, ?_, ?_⟩ <;>
      simp only [ProcMemory.create, gNew, Function.update_apply] <;> grind
  | some ids =>
    refine ⟨htallied, ?_, ?_, ?_, ?_, ?_, ?_⟩ <;>
      simp only [ProcMemory.create, gNew, Function.update_apply] <;> grind

theorem ProcOrdered.abandon (h : ProcOrdered m count) (groups : Option (List UInt32)) :
    ProcOrdered (m.abandon groups) count := by
  have htallied := h.toTallied.abandon groups
  have ⟨⟨_, h0⟩, h1, h2, h3, h4, h5, h6⟩ := h
  cases groups with
  | none =>
    refine ⟨htallied, ?_, ?_, ?_, ?_, ?_, ?_⟩ <;> simp only [ProcMemory.abandon, gNew] <;> grind
  | some ids =>
    refine ⟨htallied, ?_, ?_, ?_, ?_, ?_, ?_⟩ <;>
      simp only [ProcMemory.abandon, gNew, Function.update_apply] <;> grind

/-! Arrays that belong to no object. -/

def ProcMemory.Leaked (m : ProcMemory) (a : ArrayId) : Prop :=
  (m.arrays a).isSome = true ∧ ∀ p priv, m.heap p = some priv → priv.groups ≠ some a

theorem leaked_setProc {n : Int32} (hp : m.heap p = some priv) (a : ArrayId) :
    (m.setProc p { priv with refCount := n }).Leaked a ↔ m.Leaked a := by
  unfold ProcMemory.Leaked
  simp only [ProcMemory.setProc, Function.update_apply]
  grind

theorem ProcOrdered.leaked_release (h : ProcOrdered m count) (hp : m.heap p = some priv)
    (a : ArrayId) : (m.release p priv).Leaked a ↔ m.Leaked a := by
  have hown := h.own
  unfold ProcMemory.release
  split_ifs with hr
  · unfold ProcMemory.Leaked
    simp only [ProcMemory.free, Function.update_apply]
    grind
  · exact leaked_setProc hp a

theorem ProcOrdered.leaked_create (h : ProcOrdered m count) (pid : Int32) (cred : DACred)
    (groups : Option (List UInt32)) (a : ArrayId) :
    (m.create pid cred groups).Leaked a ↔ m.Leaked a := by
  have hproc := h.unused
  have harray := h.nextArray m.nextArray le_rfl
  have hown := h.array
  have hself : (m.create pid cred groups).heap m.nextProc =
      some ⟨⟨pid, cred⟩, (gNew m groups).2, 1⟩ := Function.update_self ..
  have hother : ∀ q, q ≠ m.nextProc → (m.create pid cred groups).heap q = m.heap q :=
    fun q hq => Function.update_of_ne hq ..
  have harrays : (m.create pid cred groups).arrays = (gNew m groups).1.arrays := rfl
  unfold ProcMemory.Leaked
  rw [harrays]
  cases groups with
  | none =>
    simp only [gNew] at *
    grind
  | some ids =>
    simp only [gNew, Function.update_apply] at *
    grind

/-- The array of an object that was given back without cleanup. -/
theorem ProcOrdered.leaked_abandon (h : ProcOrdered m count) (groups : Option (List UInt32))
    (a : ArrayId) :
    (m.abandon groups).Leaked a ↔ m.Leaked a ∨ groups.isSome = true ∧ a = m.nextArray := by
  have harray := h.nextArray m.nextArray le_rfl
  have hown := h.array
  unfold ProcMemory.Leaked
  cases groups with
  | none =>
    simp only [ProcMemory.abandon, gNew]
    grind
  | some ids =>
    simp only [ProcMemory.abandon, gNew, Function.update_apply]
    grind

@[simp] theorem leaked_take (m : ProcMemory) (proc : Option ProcId) :
    (m.take proc).Leaked = m.Leaked := by
  cases proc <;> rfl

@[simp] theorem leaked_give (m : ProcMemory) (proc : Option ProcId) :
    (m.give proc).Leaked = m.Leaked := by
  cases proc <;> rfl

/-! Clients. -/

@[simp] theorem ProcMemory.create_refs (m : ProcMemory) (pid : Int32) (cred : DACred)
    (groups : Option (List UInt32)) : (m.create pid cred groups).refs = m.refs := by
  cases groups <;> rfl

@[simp] theorem ProcMemory.abandon_refs (m : ProcMemory) (groups : Option (List UInt32)) :
    (m.abandon groups).refs = m.refs := by
  cases groups <;> rfl

@[simp] theorem ProcMemory.release_refs (m : ProcMemory) (p : ProcId) (priv : DAProcPriv) :
    (m.release p priv).refs = m.refs := by
  unfold ProcMemory.release
  split_ifs <;> rfl

@[simp] theorem ProcMemory.setProc_refs (m : ProcMemory) (p : ProcId) (priv : DAProcPriv) :
    (m.setProc p priv).refs = m.refs := rfl

@[simp] theorem ProcMemory.take_refs (m : ProcMemory) (p : ProcId) :
    (m.take (some p)).refs = Function.update m.refs p (m.refs p + 1) := rfl

@[simp] theorem ProcMemory.give_refs (m : ProcMemory) (p : ProcId) :
    (m.give (some p)).refs = Function.update m.refs p (m.refs p - 1) := rfl

/-! Runs. -/

/-- Clients hold all the references that there are. -/
def ProcInv (m : ProcMemory) : Prop := ProcOrdered m m.refs

theorem ProcOrdered.exists_of_pos (h : ProcOrdered m count) (hpos : 0 < count p) :
    ∃ priv, m.heap p = some priv := by
  rw [← Option.isSome_iff_exists, Option.isSome_iff_ne_none]
  intro hnone
  exact hpos.ne' (h.freed p hnone)

/-- What one event does: the only failure is that of the parser, and an array is lost
only where a text is not tidy. -/
theorem ProcInv.step (h : ProcInv m) (he : e.enabled m) (hf : e.fits m) :
    (e.exec m = none ∧ e.faults) ∨ ∃ m', e.exec m = some m' ∧ ProcInv m' ∧
      ((∀ a, ¬ m'.Leaked a) ↔ (∀ a, ¬ m.Leaked a) ∧ e.tidy) := by
  cases e with
  | new pid file =>
    have hp := h.unused
    rcases daProcNew_cases hp pid file with ⟨hnone, hfaults⟩ | ⟨hex, hdata⟩ |
      ⟨data, hdata, ⟨hc, hex⟩ | ⟨hc, hex⟩⟩
    · exact Or.inl ⟨by simp [ProcEvent.exec, hnone], hfaults⟩
    · refine Or.inr ⟨m, by simp [ProcEvent.exec, hex, ProcMemory.take], h, ?_⟩
      simp [ProcEvent.tidy, hdata]
    · generalize (Status.ofText data).credWith cutWords = cred at hex
      refine Or.inr ⟨_, by rw [ProcEvent.exec, hex]; rfl, ?_, ?_⟩
      · refine ((h.create pid cred _).take _).congr fun q => ?_
        rw [ProcMemory.take_refs, ProcMemory.create_refs, h.freed m.nextProc hp]
      · have htidy : (ProcEvent.new pid file).tidy := by
          intro data' hdata'
          obtain rfl : data = data' := by simpa [hdata] using hdata'
          simp [tidyText, hc]
        simp only [leaked_take, h.leaked_create, htidy, and_true]
    · refine Or.inr ⟨_, by rw [ProcEvent.exec, hex]; rfl, ?_, ?_⟩
      · exact ((h.abandon _).take none).congr fun q => congrFun (ProcMemory.abandon_refs m _) q
      · have htidy : (ProcEvent.new pid file).tidy ↔
            ((Status.ofText data).groupsWith cutWords).isSome = false := by
          simp [ProcEvent.tidy, hdata, tidyText, hc]
        simp only [leaked_take, h.leaked_abandon, htidy]
        grind
  | ref proc =>
    cases proc with
    | none => exact Or.inr ⟨m, rfl, h, by simp [ProcEvent.tidy]⟩
    | some p =>
      obtain ⟨priv, hp⟩ := Option.isSome_iff_exists.1 he
      have hp' : (m.take (some p)).heap p = some priv := hp
      refine Or.inr ⟨_, daProcRef_eq hp', ?_, ?_⟩
      · exact ((h.take (some p)).ref hp' hf).congr fun q => rfl
      · simp only [leaked_setProc hp', leaked_take, ProcEvent.tidy, and_true]
  | unref proc =>
    cases proc with
    | none => exact Or.inr ⟨m, rfl, h, by simp [ProcEvent.tidy]⟩
    | some p =>
      obtain ⟨priv, hp⟩ := h.exists_of_pos (of_decide_eq_true he)
      have hp' : (m.give (some p)).heap p = some priv := hp
      have horder := ProcOrdered.give h (some p)
      refine Or.inr ⟨_, daProcUnref_eq hp' fun a => horder.array p priv a hp', ?_, ?_⟩
      · refine (horder.release hp').congr fun q => ?_
        rw [ProcMemory.release_refs, ProcMemory.give_refs]
      · simp only [horder.leaked_release hp', leaked_give, ProcEvent.tidy, and_true]

/-- Taking a reference never fails. -/
theorem ProcInv.failure (h : ProcInv m) (he : e.enabled m) (hnone : e.exec m = none) :
    e.faults := by
  by_cases hf : e.fits m
  · rcases h.step he hf with ⟨-, hfaults⟩ | ⟨m', hex, -⟩
    · exact hfaults
    · rw [hnone] at hex
      cases hex
  · cases e with
    | ref proc =>
      cases proc with
      | none => exact absurd trivial hf
      | some p =>
        obtain ⟨priv, hp⟩ := Option.isSome_iff_exists.1 he
        have hp' : (m.take (some p)).heap p = some priv := hp
        rw [ProcEvent.exec, daProcRef_eq hp'] at hnone
        cases hnone
    | _ => exact absurd trivial hf

theorem procInv_init : ProcInv .init := by
  constructor
  · constructor <;> simp [ProcMemory.init]
  all_goals simp [ProcMemory.init]

theorem proc_run_inv (h : Run countedProcs acts m) :
    ProcInv m ∧ ((∀ a, ¬ m.Leaked a) ↔ ∀ e ∈ acts, e.tidy) := by
  refine h.induct_history (I := fun acts m => ProcInv m ∧ ((∀ a, ¬ m.Leaked a) ↔
    ∀ e ∈ acts, e.tidy)) ?_ ?_
  · refine ⟨procInv_init, ?_⟩
    simp [ProcMemory.Leaked, countedProcs, System.restrict, procSystem, ProcMemory.init]
  · intro acts m e m' _ ⟨hinv, hleak⟩ hen hex
    rcases hinv.step hen.1 hen.2 with ⟨hnone, -⟩ | ⟨m2, hex2, hinv2, hstep⟩
    · rw [show e.exec m = some m' from hex] at hnone
      cases hnone
    · rw [show e.exec m = some m' from hex, Option.some_inj] at hex2
      subst hex2
      refine ⟨hinv2, ?_⟩
      rw [hstep, hleak]
      simp only [List.mem_append, List.mem_singleton, or_imp, forall_and, forall_eq]

theorem ProcInv.arraysHeld_iff (h : ProcInv m) : ArraysHeld m ↔ ∀ a, ¬ m.Leaked a := by
  apply Iff.intro
  · intro hheld a ⟨ha, hno⟩
    obtain ⟨p, priv, -, hp, hg⟩ := (hheld a).1 ha
    exact hno p priv hp hg
  · intro hleak a
    refine ⟨fun ha => ?_, ?_⟩
    · by_contra hno
      refine hleak a ⟨ha, fun p priv hp hg => hno ⟨p, priv, (h.live p priv hp).1, hp, hg⟩⟩
    · intro ⟨p, priv, _, hp, hg⟩
      exact h.array p priv a hp hg

/-- In every run in which no count comes round, the arrays that are allocated are those of
referenced objects exactly when every text that was read is tidy. Tidy or not, nothing is
freed twice or used after it was freed. -/
theorem arraysHeld_iff_tidy (acts : List ProcEvent) (m : ProcMemory)
    (h : Run countedProcs acts m) :
    (ArraysHeld m ↔ ∀ e ∈ acts, e.tidy) ∧
      ∀ e : ProcEvent, e.enabled m → e.exec m = none → e.faults := by
  obtain ⟨hinv, hleak⟩ := proc_run_inv h
  exact ⟨hinv.arraysHeld_iff.trans hleak, fun e hen hnone => hinv.failure hen hnone⟩

/-- A file with both ids. -/
def exampleFile : CString → Option (List UInt8) :=
  fun _ => some (str "Uid:\t1\t2\t3\t4\nGid:\t1\t2\t3\t4\nGroups:\t5 6 \n")

/-- An object that is referenced twice, and a file without the ids of the user. -/
def exampleProcs : List ProcEvent :=
  [.new 77 exampleFile, .ref (some 0), .new 78 fun _ => some (str "Gid:\t1\t2\t3\t4\nGroups:\n"),
    .unref (some 0)]

theorem arraysHeld_iff_tidy_example : ∃ m, Run countedProcs exampleProcs m ∧
    (ArraysHeld m ↔ ∀ e ∈ exampleProcs, e.tidy) ∧
      ∀ e : ProcEvent, e.enabled m → e.exec m = none → e.faults := by
  obtain ⟨m, hm⟩ := Option.isSome_iff_exists.1 (show
    (countedProcs.replay .init exampleProcs).isSome = true by decide +kernel)
  have hrun := Run.nil.replay hm
  exact ⟨m, hrun, arraysHeld_iff_tidy _ m hrun⟩

/-- A file whose line with the ids of the group is missing. -/
def exampleUntidy : ProcEvent :=
  .new 77 fun _ => some (str "Uid:\t1\t2\t3\t4\nGroups:\t5 6 \n")

theorem arraysHeld_fails : ¬ ∀ acts m, Run procSystem acts m → ArraysHeld m := by
  intro hall
  have hex : (countedProcs.exec .init exampleUntidy).map (fun m =>
      (m.arrays 0, m.heap 0, m.nextProc)) = some (some [5, 6], none, 1) := by
    decide +kernel
  obtain ⟨m, hm, hstate⟩ := Option.map_eq_some_iff.1 hex
  have hrun : Run countedProcs ([] ++ [exampleUntidy]) m := Run.nil.snoc ⟨trivial, trivial⟩ hm
  obtain ⟨harray, hfreed, hnext⟩ := by simpa only [Prod.mk.injEq] using hstate
  obtain ⟨p, priv, -, hp, -⟩ := (hall _ m hrun.of_restrict 0).1 (by rw [harray]; rfl)
  have hnone := (proc_run_inv hrun).1.fresh p
  rcases Nat.eq_zero_or_pos p with rfl | hpos
  · rw [hfreed] at hp
    cases hp
  · rw [(hnone (by omega)).1] at hp
    cases hp

end DbusAccess
