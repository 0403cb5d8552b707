import DbusAccess.Proofs.Directory

/-! What the cache knows under a name is what its history last said about that name. -/

namespace DbusAccess

open Transition

variable {d d' : Directory} {b : DABus} {name : CString} {p : PeerId} {a : Directory.Action}

namespace Directory

/-- Every entry has its peer. -/
def Backed (d : Directory) : Prop := ∀ b name p, d.entry b name = some p → (d.peer p).isSome = true

theorem collect_known (d : Directory) (b : DABus) (name : CString) :
    d.collect.known b name = d.known b name := by
  unfold known collect
  cases hentry : d.entry b name with
  | none => rfl
  | some p => exact if_pos (Or.inl ⟨b, name, hentry⟩)

theorem Backed.collect (h : d.Backed) : d.collect.Backed := by
  intro b name p hentry
  have hp : d.collect.peer p = d.peer p := if_pos (Or.inl ⟨b, name, hentry⟩)
  rw [hp]
  exact h b name p hentry

theorem setEntry_known (d : Directory) (bus : DABus) (n : CString) :
    (d.setEntry bus n none).known b name =
      if b = bus ∧ name = n then none else d.known b name := by
  rw [known, setEntry_entry]
  split_ifs
  · rfl
  · rfl

theorem clear_known (d : Directory) (bus : DABus) :
    (d.clear bus).known b name = if b = bus then none else d.known b name := by
  rw [known, clear_entry]
  split_ifs
  · rfl
  · rfl

theorem Backed.setEntry (h : d.Backed) (bus : DABus) (n : CString) :
    (d.setEntry bus n none).Backed := by
  intro b name p hentry
  rw [setEntry_entry] at hentry
  split_ifs at hentry
  exact h b name p hentry

theorem Backed.clear (h : d.Backed) (bus : DABus) : (d.clear bus).Backed := by
  intro b name p hentry
  rw [clear_entry] at hentry
  split_ifs at hentry
  exact h b name p hentry

/-- A new peer is nobody's yet. -/
theorem Backed.learned (h : d.Backed) {bus : DABus} {n : CString} {peer : DAPeer}
    (hp : d.peer p = none) (hex : (Action.learned bus n p peer).exec d = some d') :
    d'.Backed ∧ ∀ b name,
      d'.known b name = if b = bus ∧ name = n then some peer else d.known b name := by
  obtain rfl := Option.some.inj hex
  have hne : ∀ b name q, d.entry b name = some q → q ≠ p := by
    rintro b name q hentry rfl
    have hq := h b name q hentry
    rw [hp] at hq
    cases hq
  refine ⟨fun b name q hentry => ?_, fun b name => ?_⟩
  · rw [setEntry_entry] at hentry
    by_cases hq : q = p
    · simp [hq]
    · split_ifs at hentry with hself
      · exact absurd (Option.some.inj hentry).symm hq
      · simpa [hq] using h b name q hentry
  · unfold known
    rw [setEntry_entry]
    split_ifs with hself
    · simp
    · cases hentry : d.entry b name with
      | none => rfl
      | some q => simp [hne b name q hentry]

/-- What an action does not speak about stays known. -/
theorem Backed.step (h : d.Backed) (hen : a.enabled d) (hex : a.exec d = some d') :
    d'.Backed ∧ ∀ b name, d'.known b name = (a.about b name).getD (d.known b name) := by
  cases a with
  | learned bus n p peer =>
    obtain ⟨hbacked, hknown⟩ := h.learned hen.2 hex
    refine ⟨hbacked, fun b name => ?_⟩
    rw [hknown, Action.about]
    split_ifs <;> rfl
  | forgot bus n =>
    obtain rfl := Option.some.inj hex
    refine ⟨(h.setEntry bus n).collect, fun b name => ?_⟩
    rw [collect_known, setEntry_known, Action.about]
    split_ifs <;> rfl
  | cleared bus =>
    obtain rfl := Option.some.inj hex
    refine ⟨(h.clear bus).collect, fun b name => ?_⟩
    rw [collect_known, clear_known, Action.about]
    split_ifs <;> rfl
  | released p =>
    obtain rfl := Option.some.inj hex
    exact ⟨Backed.collect (d := d.setRefs p _) h, fun b name => collect_known _ b name⟩
  | held p =>
    obtain rfl := Option.some.inj hex
    exact ⟨h, fun _ _ => rfl⟩
  | _ =>
    obtain rfl := Option.some.inj hex
    exact ⟨h, fun _ _ => rfl⟩

end Directory

theorem directory_backed {steps : List Directory.Action} (h : Run directorySystem steps d) :
    d.Backed :=
  h.invariant (fun _ _ _ hentry => by cases hentry) fun _ _ _ hbacked hen hex =>
    (hbacked.step hen hex).1

/-- In every run of the directory, what is known under a name is what was last said of it. -/
theorem directory_recalls {steps : List Directory.Action} (h : Run directorySystem steps d)
    (b : DABus) (name : CString) :
    d.known b name = (steps.filterMap (Directory.Action.about b name)).getLast?.getD none :=
  h.recalls (fun d => d.known b name) (Directory.Action.about b name) fun _ _ _ _ hrun hen hex =>
    ((directory_backed hrun).step hen hex).2 b name

/-- In every run in which no count comes round, what the cache knows under a name of a bus is
what was last learned or forgotten of this name, whatever happens to other names, to the other
bus and to references. -/
theorem cache_recalls (acts : List Event) (w : World) (h : Run countedPeers acts w) :
    ∃ steps, Labelled countedPeers (fun w e => e.action w) acts steps ∧
      ∀ b name, w.directory.known b name =
        (steps.filterMap (Directory.Action.about b name)).getLast?.getD none := by
  have hsim : ∃ steps, Labelled countedPeers (fun w e => e.action w) acts steps ∧
      Run directorySystem steps w.directory := by
    refine h.simulate World.directory (fun w e => e.action w) directory_init ?_
    intro acts w e w' hrun hen hex
    exact (run_inv hrun).directory_step hen.1 hex
  obtain ⟨steps, hlab, hsteps⟩ := hsim
  exact ⟨steps, hlab, directory_recalls hsteps⟩

theorem cache_recalls_timeout : ∃ w,
    Run countedPeers
      [exampleRequest .SYSTEM, .ref (some 0), exampleRequest .SESSION, .timeout 1] w ∧
    ∃ steps, Labelled countedPeers (fun w e => e.action w)
        [exampleRequest .SYSTEM, .ref (some 0), exampleRequest .SESSION, .timeout 1] steps ∧
      ∀ b name, w.directory.known b name =
        (steps.filterMap (Directory.Action.about b name)).getLast?.getD none := by
  obtain ⟨w, hw⟩ := Option.isSome_iff_exists.1 (show (countedPeers.replay .init
    [exampleRequest .SYSTEM, .ref (some 0), exampleRequest .SESSION, .timeout 1]).isSome = true by
      decide +kernel)
  have hrun := Run.nil.replay hw
  exact ⟨w, hrun, cache_recalls _ w hrun⟩

end DbusAccess
