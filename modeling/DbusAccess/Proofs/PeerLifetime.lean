import DbusAccess.Proofs.PeerRuns

/-! The life of a peer: who holds it, when it is finalized, and what it keeps. -/

namespace DbusAccess

open Transition

variable {w w' : World} {p : PeerId} {priv priv' : DAPeerPriv} {e : Event} {acts acts' : List Event}

/-- The references of the clients, and that of the table. -/
theorem World.references_pos (w : World) (p : PeerId) : 0 < w.references p ↔ w.Held p := by
  unfold World.references World.Held
  split_ifs with h <;> simp [h]

theorem World.references_of_cached (h : w.Cached p) : w.references p = w.refs p + 1 := by
  rw [World.references, if_pos h]

theorem World.references_of_not_cached (h : ¬ w.Cached p) : w.references p = w.refs p := by
  rw [World.references, if_neg h, Nat.add_zero]

theorem Inv.held_iff (h : Inv w) (p : PeerId) : w.Held p ↔ ∃ priv, w.heap p = some priv := by
  rw [← w.references_pos]
  apply Iff.intro
  · intro hpos
    rw [← Option.isSome_iff_exists, Option.isSome_iff_ne_none]
    intro hnone
    exact hpos.ne' (h.ordered.freed p hnone).1
  · intro ⟨priv, hpriv⟩
    exact (h.ordered.live p priv hpriv).2.1

theorem Shape.made (h : Shape w) (hp : w.heap p = some priv) : p < w.nextPeer := by
  by_contra hle
  rw [h.heap p (Nat.le_of_not_lt hle)] at hp
  cases hp

/-- Only a request makes a peer, under a new number. -/
theorem Reached.step_keeps (h : Reached w) (hex : e.exec w = some w') :
    w.nextPeer ≤ w'.nextPeer ∧ ∀ p < w.nextPeer, ∀ priv', w'.heap p = some priv' →
      ∃ priv, w.heap p = some priv ∧ SameData priv priv' := by
  rcases (h.step hex).2 with hframe | ⟨type, name, out, -, -, hadded⟩
  · exact ⟨hframe.nextPeer, fun p _ => hframe.heap p⟩
  · refine ⟨hadded.nextPeer, fun p hp priv' hpriv' => ⟨priv', ?_, .refl _⟩⟩
    rw [← hadded.other p hp.ne, hpriv']

theorem Reached.step_gone (h : Reached w) (hex : e.exec w = some w') (hp : w.Gone p) :
    w'.Gone p := by
  obtain ⟨hle, hkeeps⟩ := h.step_keeps hex
  refine ⟨hp.1.trans_le hle, ?_⟩
  rw [Option.eq_none_iff_forall_ne_some]
  intro priv' hpriv'
  obtain ⟨priv, hpriv, -⟩ := hkeeps p hp.1 priv' hpriv'
  rw [hp.2] at hpriv
  cases hpriv

/-- A peer that is freed stays so. -/
theorem run_gone (h : Run peerSystem acts w) (hp : w.Gone p)
    (h' : Run peerSystem (acts ++ acts') w') : w'.Gone p :=
  h.kept hp (fun _ _ _ _ hrun _ hex => (run_reached hrun).step_gone hex) h'

theorem run_sameData (h : Run peerSystem acts w) (hp : w.heap p = some priv)
    (h' : Run peerSystem (acts ++ acts') w') (hp' : w'.heap p = some priv') :
    SameData priv priv' := by
  have hstart : p < w.nextPeer ∧ ∀ priv', w.heap p = some priv' → SameData priv priv' := by
    refine ⟨(run_reached h).shape.made hp, fun priv' hpriv' => ?_⟩
    obtain rfl : priv = priv' := by simpa [hp] using hpriv'
    exact .refl _
  refine (h.kept (P := fun w => p < w.nextPeer ∧ ∀ priv', w.heap p = some priv' →
    SameData priv priv') hstart ?_ h').2 priv' hp'
  intro acts w1 e w2 hrun _ hex ⟨hlt, hsame⟩
  obtain ⟨hle, hkeeps⟩ := (run_reached hrun).step_keeps hex
  refine ⟨hlt.trans_le hle, fun priv2 hpriv2 => ?_⟩
  obtain ⟨priv1, hpriv1, h1, h2, h3, h4⟩ := hkeeps p hlt priv2 hpriv2
  obtain ⟨g1, g2, g3, g4⟩ := hsame priv1 hpriv1
  exact ⟨h1.trans g1, h2.trans g2, h3.trans g3, h4.trans g4⟩

/-- What a run and its continuations do to one peer. -/
structure Lifetime (S : System World Event) (acts : List Event) (w : World) (p : PeerId) :
    Prop where
  count : ∀ priv, w.heap p = some priv →
    (w.Cached p → priv.refCount = Int32.ofNat (w.refs p + 1)) ∧
    (¬ w.Cached p → priv.refCount = Int32.ofNat (w.refs p))
  held : w.Held p → ∃ priv, w.heap p = some priv
  gone : w.Gone p ↔ p < w.nextPeer ∧ ¬ w.Held p
  finalized : (w.Gone p → w.finalized p = 1) ∧ (¬ w.Gone p → w.finalized p = 0)
  once : w.Gone p ↔ ∃! n, Becomes S (·.Gone p) acts n
  keeps : ∀ acts' w', Run S (acts ++ acts') w' → w.Held p → w'.Held p →
    ∃ priv priv', w.heap p = some priv ∧ w'.heap p = some priv' ∧ priv'.pub = priv.pub ∧
      priv'.name = priv.name ∧ priv'.cred = priv.cred

theorem Inv.finalized_iff (h : Inv w) (p : PeerId) :
    (w.Gone p → w.finalized p = 1) ∧ (¬ w.Gone p → w.finalized p = 0) := by
  refine ⟨fun hp => h.ordered.finished p hp.1 hp.2, fun hp => ?_⟩
  apply h.ordered.unfinished p
  by_cases hlt : p < w.nextPeer
  · left
    rw [Option.isSome_iff_ne_none]
    exact fun hnone => hp ⟨hlt, hnone⟩
  · exact Or.inr (Nat.le_of_not_lt hlt)

/-- In every run in which no count comes round each peer is counted, finalized once, when
nobody holds it, and keeps its data until then; an event never meets a peer that was
finalized, since the only one that fails is a request whose status file leads the parser
out of its bounds. -/
theorem peer_lifetime (acts : List Event) (w : World) (h : Run countedPeers acts w) :
    (∀ p, Lifetime countedPeers acts w p) ∧
      ∀ e : Event, e.enabled w → e.exec w = none → e.faults := by
  have hinv := run_inv h
  refine ⟨fun p => ⟨fun priv hp => ?_, (hinv.held_iff p).1, ?_, hinv.finalized_iff p,
    ⟨fun hp => ?_, ?_⟩, ?_⟩, fun e => hinv.failure⟩
  · have hcount := (hinv.ordered.live p priv hp).1
    refine ⟨fun hc => ?_, fun hc => ?_⟩
    · rw [hcount, World.references_of_cached hc]
    · rw [hcount, World.references_of_not_cached hc]
  · rw [World.Gone, hinv.held_iff]
    refine and_congr_right fun _ => ?_
    rw [Option.eq_none_iff_forall_ne_some, not_exists]
  · refine h.becomes_once ?_ hp ?_
    · intro ⟨hlt, _⟩
      exact Nat.not_lt_zero p hlt
    · exact fun _ _ _ _ hrun _ hex => (run_inv hrun).toReached.step_gone hex
  · intro ⟨n, ⟨_, _, _, hs', _, hgone⟩, _⟩
    rw [← List.take_append_drop (n + 1) acts] at h
    exact run_gone hs'.of_restrict hgone h.of_restrict
  · intro acts' w' h' hw hw'
    obtain ⟨priv, hp⟩ := (hinv.held_iff p).1 hw
    obtain ⟨priv', hp'⟩ := ((run_inv h').held_iff p).1 hw'
    obtain ⟨h1, h2, -, h4⟩ := run_sameData h.of_restrict hp h'.of_restrict hp'
    exact ⟨priv, priv', hp, hp', h1, h4, h2⟩

/-- A client keeps the peer of the system bus over its timeout and a second request. -/
def exampleLife : List Event :=
  [exampleRequest .SYSTEM, .ref (some 0), .timeout 1, exampleRequest .SYSTEM, .unref (some 0)]

theorem peer_lifetime_example : ∃ w, Run countedPeers exampleLife w ∧
    (∀ p, Lifetime countedPeers exampleLife w p) ∧
      ∀ e : Event, e.enabled w → e.exec w = none → e.faults := by
  obtain ⟨w, hw⟩ := Option.isSome_iff_exists.1 (show
    (countedPeers.replay .init exampleLife).isSome = true by decide +kernel)
  have hrun := Run.nil.replay hw
  exact ⟨w, hrun, peer_lifetime _ w hrun⟩

/-- A peer whose count has come round is freed while the table and a client hold it. -/
theorem peer_lifetime_fails :
    ¬ ∀ acts w, Run peerSystem acts w → ∀ p, Lifetime peerSystem acts w p := by
  intro hall
  obtain ⟨acts, w, hrun, hheap, htable⟩ := run_frees_cached
  have hcached : w.Cached 0 := ⟨.SYSTEM, ⟨0, 0⟩, htable ▸ List.mem_cons_self, rfl⟩
  obtain ⟨priv, hpriv⟩ := (hall acts w hrun 0).held (Or.inl hcached)
  rw [hheap] at hpriv
  cases hpriv

end DbusAccess
