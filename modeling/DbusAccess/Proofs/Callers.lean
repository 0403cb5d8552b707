import DbusAccess.Proofs.CredRoundTrip
import DbusAccess.Proofs.Directory
import DbusAccess.Proofs.PolicyDecision
import DbusAccess.Spec.Callers

/-! Cache, credentials and policies together: what is decided for a caller. -/

namespace DbusAccess

open Numerals Transition

variable {w : World} {p : PeerId} {priv : DAPeerPriv} {acts : List Event} {s : ProcStatus}

/-- A peer of a kernel's text has what the text is written for. -/
theorem StatusText.stored {text : List UInt8} {cred : DACred} {credPriv : DACredPriv} {ok : Bool}
    (h : StatusText s text) (hparse : daCredParse .zero ⟨none⟩ text = .ok (ok, cred, credPriv)) :
    cred = s.cred := by
  obtain ⟨h0, -, hcred⟩ := h.cred
  rw [daCredParse_eq h0, hcred] at hparse
  exact (Prod.mk.inj (Prod.mk.inj (Except.ok.inj hparse)).2).1.symm

theorem Created.statusText {type : DABus} {name : CString} {pid : UInt32} {data : List UInt8}
    (h : Created acts p type name pid data) (hk : ∀ e ∈ acts, e.Kernel) :
    ∃ s, StatusText s data := by
  obtain ⟨before, out, after, -, -, rfl, -, -, -, -, hdata⟩ := h
  have hout : (Event.get type (some name) out).Kernel := hk _ (by simp)
  exact hout pid data hdata

/-- In every run, a peer stands for a process. -/
theorem run_standsFor (h : Run peerSystem acts w) (hk : ∀ e ∈ acts, e.Kernel)
    (hp : w.heap p = some priv) : ∃ s, StandsFor acts p priv.pub s ∧ priv.pub.cred = s.cred := by
  obtain ⟨-, hname, pid, data, hcreated, hpid, hparse⟩ := run_known h p priv hp
  obtain ⟨s, hs⟩ := hcreated.statusText hk
  rw [← hname] at hcreated
  exact ⟨s, ⟨priv.bus, pid, data, hcreated, hs, hpid⟩, hs.stored hparse⟩

/-- In every run on a kernel in which no count comes round, policies decide for a peer that
is cached or held as their rules say of the process that the peer stands for. -/
theorem caller_decision {σ : Type} (g : GPattern σ) (host : Host) (spec : CString)
    (actions : Option (List DAAction)) (parser : DAParser)
    (hcompile : daParserCompile host (some spec) actions = some parser)
    (acts : List Event) (w : World) (h : Run countedPeers acts w) (hk : ∀ e ∈ acts, e.Kernel)
    (p : PeerId) (hp : w.Held p) :
    ∃ peer s policy, w.directory.peer p = some peer ∧ StandsFor acts p peer s ∧
      daPolicyNewFull g host (some spec) actions = some policy ∧
      ∀ action arg default, daPolicyCheck g (some policy) (some peer.cred) action arg default =
        decision g (daParserGetResult parser) (some s.cred) action arg default := by
  obtain ⟨priv, hpriv⟩ := ((run_inv h).held_iff p).1 hp
  obtain ⟨s, hs, hcred⟩ := run_standsFor h.of_restrict hk hpriv
  refine ⟨priv.pub, s, _, congrArg (Option.map DAPeerPriv.pub) hpriv, hs,
    daPolicyNewFull_eq g hcompile, fun action arg default => ?_⟩
  rw [hcred]
  exact daPolicyCheck_eq g _ (daParserCompile_idsOk hcompile) (some s.cred) action arg default

def exampleProc : ProcStatus := ⟨⟨1, 100000, 3, 4⟩, ⟨5, 6, 7, 8⟩, [0, 4294967295], 0xffffffffffffffff⟩

/-- A process whose name looks like a key. -/
def kernelOutside : Outside where
  gBusGetSync := true
  pid := some 77
  gFileGetContents _ := some ([str "Name:\t" ++ str "Uid: 0 0 0 0",
    str "Uid:\t" ++ exampleProc.uids.text, str "Gid:\t" ++ exampleProc.gids.text,
    str "Groups:\t" ++ groupsText exampleProc.groups,
    str "CapEff:\t" ++ fixedWidth 16 16 exampleProc.caps.toNat].flatMap (· ++ [ch '\n']))

theorem kernelOutside_kernel : kernelOutside.Kernel := by
  rintro pid data hdata
  rw [← Option.some.inj hdata]
  exact ⟨exampleProc, statusText_text exampleProc _ (by decide +kernel)⟩

/-- The peer is held, and has been dropped from the cache. -/
theorem caller_decision_held : ∃ w,
    Run countedPeers [.get .SYSTEM (some (str ":1.1")) kernelOutside, .ref (some 0), .timeout 1] w ∧
    w.Held 0 ∧ ∃ peer s policy, w.directory.peer 0 = some peer ∧
      StandsFor [.get .SYSTEM (some (str ":1.1")) kernelOutside, .ref (some 0), .timeout 1] 0 peer
        s ∧
      daPolicyNewFull globPattern exampleHost
        (some (str "1; *=deny; user(1) & Call(a*)")) (some exampleActions) = some policy ∧
      ∀ action arg default,
        daPolicyCheck globPattern (some policy) (some peer.cred) action arg default =
          decision globPattern
            [⟨.null, .DENY⟩, ⟨.and (.identity 1 (-1)) (.custom 7 (some (str "a*"))), .ALLOW⟩]
            (some s.cred) action arg default := by
  have hrefs : ((countedPeers.replay .init [.get .SYSTEM (some (str ":1.1")) kernelOutside,
      .ref (some 0), .timeout 1]).map fun w => w.refs 0) = some 1 := by
    decide +kernel
  obtain ⟨w, hw, hone⟩ := Option.map_eq_some_iff.1 hrefs
  have hheld : w.Held 0 := Or.inr (hone ▸ Nat.one_pos)
  refine ⟨w, Run.nil.replay hw, hheld, caller_decision globPattern exampleHost _ _
    ⟨some exampleActions, _⟩ (by decide +kernel) _ w (Run.nil.replay hw) ?_ 0 hheld⟩
  simp [Event.Kernel, kernelOutside_kernel]

end DbusAccess
