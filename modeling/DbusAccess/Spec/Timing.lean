import DbusAccess.Lib.Timers
import DbusAccess.Spec.Peer
import DbusAccess.Spec.SelfShared

/-! The timers of cached peers and of the shared instance, in time. -/

namespace DbusAccess

open Timers

def DBUSACCESS_PEER_TIMEOUT_SEC : ℕ := 30

def peerTiming (early late : ℕ) : Timed countedPeers where
  interval w id := (w.timeouts id).map fun _ => DBUSACCESS_PEER_TIMEOUT_SEC
  fires
    | .timeout id => some id
    | _ => none
  early := early
  late := late

def selfTiming (early late : ℕ) : Timed selfSystem where
  interval w id := (w.timer id).map SelfTimer.interval
  fires
    | .expire id => some id
    | _ => none
  early := early
  late := late

/-- A request that returns the peer, at this time. -/
def ReturnedAt (p : PeerId) (t : ℕ) (c : Clocked World) (x : TimedAct Event) : Prop :=
  c.now = t ∧ ∃ type name out w', x = .act (.get type (some name) out) ∧
    daPeerGet c.state type (some name) out = some (w', some p)

/-- The shared instance is made, to stay for so many seconds. -/
def SharedAt (p : ProcId) (t sec : ℕ) (c : Clocked SelfWorld) (x : TimedAct SelfEvent) : Prop :=
  c.now = t ∧ c.state.selfShared = none ∧ ∃ out w', x = .act (.newShared out) ∧ out.sec = sec ∧
    daSelfNewShared c.state out = some (w', some p)

end DbusAccess
