import DbusAccess.Spec.Directory
import DbusAccess.Spec.Status

/-! Callers on a bus: peers whose status files the kernel wrote. -/

namespace DbusAccess

open Numerals

def Outside.Kernel (out : Outside) : Prop :=
  ∀ pid data, out.gFileGetContents (statusFile pid) = some data → ∃ s, StatusText s data

def Event.Kernel : Event → Prop
  | .get _ _ out => out.Kernel
  | _ => True

/-- The peer was made for the process that the bus named, which was like this then. -/
def StandsFor (acts : List Event) (p : PeerId) (peer : DAPeer) (s : ProcStatus) : Prop :=
  ∃ type pid data, Created acts p type peer.name pid data ∧ StatusText s data ∧
    peer.pid = toInt pid.toNat

end DbusAccess
