import DbusAccess.Spec.Peer

/-! The cache beside the bus. Names change their owners at any moment, also between
the answer that a request waits for and the registration of the watch that the
request starts: that is sent behind the request, and processed by the bus later. A
request itself changes nothing outside, so it is one event. -/

namespace DbusAccess

/-- A client of the bus, and its process. -/
structure Owner where
  unique : ℕ
  pid : UInt32
  deriving DecidableEq

/-- The bus knows the owners of the names and the watches it has registered, and has
sent notices that a name vanished, which wait for the main loop. -/
structure BusWorld where
  world : World
  owner : DABus → CString → Option Owner
  registered : ℕ → Bool
  notices : ℕ → ℕ

inductive BusEvent where
  | client (e : Event)
  | change (bus : DABus) (name : CString) (owner : Option Owner)
  | register (id : ℕ)
  | deliver (id : ℕ)

/-- The bus answers with the process of the owner, or with an error. -/
def honest (s : BusWorld) : Event → Prop
  | .get type (some name) out => out.pid = none ∨ out.pid = (s.owner type name).map Owner.pid
  | .vanished _ => False
  | _ => True

def BusEvent.enabled (s : BusWorld) : BusEvent → Prop
  | .client e => e.enabled s.world ∧ honest s e
  | .change bus name owner => owner ≠ s.owner bus name
  | .register id => (s.world.watches id).isSome ∧ s.registered id = false
  | .deliver id => (s.world.watches id).isSome ∧ 0 < s.notices id

/-- An owner that is lost or replaced is told to the watches registered for its name,
and a name without owner to a watch when it is registered. -/
def BusEvent.exec (s : BusWorld) : BusEvent → Option BusWorld
  | .client e => (e.exec s.world).map fun w => { s with world := w }
  | .change bus name owner => some { s with
      owner := Function.update s.owner bus (Function.update (s.owner bus) name owner)
      notices := fun id =>
        match s.world.watches id with
        | some watch =>
          if s.registered id = true ∧ watch.bus = bus ∧ watch.name = name ∧
              (s.owner bus name).isSome = true then
            s.notices id + 1
          else s.notices id
        | none => s.notices id }
  | .register id => do
    let watch ← s.world.watches id
    some { s with
      registered := Function.update s.registered id true
      notices :=
        if s.owner watch.bus watch.name = none then
          Function.update s.notices id (s.notices id + 1)
        else s.notices }
  | .deliver id => do
    let w ← (Event.vanished id).exec s.world
    some { s with world := w, notices := Function.update s.notices id (s.notices id - 1) }

def BusWorld.init : BusWorld := ⟨.init, fun _ _ => none, fun _ => false, fun _ => 0⟩

def busSystem : Transition.System BusWorld BusEvent := ⟨.init, BusEvent.enabled, BusEvent.exec⟩

instance (s : BusWorld) (e : Event) : Decidable (honest s e) :=
  match e with
  | .get type (some name) out =>
    inferInstanceAs (Decidable (out.pid = none ∨ out.pid = (s.owner type name).map Owner.pid))
  | .vanished _ => .isFalse id
  | .get _ none _ | .ref _ | .unref _ | .flush _ _ | .timeout _ => .isTrue trivial

instance (s : BusWorld) (a : BusEvent) : Decidable (busSystem.enabled s a) :=
  match a with
  | .client e => inferInstanceAs (Decidable (e.enabled s.world ∧ honest s e))
  | .change bus name owner => inferInstanceAs (Decidable (owner ≠ s.owner bus name))
  | .register id =>
    inferInstanceAs (Decidable ((s.world.watches id).isSome = true ∧ s.registered id = false))
  | .deliver id =>
    inferInstanceAs (Decidable ((s.world.watches id).isSome = true ∧ 0 < s.notices id))

/-- With its watch registered and no notice for the name on its way, a cached peer is
the process of the owner of its name. -/
def Settled (s : BusWorld) : Prop :=
  ∀ bus name p priv id, (∃ e ∈ s.world.table bus, e.value = p) → s.world.heap p = some priv →
    priv.name = name → s.world.watches id = some ⟨bus, name, p⟩ → s.registered id = true →
    (∀ id' watch, s.world.watches id' = some watch → watch.bus = bus → watch.name = name →
      s.notices id' = 0) →
    ∃ o, s.owner bus name = some o ∧ priv.pub.pid = toInt o.pid.toNat

/-- When a watch is registered, the name has not gone over to another process since
the bus was asked. -/
def Timely (s : BusWorld) : BusEvent → Prop
  | .register id => ∀ watch priv o, s.world.watches id = some watch →
      s.world.heap watch.data = some priv → s.owner watch.bus watch.name = some o →
      priv.pub.pid = toInt o.pid.toNat
  | _ => True

end DbusAccess
