import DbusAccess.Lib.Transition
import DbusAccess.Spec.Cred
import Mathlib.Logic.Function.Basic

/-! The cache of peers, `dbusaccess_peer.c`, and the parts of GLib it uses. A
pointer to a peer is the number of its allocation, which is never used again.
Access to freed memory, a missing table and an id that is not in use fail. -/

namespace DbusAccess

open Numerals

abbrev PeerId := ℕ

structure DAPeer where
  bus : DABus
  name : CString
  pid : ℤ
  cred : DACred
  deriving DecidableEq

/-- The name is the allocated string, freed together with the peer. An id of zero
is no timeout, or no watch. -/
structure DAPeerPriv where
  pub : DAPeer
  cred : DACredPriv
  bus : DABus
  name : CString
  refCount : Int32
  timeoutId : ℕ
  nameWatchId : ℕ
  deriving DecidableEq

/-- An entry of the hash table. Its key is the name string inside of a peer. -/
structure Entry where
  key : PeerId
  value : PeerId
  deriving DecidableEq

structure DAPeerBus where
  peers : Option (List Entry)
  connection : Bool
  deriving DecidableEq

/-- What a watch waits for, and the data of its callback. -/
structure NameWatch where
  bus : DABus
  name : CString
  data : PeerId
  deriving DecidableEq

/-- The memory of the library and the main loop: allocated peers, peers with an
allocated array of groups, pending timeouts and active watches with the data of
their callbacks. `refs` counts the references that clients hold, and `finalized` the
calls of `da_peer_finalize`. -/
structure World where
  heap : PeerId → Option DAPeerPriv
  groups : PeerId → Bool
  daBus : DABus → DAPeerBus
  timeouts : ℕ → Option PeerId
  watches : ℕ → Option NameWatch
  nextPeer : ℕ
  nextTimeout : ℕ
  nextWatch : ℕ
  refs : PeerId → ℕ
  finalized : PeerId → ℕ

/-- Ids start from one. -/
def World.init : World where
  heap _ := none
  groups _ := false
  daBus _ := ⟨none, false⟩
  timeouts _ := none
  watches _ := none
  nextPeer := 0
  nextTimeout := 1
  nextWatch := 1
  refs _ := 0
  finalized _ := 0

/-- What the surroundings answer during a request: whether the bus can be reached,
the reply to `GetConnectionUnixProcessID` and what files contain. -/
structure Outside where
  gBusGetSync : Bool
  pid : Option UInt32
  gFileGetContents : CString → Option (List UInt8)

def World.setPeer (w : World) (p : PeerId) (priv : DAPeerPriv) : World :=
  { w with heap := Function.update w.heap p (some priv) }

def World.setBus (w : World) (type : DABus) (bus : DAPeerBus) : World :=
  { w with daBus := Function.update w.daBus type bus }

def World.setPeers (w : World) (type : DABus) (peers : List Entry) : World :=
  w.setBus type { w.daBus type with peers := some peers }

def World.setRefs (w : World) (p : PeerId) (n : ℕ) : World :=
  { w with refs := Function.update w.refs p n }

/-! GLib. -/

def gSourceRemove (w : World) (id : ℕ) : Option World :=
  if (w.timeouts id).isSome then some { w with timeouts := Function.update w.timeouts id none }
  else none

def gTimeoutAddSeconds (w : World) (data : PeerId) : World × ℕ :=
  ({ w with
      timeouts := Function.update w.timeouts w.nextTimeout (some data)
      nextTimeout := w.nextTimeout + 1 }, w.nextTimeout)

def gBusUnwatchName (w : World) (id : ℕ) : Option World :=
  if (w.watches id).isSome then some { w with watches := Function.update w.watches id none }
  else none

def gBusWatchName (w : World) (bus : DABus) (name : CString) (data : PeerId) :
    Option (World × ℕ) :=
  if (w.daBus bus).connection then
    some ({ w with
      watches := Function.update w.watches w.nextWatch (some ⟨bus, name, data⟩)
      nextWatch := w.nextWatch + 1 }, w.nextWatch)
  else none

/-- The entry with this key. Comparing keys reads the strings. -/
def gHashTableFind (w : World) (name : CString) : List Entry → Option (Option Entry)
  | [] => some none
  | e :: table => do
    let owner ← w.heap e.key
    if owner.name = name then some (some e) else gHashTableFind w name table

def gHashTableLookup (w : World) (bus : DABus) (name : CString) : Option (Option PeerId) := do
  let table ← (w.daBus bus).peers
  let e ← gHashTableFind w name table
  some (e.map Entry.value)

/-! Peers. -/

def daPeerDispose (w : World) (p : PeerId) : Option World := do
  let priv ← w.heap p
  let w ← if priv.nameWatchId ≠ 0 then do
      let w ← gBusUnwatchName w priv.nameWatchId
      some (w.setPeer p { priv with nameWatchId := 0 })
    else some w
  let priv ← w.heap p
  if priv.timeoutId ≠ 0 then do
    let w ← gSourceRemove w priv.timeoutId
    some (w.setPeer p { priv with timeoutId := 0 })
  else some w

def daCredPrivCleanup (w : World) (p : PeerId) : Option World := do
  let priv ← w.heap p
  if priv.cred.groups.isSome then
    if w.groups p then
      some ({ w with groups := Function.update w.groups p false }.setPeer p
        { priv with cred := ⟨none⟩ })
    else none
  else some w

def daPeerFinalize (w : World) (p : PeerId) : Option World := do
  let priv ← w.heap p
  let w := { w with finalized := Function.update w.finalized p (w.finalized p + 1) }
  let w ← if priv.nameWatchId ≠ 0 then gBusUnwatchName w priv.nameWatchId else some w
  let w ← if priv.timeoutId ≠ 0 then gSourceRemove w priv.timeoutId else some w
  daCredPrivCleanup w p

def daPeerRef (w : World) (p : PeerId) : Option World := do
  let priv ← w.heap p
  some (w.setPeer p { priv with refCount := priv.refCount + 1 })

def daPeerUnref (w : World) (p : PeerId) : Option World := do
  let priv ← w.heap p
  let w := w.setPeer p { priv with refCount := priv.refCount - 1 }
  if priv.refCount - 1 = 0 then do
    let w ← daPeerFinalize w p
    some { w with heap := Function.update w.heap p none }
  else some w

/-! The tables, whose values are released with `da_peer_unref1`. -/

def gHashTableRemove (w : World) (bus : DABus) (name : CString) : Option World := do
  let table ← (w.daBus bus).peers
  match ← gHashTableFind w name table with
  | some e => daPeerUnref (w.setPeers bus (table.erase e)) e.value
  | none => some w

/-- `g_hash_table_replace` with the name of the peer as the key. -/
def gHashTableReplace (w : World) (bus : DABus) (p : PeerId) : Option World := do
  let table ← (w.daBus bus).peers
  let priv ← w.heap p
  match ← gHashTableFind w priv.name table with
  | some e => daPeerUnref (w.setPeers bus (⟨p, p⟩ :: table.erase e)) e.value
  | none => some (w.setPeers bus (⟨p, p⟩ :: table))

def gHashTableRemoveAll (w : World) (bus : DABus) : Option World := do
  let table ← (w.daBus bus).peers
  table.foldlM (fun w e => daPeerUnref w e.value) (w.setPeers bus [])

/-- The bus of this type, with a table when there is a connection. -/
def daPeerBus (w : World) (type : DABus) (init : Bool) (out : Outside) :
    World × Option DABus :=
  let bus := w.daBus type
  let bus := if !bus.connection && init then { bus with connection := out.gBusGetSync }
    else bus
  if bus.connection then
    (w.setBus type { bus with peers := some (bus.peers.getD []) }, some type)
  else (w.setBus type bus, none)

def daPeerCleanup (w : World) (bus : DABus) : Option World := do
  let table ← (w.daBus bus).peers
  if table.length = 0 then some (w.setBus bus ⟨none, false⟩) else some w

def daPeerRemove (w : World) (p : PeerId) : Option World := do
  let priv ← w.heap p
  let bus := priv.bus
  let w ← daPeerDispose w p
  let priv ← w.heap p
  let w ← gHashTableRemove w bus priv.name
  daPeerCleanup w bus

def daPeerTimeout (w : World) (p : PeerId) : Option World := do
  let priv ← w.heap p
  daPeerRemove (w.setPeer p { priv with timeoutId := 0 }) p

def daPeerVanished (w : World) (p : PeerId) : Option World := daPeerRemove w p

def daPeerResetTimeout (w : World) (p : PeerId) : Option World := do
  let priv ← w.heap p
  let w ← if priv.timeoutId ≠ 0 then gSourceRemove w priv.timeoutId else some w
  let (w, id) := gTimeoutAddSeconds w p
  some (w.setPeer p { priv with timeoutId := id })

/-- The fields not set are zero. -/
def daPeerNew (w : World) (bus : DABus) (name : CString) : Option (World × PeerId) := do
  let p := w.nextPeer
  let w := { w with nextPeer := p + 1 }.setPeer p
    { pub := { bus := .SYSTEM, name := name, pid := 0, cred := .zero }
      cred := ⟨none⟩, bus := bus, name := name, refCount := 1, timeoutId := 0, nameWatchId := 0 }
  let w ← daPeerResetTimeout w p
  let (w, id) ← gBusWatchName w bus name p
  let priv ← w.heap p
  some (w.setPeer p { priv with nameWatchId := id }, p)

def statusFile (pid : UInt32) : CString := str "/proc/" ++ decimal pid.toNat ++ str "/status"

/-- The array of groups is allocated while parsing. -/
def daPeerFillCred (w : World) (p : PeerId) (pid : UInt32) (out : Outside) :
    Option (World × Bool) := do
  match out.gFileGetContents (statusFile pid) with
  | some data =>
    let priv ← w.heap p
    match daCredParse priv.pub.cred priv.cred data with
    | .ok (ok, cred, credPriv) =>
      let w := { w with groups := Function.update w.groups p credPriv.groups.isSome }
      some (w.setPeer p { priv with pub.cred := cred, cred := credPriv }, ok)
    | .error _ => none
  | none => some (w, false)

/-- Without a table entry for the name: the peer for the answer of the bus. -/
def daPeerGetNew (w : World) (bus : DABus) (name : CString) (out : Outside) :
    Option (World × Option PeerId) := do
  match out.pid with
  | some pid =>
    let (w, p) ← daPeerNew w bus name
    let (w, ok) ← daPeerFillCred w p pid out
    if ok then do
      -- cache this info
      let priv ← w.heap p
      let w ← gHashTableReplace (w.setPeer p { priv with pub.pid := toInt pid.toNat }) bus p
      some (w, some p)
    else do
      let w ← daPeerUnref w p
      let w ← daPeerCleanup w bus
      some (w, none)
  | none => do
    let w ← daPeerCleanup w bus
    some (w, none)

def daPeerGet (w : World) (type : DABus) (name : Option CString) (out : Outside) :
    Option (World × Option PeerId) := do
  match name with
  | none => some (w, none)
  | some name =>
    match daPeerBus w type true out with
    | (w, none) => some (w, none)
    | (w, some bus) =>
      match ← gHashTableLookup w bus name with
      | some p => do
        let w ← daPeerResetTimeout w p
        some (w, some p)
      | none => daPeerGetNew w bus name out

/-- Nothing is asked outside. -/
def daPeerFlush (w : World) (type : DABus) (name : Option CString) : Option World := do
  match daPeerBus w type false ⟨false, none, fun _ => none⟩ with
  | (w, none) => some w
  | (w, some bus) =>
    match name with
    | some name =>
      match ← gHashTableLookup w bus name with
      | some p => daPeerRemove w p
      | none => some w
    | none =>
      let table ← (w.daBus bus).peers
      let w ← table.foldlM (fun w e => daPeerDispose w e.value) w
      let w ← gHashTableRemoveAll w bus
      daPeerCleanup w bus

/-! Runs. -/

/-- Calls of clients, and callbacks of the main loop by the id of their timeout
or watch. -/
inductive Event where
  | get (type : DABus) (name : Option CString) (out : Outside)
  | ref (peer : Option PeerId)
  | unref (peer : Option PeerId)
  | flush (type : DABus) (name : Option CString)
  | timeout (id : ℕ)
  | vanished (id : ℕ)

/-- Clients take references through valid pointers and give up their own ones. A
timeout or watch that was removed has no callback. -/
def Event.enabled (w : World) : Event → Prop
  | .get _ _ _ | .flush _ _ | .ref none | .unref none => True
  | .ref (some p) => (w.heap p).isSome
  | .unref (some p) => 0 < w.refs p
  | .timeout id => (w.timeouts id).isSome
  | .vanished id => (w.watches id).isSome

instance (w : World) (e : Event) : Decidable (e.enabled w) :=
  match e with
  | .get _ _ _ | .flush _ _ | .ref none | .unref none => .isTrue trivial
  | .ref (some p) => inferInstanceAs (Decidable ((w.heap p).isSome = true))
  | .unref (some p) => inferInstanceAs (Decidable (0 < w.refs p))
  | .timeout id => inferInstanceAs (Decidable ((w.timeouts id).isSome = true))
  | .vanished id => inferInstanceAs (Decidable ((w.watches id).isSome = true))

def Event.exec (w : World) : Event → Option World
  | .get type name out => (daPeerGet w type name out).map Prod.fst
  | .ref none | .unref none => some w
  | .ref (some p) => daPeerRef (w.setRefs p (w.refs p + 1)) p
  | .unref (some p) => daPeerUnref (w.setRefs p (w.refs p - 1)) p
  | .flush type name => daPeerFlush w type name
  | .timeout id => do
    let p ← w.timeouts id
    let w ← daPeerTimeout w p
    -- `G_SOURCE_REMOVE`
    some { w with timeouts := Function.update w.timeouts id none }
  | .vanished id => do
    let watch ← w.watches id
    daPeerVanished w watch.data

/-- The count of a peer is an `int`. It has room for fewer than `2 ^ 32` references of
clients, beside that of a table. -/
def Event.fits (w : World) : Event → Prop
  | .ref (some p) => w.refs p + 1 < 2 ^ 32
  | _ => True

/-- Reading the status file does not leave the bounds of an object. -/
def Outside.parses (out : Outside) : Prop :=
  ∀ pid data, out.gFileGetContents (statusFile pid) = some data →
    ∃ r, daCredParse .zero ⟨none⟩ data = .ok r

def Event.parses : Event → Prop
  | .get _ _ out => out.parses
  | _ => True

/-- Reading the status file of the process that the bus named leaves the bounds of an
object. -/
def Outside.faults (out : Outside) : Prop :=
  ∃ pid data fault, out.pid = some pid ∧ out.gFileGetContents (statusFile pid) = some data ∧
    daCredParse .zero ⟨none⟩ data = .error fault

def Event.faults : Event → Prop
  | .get _ (some _) out => out.faults
  | _ => False

def peerSystem : Transition.System World Event := ⟨.init, Event.enabled, Event.exec⟩

/-- Counts do not come round. -/
def countedPeers : Transition.System World Event := peerSystem.restrict Event.fits

instance (w : World) (e : Event) : Decidable (peerSystem.enabled w e) :=
  inferInstanceAs (Decidable (e.enabled w))

instance Event.decidableFits (w : World) (e : Event) : Decidable (e.fits w) :=
  match e with
  | .ref (some p) => inferInstanceAs (Decidable (w.refs p + 1 < 2 ^ 32))
  | .ref none | .get _ _ _ | .unref _ | .flush _ _ | .timeout _ | .vanished _ => .isTrue trivial

instance (w : World) (e : Event) : Decidable (countedPeers.enabled w e) :=
  inferInstanceAs (Decidable (e.enabled w ∧ e.fits w))

/-! The invariant of the cache. -/

def World.table (w : World) (b : DABus) : List Entry := (w.daBus b).peers.getD []

def World.nameOf (w : World) (p : PeerId) : Option CString := (w.heap p).map DAPeerPriv.name

def World.Cached (w : World) (p : PeerId) : Prop := ∃ b, ∃ e ∈ w.table b, e.value = p

/-- Cached peers have different names and are found under their own, each has one
timeout and one watch and nobody else has any, and the connection is held while
there are cached peers. -/
structure CacheInvariant (w : World) : Prop where
  names : ∀ b, ((w.table b).map fun e => w.nameOf e.value).Nodup
  ownName : ∀ b, ∀ e ∈ w.table b, ∃ priv, w.heap e.value = some priv ∧
    w.nameOf e.key = some priv.name ∧ priv.pub.name = priv.name
  timeout : ∀ p, w.Cached p → ∃! id, w.timeouts id = some p
  watch : ∀ p, w.Cached p → ∃! id, ∃ watch, w.watches id = some watch ∧ watch.data = p
  timeoutCached : ∀ id p, w.timeouts id = some p → w.Cached p
  watchCached : ∀ id watch, w.watches id = some watch → w.Cached watch.data
  connection : ∀ b, (w.daBus b).connection = true ↔
    ∃ table, (w.daBus b).peers = some table ∧ table ≠ []

/-- The same peers with the same references, tables, connections, timeouts, watches and
arrays of groups. -/
structure World.Unchanged (w w' : World) : Prop where
  heap : w'.heap = w.heap
  refs : w'.refs = w.refs
  daBus : w'.daBus = w.daBus
  timeouts : w'.timeouts = w.timeouts
  watches : w'.watches = w.watches
  groups : w'.groups = w.groups

/-! The life of a peer. -/

/-- The tables or a client need the peer. -/
def World.Held (w : World) (p : PeerId) : Prop := w.Cached p ∨ 0 < w.refs p

/-- The peer was made, and is freed. -/
def World.Gone (w : World) (p : PeerId) : Prop := p < w.nextPeer ∧ w.heap p = none

/-! What a peer says. -/

/-- The request in a run that made a peer, with the answer of the bus and the status
file that was read. -/
def Created (acts : List Event) (p : PeerId) (type : DABus) (name : CString) (pid : UInt32)
    (data : List UInt8) : Prop :=
  ∃ before out after w w', acts = before ++ .get type (some name) out :: after ∧
    Transition.Run peerSystem before w ∧ w.heap p = none ∧
    daPeerGet w type (some name) out = some (w', some p) ∧ out.pid = some pid ∧
    out.gFileGetContents (statusFile pid) = some data

/-- The public fields of a peer describe the request, and the process that the bus
named when the peer was made. -/
def Describes (acts : List Event) (type : DABus) (name : CString) (p : PeerId)
    (peer : DAPeer) : Prop :=
  peer.bus = type ∧ peer.name = name ∧ ∃ pid data credPriv, Created acts p type name pid data ∧
    peer.pid = toInt pid.toNat ∧
    daCredParse .zero ⟨none⟩ data = .ok (true, peer.cred, credPriv)

end DbusAccess
