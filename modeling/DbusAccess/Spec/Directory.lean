import DbusAccess.Spec.Peer

/-! What the cache of peers is for: a directory of the peers of each bus by name. A
peer can be used as long as it is in the directory or a client holds it. There are no
tables, counters, timeouts, watches and connections here. -/

namespace DbusAccess

@[ext] structure Directory where
  entry : DABus → CString → Option PeerId
  peer : PeerId → Option DAPeer
  refs : PeerId → ℕ

namespace Directory

inductive Action where
  | found (bus : DABus) (name : CString) (p : PeerId)
  | learned (bus : DABus) (name : CString) (p : PeerId) (peer : DAPeer)
  | refused (bus : DABus) (name : CString)
  | forgot (bus : DABus) (name : CString)
  | cleared (bus : DABus)
  | held (p : PeerId)
  | released (p : PeerId)
  | idle

/-- A request that learns of a peer makes a new one. -/
def Action.enabled (d : Directory) : Action → Prop
  | .found bus name p => d.entry bus name = some p
  | .learned bus name p _ => d.entry bus name = none ∧ d.peer p = none
  | .refused bus name => d.entry bus name = none
  | .forgot bus name => (d.entry bus name).isSome
  | .held p => (d.peer p).isSome
  | .released p => 0 < d.refs p
  | .cleared _ | .idle => True

def setEntry (d : Directory) (bus : DABus) (name : CString) (p : Option PeerId) : Directory :=
  { d with entry := Function.update d.entry bus (Function.update (d.entry bus) name p) }

theorem setEntry_entry (d : Directory) (bus b : DABus) (name n : CString) (p : Option PeerId) :
    (d.setEntry bus name p).entry b n = if b = bus ∧ n = name then p else d.entry b n := by
  by_cases hb : b = bus
  · subst hb
    by_cases hn : n = name <;> simp [setEntry, hn]
  · simp [setEntry, hb]

def clear (d : Directory) (bus : DABus) : Directory :=
  { d with entry := Function.update d.entry bus fun _ => none }

theorem clear_entry (d : Directory) (bus b : DABus) (n : CString) :
    (d.clear bus).entry b n = if b = bus then none else d.entry b n := by
  by_cases hb : b = bus <;> simp [clear, hb]

def setRefs (d : Directory) (p : PeerId) (n : ℕ) : Directory :=
  { d with refs := Function.update d.refs p n }

open Classical in
/-- Nobody but the peers that are in the directory or held. -/
noncomputable def collect (d : Directory) : Directory where
  entry := d.entry
  peer p := if (∃ bus name, d.entry bus name = some p) ∨ 0 < d.refs p then d.peer p else none
  refs := d.refs

noncomputable def Action.exec (d : Directory) : Action → Option Directory
  | .found _ _ _ | .refused _ _ | .idle => some d
  | .learned bus name p peer =>
    some { d.setEntry bus name (some p) with peer := Function.update d.peer p (some peer) }
  | .forgot bus name => some (d.setEntry bus name none).collect
  | .cleared bus => some (d.clear bus).collect
  | .held p => some (d.setRefs p (d.refs p + 1))
  | .released p => some (d.setRefs p (d.refs p - 1)).collect

/-- What is known under a name. -/
def known (d : Directory) (bus : DABus) (name : CString) : Option DAPeer :=
  (d.entry bus name).bind d.peer

/-- What an action says about a name: a peer, or that there is none. -/
def Action.about (b : DABus) (n : CString) : Action → Option (Option DAPeer)
  | .learned bus name _ peer => if b = bus ∧ n = name then some (some peer) else none
  | .forgot bus name => if b = bus ∧ n = name then some none else none
  | .cleared bus => if b = bus then some none else none
  | .found _ _ _ | .refused _ _ | .held _ | .released _ | .idle => none

end Directory

noncomputable def directorySystem : Transition.System Directory Directory.Action where
  init := ⟨fun _ _ => none, fun _ => none, fun _ => 0⟩
  enabled := Directory.Action.enabled
  exec := Directory.Action.exec

/-! The directory that the cache keeps, and what the events of the cache do there. -/

def World.directory (w : World) : Directory where
  entry b name := ((w.table b).find? fun e => w.nameOf e.value == some name).map Entry.value
  peer p := (w.heap p).map DAPeerPriv.pub
  refs := w.refs

/-- The peer that the surroundings tell of. The bus of a peer is never set. -/
def Outside.answer (out : Outside) (connected : Bool) (name : CString) : Option DAPeer := do
  if connected || out.gBusGetSync then
    let pid ← out.pid
    match daCredParse .zero ⟨none⟩ (← out.gFileGetContents (statusFile pid)) with
    | .ok (true, cred, _) => some ⟨.SYSTEM, name, toInt pid.toNat, cred⟩
    | _ => none
  else none

/-- What a request returns, by the directory or else by the answer. -/
def World.reply (w : World) (type : DABus) (name : CString) (out : Outside) : Option PeerId :=
  w.directory.entry type name <|>
    (out.answer (w.daBus type).connection name).map fun _ => w.nextPeer

def World.request (w : World) (type : DABus) (name : CString) (out : Outside) :
    Directory.Action :=
  match w.directory.entry type name with
  | some p => .found type name p
  | none =>
    match out.answer (w.daBus type).connection name with
    | some peer => .learned type name w.nextPeer peer
    | none => .refused type name

def Event.action (w : World) : Event → Directory.Action
  | .get type (some name) out => w.request type name out
  | .flush type (some name) =>
    if (w.directory.entry type name).isSome then .forgot type name else .idle
  | .flush type none => .cleared type
  | .ref (some p) => .held p
  | .unref (some p) => .released p
  | .get _ none _ | .ref none | .unref none => .idle
  | .timeout id =>
    match (w.timeouts id).bind w.heap with
    | some priv => .forgot priv.bus priv.name
    | none => .idle
  | .vanished id =>
    match w.watches id with
    | some watch => .forgot watch.bus watch.name
    | none => .idle

/-- The events that take the peer with this name out of the cache: the name or the bus
is flushed, or the timeout or the watch of the peer strikes. -/
def Event.drops (w : World) (type : DABus) (name : CString) (p : PeerId) : Event → Prop
  | .flush bus none => bus = type
  | .flush bus (some n) => bus = type ∧ n = name
  | .timeout id => w.timeouts id = some p
  | .vanished id => ∃ watch, w.watches id = some watch ∧ watch.data = p
  | .get _ _ _ | .ref _ | .unref _ => False

end DbusAccess
