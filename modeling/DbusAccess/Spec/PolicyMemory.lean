import DbusAccess.Lib.Transition
import DbusAccess.Spec.ParserMemory

/-! `dbusaccess_policy.c` once more, with its allocations and pointers. -/

namespace DbusAccess.InMemory

open Separation Assertion

variable {σ : Type} (g : GPattern σ)

/-! Expressions. Each recursion and each loop is cut off after so many blocks as there
have been. -/

def daPolicyExprCustomMatch (action : UInt32) (pattern : Option Addr) (pc : DAPolicyCheck) :
    Prog (Block σ) Bool :=
  if pc.action = action then
    match pc.arg with
    | some arg =>
      match pattern with
      | some pattern => do
        match ← read pattern with
        | .gPatternSpec pspec => pure (g.gPatternMatch pspec (UInt32.ofNat arg.length) arg)
        | _ => failure
      -- a wildcard, or no arguments are expected
      | none => pure true
    | none => pure pattern.isNone
  else pure false

def exprMatch (pc : DAPolicyCheck) : ℕ → Option Addr → Prog (Block σ) Bool
  | _, none => pure true
  | 0, some _ => failure
  | n + 1, some expr => do
    match ← read expr with
    | .policyExpr (.binary .and left right) => exprMatch pc n left <&&> exprMatch pc n right
    | .policyExpr (.binary .or left right) => exprMatch pc n left <||> exprMatch pc n right
    | .policyExpr (.unary operand) => do
      let b ← exprMatch pc n operand
      pure !b
    | .policyExpr (.identity uid gid) => pure (daPolicyExprIdentityMatch uid gid pc)
    | .policyExpr (.custom action pattern) => daPolicyExprCustomMatch g action pattern pc
    | _ => failure

def daPolicyExprMatch (pc : DAPolicyCheck) (expr : Option Addr) : Prog (Block σ) Bool := do
  let n ← bound
  exprMatch g pc n expr

def daPolicyExprCustomEqual (action1 : UInt32) (pattern1 : Option Addr) (action2 : UInt32)
    (pattern2 : Option Addr) : Prog (Block σ) Bool :=
  if action1 = action2 then
    match pattern1, pattern2 with
    | none, none => pure true
    | some pattern1, some pattern2 => do
      match ← read pattern1 with
      | .gPatternSpec pspec1 =>
        match ← read pattern2 with
        | .gPatternSpec pspec2 => pure (g.gPatternSpecEqual pspec1 pspec2)
        | _ => failure
      | _ => failure
    | _, _ => pure false
  else pure false

/-- `x1->type->equal(x1, x2)`, for expressions of one type. -/
def typeEqual (equal : Option Addr → Option Addr → Prog (Block σ) Bool) :
    DAPolicyExpr → DAPolicyExpr → Prog (Block σ) Bool
  | .binary _ left1 right1, .binary _ left2 right2 =>
    (equal left1 left2 <&&> equal right1 right2) <||>
      (equal left1 right2 <&&> equal right1 left2)
  | .unary operand1, .unary operand2 => equal operand1 operand2
  | .identity uid1 gid1, .identity uid2 gid2 => pure (uid1 == uid2 && gid1 == gid2)
  | .custom action1 pattern1, .custom action2 pattern2 =>
    daPolicyExprCustomEqual g action1 pattern1 action2 pattern2
  | _, _ => failure

def exprEqual : ℕ → Option Addr → Option Addr → Prog (Block σ) Bool
  | n, some x1, some x2 =>
    if x1 = x2 then pure true
    else match n with
      | 0 => failure
      | n + 1 => do
        match ← read x1, ← read x2 with
        | .policyExpr e1, .policyExpr e2 =>
          if e1.type = e2.type then typeEqual g (exprEqual n) e1 e2 else pure false
        | _, _ => failure
  | _, x1, x2 => pure (x1.isNone && x2.isNone)

def daPolicyExprEqual (x1 x2 : Option Addr) : Prog (Block σ) Bool := do
  let n ← bound
  exprEqual g n x1 x2

def daPolicyExprCustomFree (expr : Addr) (pattern : Option Addr) : Prog (Block σ) Unit := do
  match pattern with
  | some pattern => release .gPatternSpec pattern
  | none => pure ()
  release (.gSlice .DAPolicyExprCustom) expr

def exprFree : ℕ → Option Addr → Prog (Block σ) Unit
  | _, none => pure ()
  | 0, some _ => failure
  | n + 1, some expr => do
    match ← read expr with
    | .policyExpr (.binary _ left right) => do
      exprFree n left
      exprFree n right
      release (.gSlice .DAPolicyExprBinary) expr
    | .policyExpr (.unary operand) => do
      exprFree n operand
      release (.gSlice .DAPolicyExprUnary) expr
    | .policyExpr (.identity _ _) => release (.gSlice .DAPolicyExprIdentity) expr
    | .policyExpr (.custom _ pattern) => daPolicyExprCustomFree expr pattern
    | _ => failure

def daPolicyExprFree (expr : Option Addr) : Prog (Block σ) Unit := do
  let n ← bound
  exprFree n expr

def daPolicyExprBinaryNew (type : BinaryType) (left right : Option Addr) :
    Prog (Block σ) (Option Addr) := some <$> alloc (.policyExpr (.binary type left right))

def daPolicyExprUnaryNotNew (operand : Option Addr) : Prog (Block σ) (Option Addr) :=
  some <$> alloc (.policyExpr (.unary operand))

def daPolicyExprIdentityNew (uid gid : ℤ) : Prog (Block σ) (Option Addr) :=
  some <$> alloc (.policyExpr (.identity uid gid))

def daPolicyExprCustomNew (action : UInt32) (pattern : Option Addr) :
    Prog (Block σ) (Option Addr) := do
  let x ← alloc (.policyExpr (.custom action none))
  match pattern with
  | some pattern => do
    let pattern ← readString pattern
    if pattern ≠ str "*" then do
      let pspec ← alloc (.gPatternSpec (g.gPatternSpecNew pattern))
      write x (.policyExpr (.custom action (some pspec)))
      pure (some x)
    else pure (some x)
  | none => pure (some x)

/-- The left operand comes first; the order is up to the compiler. -/
def exprNew : ℕ → Option Addr → Prog (Block σ) (Option Addr)
  | _, none => pure none
  | 0, some _ => failure
  | n + 1, some expr => do
    match ← read expr with
    | .parserExpr ⟨.IDENTITY, .identity uid gid⟩ => daPolicyExprIdentityNew uid gid
    | .parserExpr ⟨.CUSTOM, .custom action param⟩ => daPolicyExprCustomNew g action param
    | .parserExpr ⟨.NOT, .expr operand _⟩ => do
      let operand ← exprNew n operand
      daPolicyExprUnaryNotNew operand
    | .parserExpr ⟨.AND, .expr left right⟩ => do
      let left ← exprNew n left
      let right ← exprNew n right
      daPolicyExprBinaryNew .and left right
    | .parserExpr ⟨.OR, .expr left right⟩ => do
      let left ← exprNew n left
      let right ← exprNew n right
      daPolicyExprBinaryNew .or left right
    | _ => failure

def daPolicyExprNew (expr : Option Addr) : Prog (Block σ) (Option Addr) := do
  let n ← bound
  exprNew g n expr

/-! Policies. -/

/-- Entries are linked like the links of GLib. -/
def entryLinked : Linked (Block σ) DAPolicyEntry where
  node e next := .policyEntry e next
  view
    | .policyEntry e next => some (e, next)
    | _ => none
  view_node _ _ := rfl

def readPolicy (policy : Addr) : Prog (Block σ) DAPolicy := do
  match ← read policy with
  | .policy p => pure p
  | _ => failure

def daPolicyAddEntry (policy : Addr) (parserEntry : Option Addr) : Prog (Block σ) Unit := do
  match parserEntry with
  | some parserEntry => do
    match ← read parserEntry with
    | .parserEntry e => do
      let entry ← alloc (.policyEntry ⟨.DENY, none⟩ none)
      let expr ← daPolicyExprNew g e.expr
      write entry (.policyEntry ⟨e.access, expr⟩ none)
      let p ← readPolicy policy
      match p.entries with
      | some last => setLast entryLinked last (some entry)
      | none => write policy (.policy { p with entries := some entry })
    | _ => failure
  | none => failure

def daPolicyNewFull (host : Host) (spec : Option CString) (actions : Option (List DAAction)) :
    Prog (Block σ) (Option Addr) := do
  match ← daParserCompile host spec actions with
  | some parser => do
    let policy ← alloc (.policy ⟨0, none⟩)
    let entry ← daParserGetResult parser
    gSListForeach entry (daPolicyAddEntry g policy)
    let p ← readPolicy policy
    write policy (.policy { p with refCount := 1 })
    daParserDelete parser
    pure (some policy)
  | none => pure none

def daPolicyFinalize (policy : Addr) : Prog (Block σ) Unit := do
  let p ← readPolicy policy
  match p.entries with
  | some _ => do
    let n ← bound
    walk entryLinked (fun _ e => daPolicyExprFree e.expr) n () p.entries
    freeLinks entryLinked (fun b => b.allocation = .gSlice .DAPolicyEntry) n p.entries
  | none => pure ()

def daPolicyRef (policy : Option Addr) : Prog (Block σ) (Option Addr) :=
  match policy with
  | some a => do
    let p ← readPolicy a
    write a (.policy { p with refCount := p.refCount + 1 })
    pure policy
  | none => pure none

def daPolicyUnref (policy : Option Addr) : Prog (Block σ) Unit :=
  match policy with
  | some a => do
    let p ← readPolicy a
    write a (.policy { p with refCount := p.refCount - 1 })
    if p.refCount - 1 = 0 then do
      daPolicyFinalize a
      release (.gSlice .DAPolicy) a
    else pure ()
  | none => pure ()

/-- The walk over both lists of entries. -/
def entriesEqual : ℕ → Option Addr → Option Addr → Prog (Block σ) Bool
  | n + 1, some e1, some e2 => do
    match ← read e1, ← read e2 with
    | .policyEntry e1 next1, .policyEntry e2 next2 => do
      if !(← daPolicyExprEqual g e1.expr e2.expr) || e1.access != e2.access then pure false
      else entriesEqual n next1 next2
    | _, _ => failure
  | 0, some _, some _ => failure
  | _, e1, e2 => pure (e1.isNone && e2.isNone)

def daPolicyEqual (p1 p2 : Option Addr) : Prog (Block σ) Bool :=
  if p1 = p2 then pure true
  else match p1, p2 with
    | some p1, some p2 => do
      let p1 ← readPolicy p1
      let p2 ← readPolicy p2
      let n ← bound
      entriesEqual g n p1.entries p2.entries
    | _, _ => pure false

def daPolicyCheck (policy : Option Addr) (cred : Option DACred) (action : UInt32)
    (arg : Option CString) (default : DAAccess) : Prog (Block σ) DAAccess :=
  if cred.any (·.euid == 0) then pure .ALLOW
  else match policy with
    | some policy => do
      let p ← readPolicy policy
      let n ← bound
      walk entryLinked (fun result e => do
        if ← daPolicyExprMatch g ⟨cred, action, arg⟩ e.expr then pure e.access else pure result)
        n default p.entries
    | none => pure default

/-! What a policy is in memory. Nothing is shared. -/

def ExprAt : DbusAccess.DAPolicyExpr σ → Option Addr → Assertion (Block σ)
  | .null, p => fact (p = none)
  | .and left right, some a => ⨆ l, ⨆ r,
    single a (.policyExpr (.binary .and l r)) * (ExprAt left l * ExprAt right r)
  | .or left right, some a => ⨆ l, ⨆ r,
    single a (.policyExpr (.binary .or l r)) * (ExprAt left l * ExprAt right r)
  | .not operand, some a => ⨆ x, single a (.policyExpr (.unary x)) * ExprAt operand x
  | .identity uid gid, some a => single a (.policyExpr (.identity uid gid))
  | .custom action none, some a => single a (.policyExpr (.custom action none))
  | .custom action (some pspec), some a => ⨆ q,
    single a (.policyExpr (.custom action (some q))) * single q (.gPatternSpec pspec)
  | _, none => fact False

/-- The expressions of entries in memory, for the entries that they are. -/
def ExprsAt : List DAPolicyEntry → List (DbusAccess.DAPolicyEntry σ) → Assertion (Block σ)
  | [], [] => 1
  | e :: es, v :: vs => fact (e.access = v.access) * (ExprAt v.expr e.expr * ExprsAt es vs)
  | _, _ => fact False

def EntriesAt (p : Option Addr) (entries : List (DbusAccess.DAPolicyEntry σ)) :
    Assertion (Block σ) :=
  ⨆ links, Chain entryLinked p links none * ExprsAt (links.map Prod.snd) entries

def PolicyAt (a : Addr) (refCount : Int32) (policy : DbusAccess.DAPolicy σ) :
    Assertion (Block σ) :=
  ⨆ p, single a (.policy ⟨refCount, p⟩) * EntriesAt p policy.entries

/-! Clients that hold references to policies. -/

structure PolicyText where
  spec : Option CString
  actions : Option (List DAAction)

/-- The memory, and for each reference the policy and the text that it goes back to. -/
structure Clients (σ : Type) where
  heap : Heap (Block σ)
  refs : List (Addr × PolicyText)

def Clients.init : Clients σ := ⟨.empty, []⟩

def Clients.Holds (s : Clients σ) (policy : Addr) : Prop := policy ∈ s.refs.map Prod.fst

inductive ClientEvent where
  | new (text : PolicyText)
  | ref (policy : Addr)
  | unref (policy : Addr)
  | check (policy : Addr) (cred : Option DACred) (action : UInt32) (arg : Option CString)
      (default : DAAccess)
  | equal (policy1 policy2 : Addr)

/-- Clients use what they hold. -/
def ClientEvent.enabled (s : Clients σ) : ClientEvent → Prop
  | .new _ => True
  | .ref policy | .unref policy | .check policy _ _ _ _ => s.Holds policy
  | .equal policy1 policy2 => s.Holds policy1 ∧ s.Holds policy2

instance (s : Clients σ) (e : ClientEvent) : Decidable (e.enabled s) :=
  match e with
  | .new _ => inferInstanceAs (Decidable True)
  | .ref policy | .unref policy | .check policy _ _ _ _ =>
    inferInstanceAs (Decidable (policy ∈ s.refs.map Prod.fst))
  | .equal policy1 policy2 => inferInstanceAs (Decidable
    (policy1 ∈ s.refs.map Prod.fst ∧ policy2 ∈ s.refs.map Prod.fst))

def ClientEvent.exec (host : Host) (s : Clients σ) : ClientEvent → Option (Clients σ)
  | .new text => do
    let (policy, heap) ← daPolicyNewFull g host text.spec text.actions s.heap
    match policy with
    | some a => some ⟨heap, (a, text) :: s.refs⟩
    | none => some ⟨heap, s.refs⟩
  | .ref policy => do
    let (_, heap) ← daPolicyRef (some policy) s.heap
    let r ← s.refs.find? (·.1 = policy)
    some ⟨heap, r :: s.refs⟩
  | .unref policy => do
    let (_, heap) ← daPolicyUnref (some policy) s.heap
    some ⟨heap, s.refs.eraseP (·.1 = policy)⟩
  | .check policy cred action arg default => do
    let (_, heap) ← daPolicyCheck g (some policy) cred action arg default s.heap
    some ⟨heap, s.refs⟩
  | .equal policy1 policy2 => do
    let (_, heap) ← daPolicyEqual g (some policy1) (some policy2) s.heap
    some ⟨heap, s.refs⟩

/-- The count of a policy is an `int`. It has room for `2 ^ 32` references. -/
def ClientEvent.fits (s : Clients σ) : ClientEvent → Prop
  | .ref policy => (s.refs.map Prod.fst).count policy < 2 ^ 32
  | _ => True

instance ClientEvent.decidableFits (s : Clients σ) (e : ClientEvent) : Decidable (e.fits s) :=
  match e with
  | .ref policy => inferInstanceAs (Decidable ((s.refs.map Prod.fst).count policy < 2 ^ 32))
  | .new _ | .unref _ | .check _ _ _ _ _ | .equal _ _ => .isTrue trivial

def clientSystem (host : Host) : Transition.System (Clients σ) ClientEvent :=
  ⟨.init, ClientEvent.enabled, ClientEvent.exec g host⟩

/-- Counts do not come round. -/
def countedClients (host : Host) : Transition.System (Clients σ) ClientEvent :=
  (clientSystem g host).restrict ClientEvent.fits

instance (host : Host) (s : Clients σ) (e : ClientEvent) :
    Decidable ((countedClients g host).enabled s e) :=
  inferInstanceAs (Decidable (e.enabled s ∧ e.fits s))

/-- Nothing that a client may do fails, a policy is counted and decides like its text as
long as it is held, and without clients there is nothing left. -/
structure ClientsSafe (host : Host) (s : Clients σ) : Prop where
  runs : ∀ e : ClientEvent, e.enabled s → ∃ s', e.exec g host s = some s'
  counted : ∀ r ∈ s.refs, ∃ p,
    s.heap.blocks.lookup r.1 = some (.policy ⟨.ofNat ((s.refs.map Prod.fst).count r.1), p⟩)
  decides : ∀ r ∈ s.refs, ∃ policy,
    DbusAccess.daPolicyNewFull g host r.2.spec r.2.actions = some policy ∧
    ∀ cred action arg default, ∃ h, daPolicyCheck g (some r.1) cred action arg default s.heap =
      some (DbusAccess.daPolicyCheck g (some policy) cred action arg default, h)
  compares : ∀ r1 ∈ s.refs, ∀ r2 ∈ s.refs, r1.1 ≠ r2.1 → ∀ policy1 policy2,
    DbusAccess.daPolicyNewFull g host r1.2.spec r1.2.actions = some policy1 →
    DbusAccess.daPolicyNewFull g host r2.2.spec r2.2.actions = some policy2 →
    ∃ h, daPolicyEqual g (some r1.1) (some r2.1) s.heap =
      some (DbusAccess.entriesEqual g policy1.entries policy2.entries, h)
  released : s.refs = [] → s.heap.blocks = ∅

end DbusAccess.InMemory
