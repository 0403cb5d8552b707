import DbusAccess.Spec.Parser

/-! Policies, `dbusaccess_policy.c`, and what a parsed policy is meant to decide.
Freshly allocated nodes are never shared, so expressions are trees; policies are
compared through pointers. -/

namespace DbusAccess

/-- The pattern matcher of GLib. The length passed to it is a `guint`. -/
structure GPattern (σ : Type) where
  gPatternSpecNew : CString → σ
  gPatternMatch : σ → UInt32 → CString → Bool
  gPatternSpecEqual : σ → σ → Bool

variable {σ : Type} (g : GPattern σ)

/-- `g_pattern_match_string`: the strings that a pattern matches. Its length is a `guint` too,
so a string of `2 ^ 32` bytes or more is matched as if it had as many as the rest modulo
`2 ^ 32`. -/
def GPattern.gPatternMatchString (pspec : σ) (s : CString) : Bool :=
  g.gPatternMatch pspec (UInt32.ofNat s.length) s

/-- `DAPolicyExpr *`. -/
inductive DAPolicyExpr (σ : Type) where
  | null
  | and (left right : DAPolicyExpr σ)
  | or (left right : DAPolicyExpr σ)
  | not (operand : DAPolicyExpr σ)
  | identity (uid gid : ℤ)
  | custom (action : UInt32) (pattern : Option σ)
  deriving DecidableEq

structure DAPolicyEntry (σ : Type) where
  access : DAAccess
  expr : DAPolicyExpr σ
  deriving DecidableEq

/-- The list is what `entries` and the `next` pointers make up. -/
structure DAPolicy (σ : Type) where
  entries : List (DAPolicyEntry σ)
  deriving DecidableEq

structure DAPolicyCheck where
  cred : Option DACred
  action : UInt32
  arg : Option CString

def daPolicyExprIdentityMatchUser (uid : ℤ) (cred : Option DACred) : Bool :=
  if uid = DA_WILDCARD then true
  else if uid = DA_INVALID then false
  else match cred with
    | none => false
    | some cred => idEq uid cred.euid

def daPolicyExprIdentityMatchGroup (gid : ℤ) (cred : Option DACred) : Bool :=
  if gid = DA_WILDCARD then true
  else if gid = DA_INVALID then false
  else match cred with
    | none => false
    | some cred => if idEq gid cred.egid then true else cred.groups.any (idEq gid)

def daPolicyExprIdentityMatch (uid gid : ℤ) (pc : DAPolicyCheck) : Bool :=
  daPolicyExprIdentityMatchUser uid pc.cred && daPolicyExprIdentityMatchGroup gid pc.cred

def daPolicyExprCustomMatch (action : UInt32) (pattern : Option σ) (pc : DAPolicyCheck) : Bool :=
  if pc.action = action then
    match pc.arg with
    | some arg =>
      match pattern with
      | some pattern => g.gPatternMatch pattern (UInt32.ofNat arg.length) arg
      -- a wildcard, or no arguments are expected
      | none => true
    | none => pattern.isNone
  else false

def daPolicyExprMatch (pc : DAPolicyCheck) : DAPolicyExpr σ → Bool
  | .null => true
  | .and left right => daPolicyExprMatch pc left && daPolicyExprMatch pc right
  | .or left right => daPolicyExprMatch pc left || daPolicyExprMatch pc right
  | .not operand => !daPolicyExprMatch pc operand
  | .identity uid gid => daPolicyExprIdentityMatch uid gid pc
  | .custom action pattern => daPolicyExprCustomMatch g action pattern pc

def daPolicyExprCustomEqual (action1 : UInt32) (pattern1 : Option σ) (action2 : UInt32)
    (pattern2 : Option σ) : Bool :=
  action1 == action2 &&
    match pattern1, pattern2 with
    | none, none => true
    | some pattern1, some pattern2 => g.gPatternSpecEqual pattern1 pattern2
    | _, _ => false

/-- Expressions of different types are different; binary operations are
commutative. -/
def daPolicyExprEqual : DAPolicyExpr σ → DAPolicyExpr σ → Bool
  | .null, .null => true
  | .and left1 right1, .and left2 right2 =>
    daPolicyExprEqual left1 left2 && daPolicyExprEqual right1 right2 ||
      daPolicyExprEqual left1 right2 && daPolicyExprEqual right1 left2
  | .or left1 right1, .or left2 right2 =>
    daPolicyExprEqual left1 left2 && daPolicyExprEqual right1 right2 ||
      daPolicyExprEqual left1 right2 && daPolicyExprEqual right1 left2
  | .not operand1, .not operand2 => daPolicyExprEqual operand1 operand2
  | .identity uid1 gid1, .identity uid2 gid2 => uid1 == uid2 && gid1 == gid2
  | .custom action1 pattern1, .custom action2 pattern2 =>
    daPolicyExprCustomEqual g action1 pattern1 action2 pattern2
  | _, _ => false

def daPolicyExprCustomNew (action : UInt32) (pattern : Option CString) : DAPolicyExpr σ :=
  .custom action <|
    match pattern with
    | some pattern => if pattern ≠ str "*" then some (g.gPatternSpecNew pattern) else none
    | none => none

def daPolicyExprNew : DAParserExpr → DAPolicyExpr σ
  | .identity uid gid => .identity uid gid
  | .custom action param => daPolicyExprCustomNew g action param
  | .not operand => .not (daPolicyExprNew operand)
  | .and left right => .and (daPolicyExprNew left) (daPolicyExprNew right)
  | .or left right => .or (daPolicyExprNew left) (daPolicyExprNew right)
  | .null => .null

/-- `last->next = entry`, for the last entry there is. -/
def linkLast (entry : DAPolicyEntry σ) : List (DAPolicyEntry σ) → List (DAPolicyEntry σ)
  | [] => [entry]
  | last :: next => last :: linkLast entry next

def daPolicyAddEntry (policy : DAPolicy σ) (parserEntry : DAParserEntry) : DAPolicy σ :=
  ⟨linkLast ⟨parserEntry.access, daPolicyExprNew g parserEntry.expr⟩ policy.entries⟩

def daPolicyNewFull (host : Host) (spec : Option CString) (actions : Option (List DAAction)) :
    Option (DAPolicy σ) :=
  match daParserCompile host spec actions with
  | some parser => some ((daParserGetResult parser).foldl (daPolicyAddEntry g) ⟨[]⟩)
  | none => none

/-- The walk over both lists of entries. -/
def entriesEqual : List (DAPolicyEntry σ) → List (DAPolicyEntry σ) → Bool
  | e1 :: next1, e2 :: next2 =>
    if !daPolicyExprEqual g e1.expr e2.expr || e1.access != e2.access then false
    else entriesEqual next1 next2
  | [], [] => true
  | _, _ => false

/-- Where a policy is in memory. -/
abbrev Addr := ℕ

def daPolicyEqual (mem : Addr → DAPolicy σ) (p1 p2 : Option Addr) : Bool :=
  if p1 = p2 then true
  else match p1, p2 with
    | some p1, some p2 => entriesEqual g (mem p1).entries (mem p2).entries
    | _, _ => false

def daPolicyCheck (policy : Option (DAPolicy σ)) (cred : Option DACred) (action : UInt32)
    (arg : Option CString) (default : DAAccess) : DAAccess :=
  if cred.any (·.euid == 0) then .ALLOW
  else match policy with
    | some policy => policy.entries.foldl (fun result entry =>
        if daPolicyExprMatch g ⟨cred, action, arg⟩ entry.expr then entry.access else result)
        default
    | none => default

/-! The meaning of parsed expressions. -/

/-- A valid id. -/
def Means (id : ℤ) (id' : UInt32) : Prop := 0 ≤ id ∧ id = id'.toNat

/-- The plain Boolean reading of a tree. -/
def DAParserExpr.Holds (pc : DAPolicyCheck) : DAParserExpr → Prop
  | .null => True
  | .identity uid gid =>
    (uid = DA_WILDCARD ∨ ∃ cred, pc.cred = some cred ∧ Means uid cred.euid) ∧
      (gid = DA_WILDCARD ∨ ∃ cred, pc.cred = some cred ∧
        ∃ id ∈ cred.egid :: cred.groups, Means gid id)
  | .custom action param =>
    pc.action = action ∧ (param = none ∨ param = some (str "*") ∨
      ∃ p arg, param = some p ∧ pc.arg = some arg ∧
        g.gPatternMatchString (g.gPatternSpecNew p) arg)
  | .not operand => ¬ operand.Holds pc
  | .and left right => left.Holds pc ∧ right.Holds pc
  | .or left right => left.Holds pc ∨ right.Holds pc

open Classical in
/-- The last entry that applies decides, except for root. -/
noncomputable def decision (entries : List DAParserEntry) (cred : Option DACred)
    (action : UInt32) (arg : Option CString) (default : DAAccess) : DAAccess :=
  if ∃ c, cred = some c ∧ c.euid = 0 then .ALLOW
  else
    let applicable := entries.filter fun e => e.expr.Holds g ⟨cred, action, arg⟩
    (applicable.getLast?.map (·.access)).getD default

open Classical in
/-- What the last entry that applies says. -/
noncomputable def lastAccess (entries : List DAParserEntry) (pc : DAPolicyCheck) :
    Option DAAccess :=
  (entries.filter fun e => e.expr.Holds g pc).getLast?.map (·.access)

/-! The ids that a policy mentions. -/

/-- Neither the wildcard nor the invalid id. -/
def ConcreteId (id : ℤ) : Prop := id ≠ DA_WILDCARD ∧ id ≠ DA_INVALID

/-- Pairs of user and group. -/
def DAPolicyExpr.identities : DAPolicyExpr σ → List (ℤ × ℤ)
  | .and left right | .or left right => left.identities ++ right.identities
  | .not operand => operand.identities
  | .identity uid gid => [(uid, gid)]
  | .null | .custom _ _ => []

def DAPolicy.identities (policy : DAPolicy σ) : List (ℤ × ℤ) :=
  policy.entries.flatMap fun entry => entry.expr.identities

/-- Without credentials there is no user, and there are no groups. -/
def HasUser (cred : Option DACred) (uid : ℤ) : Prop :=
  ∃ c, cred = some c ∧ idEq uid c.euid = true

def HasGroup (cred : Option DACred) (gid : ℤ) : Prop :=
  ∃ c, cred = some c ∧ ∃ id ∈ c.egid :: c.groups, idEq gid id = true

def NonRoot (cred : Option DACred) : Prop := ∀ c, cred = some c → c.euid ≠ 0

/-- Two callers are alike in the ids that are mentioned. -/
structure AlikeIn (ids : List (ℤ × ℤ)) (cred1 cred2 : Option DACred) : Prop where
  user : ∀ i ∈ ids, ConcreteId i.1 → (HasUser cred1 i.1 ↔ HasUser cred2 i.1)
  group : ∀ i ∈ ids, ConcreteId i.2 → (HasGroup cred1 i.2 ↔ HasGroup cred2 i.2)

/-! Absent operands. -/

/-- No operand is NULL, at any depth. -/
def DAPolicyExpr.NoNullOperand : DAPolicyExpr σ → Prop
  | .and left right | .or left right =>
    left ≠ .null ∧ right ≠ .null ∧ left.NoNullOperand ∧ right.NoNullOperand
  | .not operand => operand ≠ .null ∧ operand.NoNullOperand
  | .null | .identity _ _ | .custom _ _ => True

/-! Texts of policies. -/

/-- One text behind the other is a policy, and it decides like the second one with the
decision of the first for a default. -/
def Composes (host : Host) (actions : Option (List DAAction)) (spec1 spec2 : CString) : Prop :=
  ∃ policy, daPolicyNewFull g host (some (spec1 ++ ch ';' :: spec2)) actions = some policy ∧
    ∀ cred action arg default,
      daPolicyCheck g (some policy) cred action arg default =
        daPolicyCheck g (daPolicyNewFull g host (some spec2) actions) cred action arg
          (daPolicyCheck g (daPolicyNewFull g host (some spec1) actions) cred action arg default)

/-- Each of two texts has a policy where it is accepted, and their policies are equal,
wherever they are in memory, and decide alike. -/
structure TextsAgree (host : Host) (actions : Option (List DAAction)) (spec1 spec2 : CString) :
    Prop where
  yields : ∀ spec ∈ [spec1, spec2], (daParserCompile host (some spec) actions).isSome →
    (daPolicyNewFull g host (some spec) actions).isSome
  agree : ∀ mem a1 a2, daPolicyNewFull g host (some spec1) actions = some (mem a1) →
    daPolicyNewFull g host (some spec2) actions = some (mem a2) →
    daPolicyEqual g mem (some a1) (some a2) = true ∧
      ∀ cred action arg default, daPolicyCheck g (some (mem a1)) cred action arg default =
        daPolicyCheck g (some (mem a2)) cred action arg default

/-- Where one of these entries applies, others say the same already. -/
def Repeats (entries others : List DAParserEntry) : Prop :=
  ∀ pc : DAPolicyCheck, NonRoot pc.cred → ∀ access, lastAccess g entries pc = some access →
    lastAccess g others pc = some access

/-! Expressions up to the order of operands. -/

/-- The operands of these operators change places. A node is named by the way down to
it, `true` for a right operand. -/
def DAPolicyExpr.exchange (nodes : List Bool → Bool) : DAPolicyExpr σ → DAPolicyExpr σ
  | .and left right =>
    let left := left.exchange fun way => nodes (false :: way)
    let right := right.exchange fun way => nodes (true :: way)
    if nodes [] then .and right left else .and left right
  | .or left right =>
    let left := left.exchange fun way => nodes (false :: way)
    let right := right.exchange fun way => nodes (true :: way)
    if nodes [] then .or right left else .or left right
  | .not operand => .not (operand.exchange fun way => nodes (false :: way))
  | x => x

/-- The same tree, with equal patterns. -/
inductive SameTree : DAPolicyExpr σ → DAPolicyExpr σ → Prop
  | null : SameTree .null .null
  | and {l r l' r' : DAPolicyExpr σ} : SameTree l l' → SameTree r r' →
      SameTree (.and l r) (.and l' r')
  | or {l r l' r' : DAPolicyExpr σ} : SameTree l l' → SameTree r r' →
      SameTree (.or l r) (.or l' r')
  | not {x x' : DAPolicyExpr σ} : SameTree x x' → SameTree (.not x) (.not x')
  | identity (uid gid : ℤ) : SameTree (.identity uid gid) (.identity uid gid)
  | noPattern (action : UInt32) : SameTree (.custom action none) (.custom action none)
  | pattern (action : UInt32) {p p' : σ} : g.gPatternSpecEqual p p' = true →
      SameTree (.custom action (some p)) (.custom action (some p'))

/-- Both NULL, or entry for entry the same access for the same expression, up to the
order of operands. -/
def SamePolicy (p1 p2 : Option (DAPolicy σ)) : Prop :=
  (p1 = none ∧ p2 = none) ∨ ∃ policy1 policy2, p1 = some policy1 ∧ p2 = some policy2 ∧
    List.Forall₂ (fun e1 e2 => e1.access = e2.access ∧
      ∃ nodes, SameTree g (e1.expr.exchange nodes) e2.expr) policy1.entries policy2.entries

end DbusAccess
