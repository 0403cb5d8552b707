import DbusAccess.Lib.LinkedLists
import DbusAccess.Spec.Policy

/-! The memory in which policies are compiled and live: the structures that
`dbusaccess_parser.c`, the scanner and `dbusaccess_policy.c` allocate, with pointers
between them, and the parts of GLib that work on them. A NULL pointer is `none`. -/

namespace DbusAccess.InMemory

open Separation

/-- `struct da_parser`. -/
structure DAParser where
  actions : Option (List DAAction)
  buf : Addr
  allocList : Option Addr
  linkList : Option Addr
  entries : Option Addr

inductive DA_PARSER_EXPR where
  | IDENTITY
  | CUSTOM
  | NOT
  | AND
  | OR
  deriving DecidableEq

/-- The union `data`, with the member in use. -/
inductive DAParserExprData where
  | identity (uid gid : ℤ)
  | custom (action : UInt32) (param : Option Addr)
  | expr (left right : Option Addr)

structure DAParserExpr where
  type : DA_PARSER_EXPR
  data : DAParserExprData

structure DAParserEntry where
  expr : Option Addr
  access : DAAccess

/-- Which of the tables `expr_type_and` and `expr_type_or` a binary operation has. -/
inductive BinaryType where
  | and
  | or
  deriving DecidableEq

/-- What a `DAPolicyExpr *` points at, according to its type. -/
inductive DAPolicyExpr where
  | binary (type : BinaryType) (left right : Option Addr)
  | unary (operand : Option Addr)
  | identity (uid gid : ℤ)
  | custom (action : UInt32) (pattern : Option Addr)

/-- The tables that the member `type` can point at. -/
inductive DAPolicyExprType where
  | and
  | or
  | not
  | identity
  | custom
  deriving DecidableEq

def DAPolicyExpr.type : DAPolicyExpr → DAPolicyExprType
  | .binary .and _ _ => .and
  | .binary .or _ _ => .or
  | .unary _ => .not
  | .identity _ _ => .identity
  | .custom _ _ => .custom

structure DAPolicyEntry where
  access : DAAccess
  expr : Option Addr

structure DAPolicy where
  refCount : Int32
  entries : Option Addr

/-- Start condition, and the buffer that is scanned. -/
structure DAScanner where
  start : StartCondition
  buffer : Option Addr

/-- The contents of an allocated block. -/
inductive Block (σ : Type) where
  | gSList (data next : Option Addr)
  | gString (str : CString)
  | string (str : CString)
  | gPatternSpec (pspec : σ)
  | scanner (s : DAScanner)
  /-- What is left to scan. -/
  | scannerBuffer (rest : CString)
  | parser (p : DAParser)
  | parserExpr (x : DAParserExpr)
  | parserEntry (e : DAParserEntry)
  | policyExpr (x : DAPolicyExpr)
  | policyEntry (e : DAPolicyEntry) (next : Option Addr)
  | policy (p : DAPolicy)

/-- The sizes of slices. -/
inductive Slice where
  | DAParser
  | DAPolicyExprUnary
  | DAPolicyExprBinary
  | DAPolicyExprIdentity
  | DAPolicyExprCustom
  | DAPolicyEntry
  | DAPolicy
  deriving DecidableEq

/-- How a block was allocated, and so how it has to be released. -/
inductive Allocation where
  | gMalloc
  | gSlice (s : Slice)
  | gSList
  | gString
  | gPatternSpec
  | yyscan
  | yyBuffer
  deriving DecidableEq

def DAPolicyExpr.slice : DAPolicyExpr → Slice
  | .binary _ _ _ => .DAPolicyExprBinary
  | .unary _ => .DAPolicyExprUnary
  | .identity _ _ => .DAPolicyExprIdentity
  | .custom _ _ => .DAPolicyExprCustom

variable {σ : Type}

def Block.allocation : Block σ → Allocation
  | .gSList _ _ => .gSList
  | .gString _ => .gString
  | .string _ | .parserExpr _ | .parserEntry _ => .gMalloc
  | .gPatternSpec _ => .gPatternSpec
  | .scanner _ => .yyscan
  | .scannerBuffer _ => .yyBuffer
  | .parser _ => .gSlice .DAParser
  | .policyExpr x => .gSlice x.slice
  | .policyEntry _ _ => .gSlice .DAPolicyEntry
  | .policy _ => .gSlice .DAPolicy

/-- Fails on a block that was allocated in another way. -/
def release (a : Allocation) (p : Addr) : Prog (Block σ) Unit :=
  freeIf (fun b => b.allocation = a) p

def gFree (p : Option Addr) : Prog (Block σ) Unit :=
  match p with
  | some p => release .gMalloc p
  | none => pure ()

/-! Singly linked lists. -/

def gSListLinked : Linked (Block σ) (Option Addr) where
  node data next := .gSList data next
  view
    | .gSList data next => some (data, next)
    | _ => none
  view_node _ _ := rfl

def gSListPrepend (list data : Option Addr) : Prog (Block σ) (Option Addr) := do
  some <$> alloc (.gSList data list)

def gSListConcat (list1 list2 : Option Addr) : Prog (Block σ) (Option Addr) :=
  match list2 with
  | none => pure list1
  | some _ =>
    match list1 with
    | none => pure list2
    | some first => do
      setLast gSListLinked first list2
      pure list1

def gSListAppend (list data : Option Addr) : Prog (Block σ) (Option Addr) := do
  let link ← alloc (.gSList data none)
  match list with
  | some first => do
    setLast gSListLinked first (some link)
    pure list
  | none => pure (some link)

def gSListForeach (list : Option Addr) (func : Option Addr → Prog (Block σ) Unit) :
    Prog (Block σ) Unit := do
  let n ← bound
  walk gSListLinked (fun _ data => func data) n () list

def gSListFree (list : Option Addr) : Prog (Block σ) Unit := do
  let n ← bound
  freeLinks gSListLinked (fun b => b.allocation = .gSList) n list

def gSListFree1 (list : Option Addr) : Prog (Block σ) Unit :=
  match list with
  | some link => release .gSList link
  | none => pure ()

def gSListFreeFull (list : Option Addr) (func : Option Addr → Prog (Block σ) Unit) :
    Prog (Block σ) Unit := do
  gSListForeach list func
  gSListFree list

end DbusAccess.InMemory
