import Mathlib.Data.Int.Bitwise
import Mathlib.Data.List.Basic

/-! The data types of `include/`, the C integers they are built from, and the
two functions of `dbusaccess_system.c`. -/

namespace DbusAccess

/-- The bytes of a C string before its terminating zero. -/
abbrev CString := List UInt8

def ch (c : Char) : UInt8 := c.toNat.toUInt8

/-- A string literal of the source. -/
def str (s : String) : CString := s.toList.map ch

/-- What is left of a byte sequence when it is read as a C string. -/
def cStr (s : List UInt8) : CString := s.takeWhile (· ≠ 0)

/-- Assignment of an unsigned value to an `int` of 32 bits. -/
def toInt (n : ℕ) : ℤ := (n : ℤ).bmod (2 ^ 32)

/-- An `int` compared with an unsigned id of 32 bits is first converted to it. -/
def idEq (i : ℤ) (id : UInt32) : Bool := i % 2 ^ 32 == (id.toNat : ℤ)

inductive DAAccess where
  | DENY
  | ALLOW
  deriving DecidableEq, Repr

inductive DABus where
  | SYSTEM
  | SESSION
  deriving DecidableEq, Repr

/-- `struct da_cred`: the list is what `groups` points at, `ngroups` its length. -/
structure DACred where
  euid : UInt32
  egid : UInt32
  groups : List UInt32
  caps : UInt64
  flags : UInt32
  deriving DecidableEq, Repr

def DBUSACCESS_CRED_CAPS : UInt32 := 0x0001
def DBUSACCESS_CRED_GROUPS : UInt32 := 0x0002

/-- A cleared `DACred`. -/
def DACred.zero : DACred := ⟨0, 0, [], 0, 0⟩

/-- `struct da_action`: one entry of the table, which ends at the first entry
without a name. -/
structure DAAction where
  name : CString
  id : UInt32
  args : UInt32
  deriving DecidableEq, Repr

def DA_WILDCARD : ℤ := -1
def DA_INVALID : ℤ := -2

/-- What the results depend on besides their arguments: whether plain `char` is
signed, and the answers of the user and group databases. -/
structure Host where
  charSigned : Bool
  getpwnam : CString → Option UInt32
  getgrnam : CString → Option UInt32

def daSystemUid (host : Host) (user : CString) : ℤ :=
  match host.getpwnam user with
  | some pw_uid => toInt pw_uid.toNat
  | none => -1

def daSystemGid (host : Host) (group : CString) : ℤ :=
  match host.getgrnam group with
  | some gr_gid => toInt gr_gid.toNat
  | none => -1

theorem toInt_of_lt {n : ℕ} (h : n < 2 ^ 31) : toInt n = n := by
  unfold toInt
  simp only [Int.bmod_def, Nat.reducePow]
  omega

theorem toInt_upper (n : ℕ) : toInt n < 2 ^ 31 := by
  unfold toInt
  simp only [Int.bmod_def, Nat.reducePow]
  omega

theorem toInt_lower (n : ℕ) : -2 ^ 31 ≤ toInt n := by
  unfold toInt
  exact Int.le_bmod (by decide)

theorem toInt_emod (n : ℕ) : toInt n % 2 ^ 32 = n % 2 ^ 32 := by
  unfold toInt
  exact Int.bmod_emod

theorem idEq_iff {i : ℤ} {id : UInt32} (h0 : 0 ≤ i) (h1 : i < 2 ^ 31) :
    idEq i id ↔ i = id.toNat := by
  have := id.toNat_lt
  simp only [idEq, beq_iff_eq]
  omega

end DbusAccess
