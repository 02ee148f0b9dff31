/-
Vocabulary shared by the filesystem, the cache and the transports: bytes,
error codes, node identifiers, open modes, paths given by their components,
and the wrap-around of the fixed-width integers the code computes with.
-/
import Mathlib.Data.UInt
import Mathlib.Tactic.Basic

namespace Madbfs

abbrev Byte := UInt8

/-- `std::errc`.  The enumeration is open: the code casts errno values and
wire statuses into it, so any code can occur.  The zero code, `Errc{}`, is
the value futures use for success. -/
structure Errc where
  code : Int
deriving Repr, DecidableEq, Inhabited

namespace Errc

def noSuchFileOrDirectory : Errc := ⟨2⟩
def ioError : Errc := ⟨5⟩
def badFileDescriptor : Errc := ⟨9⟩
def resourceUnavailableTryAgain : Errc := ⟨11⟩
def fileExists : Errc := ⟨17⟩
def notADirectory : Errc := ⟨20⟩
def isADirectory : Errc := ⟨21⟩
def invalidArgument : Errc := ⟨22⟩
def brokenPipe : Errc := ⟨32⟩
def directoryNotEmpty : Errc := ⟨39⟩
def tooManySymbolicLinkLevels : Errc := ⟨40⟩
def badMessage : Errc := ⟨74⟩
def messageSize : Errc := ⟨90⟩
def operationNotSupported : Errc := ⟨95⟩
def notConnected : Errc := ⟨107⟩
def timedOut : Errc := ⟨110⟩
def operationCanceled : Errc := ⟨125⟩

end Errc

/-- `Id`, the identity of a node.  The counter behind it is never reset. -/
structure Id where
  inner : Nat
deriving Repr, DecidableEq, Inhabited

/-- `OpenMode`.  The cast from `O_ACCMODE & flags` can also produce the fourth
value, which is neither a reader nor a writer. -/
inductive OpenMode where
  | read
  | write
  | readWrite
  | accMode
deriving Repr, DecidableEq, Inhabited

def OpenMode.reads (mode : OpenMode) : Bool :=
  mode == .read || mode == .readWrite

def OpenMode.writes (mode : OpenMode) : Bool :=
  mode == .write || mode == .readWrite

abbrev Name := String

/-- A path in its canonical spelling, given by its components; the root has
none. -/
abbrev Path := List Name

/-- The value of a number cast to `u32`. -/
def u32 (n : Nat) : Nat :=
  n % 2 ^ 32

/-- The value of a number cast to `u64`, which is also `usize`. -/
def u64 (n : Nat) : Nat :=
  n % 2 ^ 64

/-- Subtraction of two `usize` values. -/
def usub (left right : Nat) : Nat :=
  u64 (left + 2 ^ 64 - right)

theorem u32_of_lt {n : Nat} (hn : n < 2 ^ 32) : u32 n = n :=
  Nat.mod_eq_of_lt hn

theorem usub_of_le {left right : Nat} (hle : right ≤ left)
    (hleft : left < 2 ^ 64) : usub left right = left - right := by
  simp only [usub, u64]
  omega

theorem usub_of_lt {left right : Nat} (hlt : left < right)
    (hright : right < 2 ^ 64) :
    usub left right = left + 2 ^ 64 - right := by
  simp only [usub, u64]
  omega

end Madbfs
