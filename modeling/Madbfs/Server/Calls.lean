/-
The server between the socket and the kernel of the device.  Its handlers make
system calls, whose answers come from a kernel that is a parameter, and keep
two switches for calls that old kernels do not have.
-/
import Madbfs.Program
import Madbfs.Rpc.CopyFallback

namespace Madbfs

namespace Rpc

namespace Server

open Rpc Program

/-- The system calls of the handlers, by what a successful one returns.  Paths
are C strings.  `readdir` stands for the calls that go through a directory, and
returns all of its names; `copyFileRange` gets pointers to its offsets, and so
does not move the descriptors. -/
inductive Call : Type → Type
  | opendir (path : List Byte) : Call Int32
  | readdir (dir : Int32) : Call (List (List Byte))
  | closedir (dir : Int32) : Call Unit
  | fstatat (dir : Int32) (name : List Byte) : Call Stat
  | lstat (path : List Byte) : Call Stat
  | readlink (path : List Byte) (size : Nat) :
      Call { target : List Byte // target.length ≤ size }
  | mknod (path : List Byte) (mode : UInt32) (dev : UInt64) : Call Unit
  | mkdir (path : List Byte) (mode : UInt32) : Call Unit
  | unlink (path : List Byte) : Call Unit
  | rmdir (path : List Byte) : Call Unit
  | renameat2 (source target : List Byte) (flags : UInt32) : Call Unit
  | renameat (source target : List Byte) : Call Unit
  | truncate (path : List Byte) (size : Int64) : Call Unit
  | utimensat (path : List Byte) (atime mtime : Timespec) : Call Unit
  | copyFileRange (inFd : Int32) (inOff : Int64) (outFd : Int32)
      (outOff : Int64) (size : UInt64) : Call UInt64
  | open (path : List Byte) (flags : Int32) : Call Int32
  | close (fd : Int32) : Call Unit
  | lseek (fd : Int32) (offset : Int64) : Call Unit
  | read (fd : Int32) (size : Nat) :
      Call { bytes : List Byte // bytes.length ≤ size }
  | write (fd : Int32) (bytes : List Byte) : Call (Transferred bytes.length)

/-- The calls that return a new descriptor. -/
inductive Acquires : Call Int32 → Prop
  | opendir (path : List Byte) : Acquires (.opendir path)
  | open (path : List Byte) (flags : Int32) : Acquires (.open path flags)

/-- The calls that give a descriptor back. -/
inductive Releases : Call Unit → Int32 → Prop
  | closedir (dir : Int32) : Releases (.closedir dir) dir
  | close (fd : Int32) : Releases (.close fd) fd

/-- The calls that neither return a descriptor nor give one back. -/
def Call.Still {α : Type} : Call α → Prop
  | .opendir _ => False
  | .closedir _ => False
  | .open _ _ => False
  | .close _ => False
  | _ => True

/-- What a kernel answers to the calls: a value, or what `errno` is then. -/
structure Kernel (κ : Type) where
  answer : {α : Type} → Call α → κ → Except Errc α × κ

/-- `RequestHandler`, with the kernel it runs on. -/
structure RequestHandler (κ : Type) where
  kernel : κ
  renameat2Impl : Bool
  copyFileRangeImpl : Bool
deriving Repr, DecidableEq

def RequestHandler.create {κ : Type} (kernel : κ) : RequestHandler κ where
  kernel := kernel
  renameat2Impl := true
  copyFileRangeImpl := true

/-- The text of a handler. -/
abbrev Handle (κ α : Type) : Type :=
  Program Errc (RequestHandler κ) α

variable {κ α : Type}

def call (kernel : Kernel κ) (c : Call α) : Handle κ α := fun s =>
  let (r, k) := kernel.answer c s.kernel
  some (r, { s with kernel := k })

/-- The string that a C function sees. -/
def cString (path : List Byte) : List Byte :=
  path.takeWhile (· ≠ 0)

/-- `static_cast<u64>(fd)`. -/
def ofFd (fd : Int32) : UInt64 :=
  fd.toInt64.toUInt64

/-- `static_cast<int>(fd)`. -/
def toFd (fd : UInt64) : Int32 :=
  fd.toUInt32.toInt32

@[simp] theorem toFd_ofFd (fd : Int32) : toFd (ofFd fd) = fd := by
  apply Int32.toBitVec_inj.mp
  change (fd.toInt64.toUInt64).toUInt32.toBitVec = fd.toBitVec
  rw [UInt64.toBitVec_toUInt32]
  change (fd.toBitVec.signExtend 64).setWidth 32 = fd.toBitVec
  apply BitVec.eq_of_getLsbD_eq
  intro i hi
  rw [BitVec.getLsbD_setWidth, BitVec.getLsbD_signExtend]
  simp [hi, Nat.lt_trans hi]

end Server

end Rpc

end Madbfs
