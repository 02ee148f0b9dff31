/-
The messages of the RPC protocol: sixteen procedures with their requests and
responses, and the headers that go before the payloads.  Strings and buffers
are views in the code.  A request owns the bytes it was built from; a response
that was received points into a buffer of its request, so responses are
generic in what stands for a byte string.
-/
import Madbfs.Bytes
import Madbfs.Common

namespace Madbfs

namespace Rpc

open Bytes

/-- `rpc::Procedure`, in the order of its values. -/
inductive Procedure where
  | stat
  | listdir
  | readlink
  | mknod
  | mkdir
  | unlink
  | rmdir
  | rename
  | truncate
  | utimens
  | copyFileRange
  | open
  | close
  | read
  | write
  | ping
deriving Repr, DecidableEq, Inhabited

namespace Procedure

def toByte : Procedure → UInt8
  | stat => 0
  | listdir => 1
  | readlink => 2
  | mknod => 3
  | mkdir => 4
  | unlink => 5
  | rmdir => 6
  | rename => 7
  | truncate => 8
  | utimens => 9
  | copyFileRange => 10
  | «open» => 11
  | close => 12
  | read => 13
  | write => 14
  | ping => 15

def all : List Procedure :=
  [stat, listdir, readlink, mknod, mkdir, unlink, rmdir, rename, truncate,
    utimens, copyFileRange, «open», close, read, write, ping]

/-- The procedure of a byte, if it is one of the sixteen values. -/
def ofByte (byte : UInt8) : Option Procedure :=
  all.find? fun proc => proc.toByte == byte

theorem ofByte_toByte (proc : Procedure) : ofByte proc.toByte = some proc := by
  cases proc <;> rfl

end Procedure

/-- `rpc::OpenMode`.  The enumeration has a fixed underlying type and the code
casts any byte into it. -/
structure OpenMode where
  value : UInt8
deriving Repr, DecidableEq, Inhabited

/-- `rpc::Id`. -/
structure Id where
  inner : UInt32
deriving Repr, DecidableEq, Inhabited

structure Timespec where
  sec : Int64
  nsec : Int64
deriving Repr, DecidableEq, Inhabited

/-- `util::Slice`: a view, as an offset into a buffer and a size. -/
structure Slice where
  offset : Nat
  size : Nat
deriving Repr, DecidableEq, Inhabited

/-- The bytes a view shows of a buffer. -/
def Slice.view (buffer : List Byte) (s : Slice) : List Byte :=
  slice buffer s.offset s.size

/-- `rpc::Request`.  `buf` and `out` are what the references and spans to the
caller's buffers lead to. -/
inductive Request where
  | stat (path : List Byte)
  | listdir (path buf : List Byte)
  | readlink (path buf : List Byte)
  | mknod (path : List Byte) (mode : UInt32) (dev : UInt64)
  | mkdir (path : List Byte) (mode : UInt32)
  | unlink (path : List Byte)
  | rmdir (path : List Byte)
  | rename (source target : List Byte) (flags : UInt32)
  | truncate (path : List Byte) (size : Int64)
  | utimens (path : List Byte) (atime mtime : Timespec)
  | copyFileRange (inPath : List Byte) (inOffset : Int64)
      (outPath : List Byte) (outOffset : Int64) (size : UInt64)
  | open (path : List Byte) (mode : OpenMode)
  | close (fd : UInt64)
  | read (fd : UInt64) (offset : Int64) (out : List Byte)
  | write (fd : UInt64) (offset : Int64) (input : List Byte)
  | ping (num : UInt64)
deriving Repr, DecidableEq, Inhabited

namespace Request

def proc : Request → Procedure
  | .stat _ => .stat
  | .listdir _ _ => .listdir
  | .readlink _ _ => .readlink
  | .mknod _ _ _ => .mknod
  | .mkdir _ _ => .mkdir
  | .unlink _ => .unlink
  | .rmdir _ => .rmdir
  | .rename _ _ _ => .rename
  | .truncate _ _ => .truncate
  | .utimens _ _ _ => .utimens
  | .copyFileRange _ _ _ _ _ => .copyFileRange
  | .open _ _ => .open
  | .close _ => .close
  | .read _ _ _ => .read
  | .write _ _ _ => .write
  | .ping _ => .ping

/-- The fields that go over the wire.  Each side has its own output buffers,
of which only the length of the one of `read` is sent. -/
def fields : Request → Request
  | .listdir path _ => .listdir path []
  | .readlink path _ => .readlink path []
  | .read fd offset out => .read fd offset (List.replicate out.length 0)
  | req => req

end Request

structure RequestHeader where
  id : Id
  proc : Procedure
  size : UInt64
deriving Repr, DecidableEq, Inhabited

/-- `resp::Stat`. -/
structure Stat where
  size : Int64
  links : UInt64
  mtime : Timespec
  atime : Timespec
  ctime : Timespec
  mode : UInt32
  uid : UInt32
  gid : UInt32
deriving Repr, DecidableEq, Inhabited

/-- `rpc::Response`, over what stands for a byte string: the bytes themselves,
or a view into a buffer of the request. -/
inductive Response (σ : Type) where
  | stat (stat : Stat)
  | listdir (entries : List (σ × Stat))
  | readlink (target : σ)
  | mknod
  | mkdir
  | unlink
  | rmdir
  | rename
  | truncate
  | utimens
  | copyFileRange (size : UInt64)
  | open (fd : UInt64)
  | close
  | read (read : σ)
  | write (size : UInt64)
  | ping (num : UInt64)
deriving Repr, DecidableEq, Inhabited

namespace Response

variable {σ τ : Type}

def proc : Response σ → Procedure
  | .stat _ => .stat
  | .listdir _ => .listdir
  | .readlink _ => .readlink
  | .mknod => .mknod
  | .mkdir => .mkdir
  | .unlink => .unlink
  | .rmdir => .rmdir
  | .rename => .rename
  | .truncate => .truncate
  | .utimens => .utimens
  | .copyFileRange _ => .copyFileRange
  | .open _ => .open
  | .close => .close
  | .read _ => .read
  | .write _ => .write
  | .ping _ => .ping

/-- Replace every byte string. -/
def map (f : σ → τ) : Response σ → Response τ
  | .stat st => .stat st
  | .listdir entries => .listdir (entries.map fun e => (f e.1, e.2))
  | .readlink target => .readlink (f target)
  | .mknod => .mknod
  | .mkdir => .mkdir
  | .unlink => .unlink
  | .rmdir => .rmdir
  | .rename => .rename
  | .truncate => .truncate
  | .utimens => .utimens
  | .copyFileRange size => .copyFileRange size
  | .open fd => .open fd
  | .close => .close
  | .read bytes => .read (f bytes)
  | .write size => .write size
  | .ping num => .ping num

end Response

structure ResponseHeader where
  id : Id
  proc : Procedure
  status : Errc
  size : UInt64
deriving Repr, DecidableEq, Inhabited

/-- `rpc::FallibleResponse`. -/
inductive FallibleResponse where
  | success (resp : Response (List Byte))
  | failed (proc : Procedure) (status : Errc)
deriving Repr, DecidableEq, Inhabited

def FallibleResponse.proc : FallibleResponse → Procedure
  | .success resp => resp.proc
  | .failed proc _ => proc

end Rpc

end Madbfs
