/-
Payload builders and readers.  A builder appends fields to a buffer and fills
the length of the payload into the header at the end.  A reader moves a cursor
over a payload; its bounds checks are done in `usize`, which wraps around.  The
reader of the model also logs what it read, so that the bounds of every read
can be stated.
-/
import Madbfs.NetBytes
import Madbfs.Rpc.Message

namespace Madbfs

namespace Rpc

open Bytes NetBytes

/-- `PayloadBuilder`. -/
structure PayloadBuilder where
  buffer : List Byte
deriving Repr, DecidableEq

namespace PayloadBuilder

variable {I : Type} [Integral I]

def writeInt (self : PayloadBuilder) (value : I) : PayloadBuilder :=
  ⟨self.buffer ++ toNetBytes value⟩

def writeProcedure (self : PayloadBuilder) (proc : Procedure) :
    PayloadBuilder :=
  self.writeInt proc.toByte

def writeStatus (self : PayloadBuilder) (status : Errc) : PayloadBuilder :=
  self.writeInt (Int32.ofInt status.code)

def writeId (self : PayloadBuilder) (id : Id) : PayloadBuilder :=
  self.writeInt id.inner

def writeOpenMode (self : PayloadBuilder) (mode : OpenMode) :
    PayloadBuilder :=
  self.writeInt mode.value

def writeBytes (self : PayloadBuilder) (bytes : List Byte) : PayloadBuilder :=
  ⟨(self.writeInt (UInt64.ofNat bytes.length)).buffer ++ bytes⟩

/-- A path is followed by a null byte, which its length counts. -/
def writePath (self : PayloadBuilder) (path : List Byte) : PayloadBuilder :=
  ⟨(self.writeInt (UInt64.ofNat (path.length + 1))).buffer ++ path ++ [0]⟩

/-- `build`: the length of what follows the header goes into its last eight
bytes. -/
def build (headerSize : Nat) (self : PayloadBuilder) : List Byte :=
  overlay self.buffer (headerSize - 8)
    (toNetBytes (UInt64.ofNat (self.buffer.length - headerSize)))

end PayloadBuilder

/-- `RequestBuilder`. -/
def RequestBuilder.headerSize : Nat :=
  4 + 1 + 8

def RequestBuilder.create (id : Id) (proc : Procedure) : PayloadBuilder :=
  (((⟨[]⟩ : PayloadBuilder).writeId id).writeProcedure proc).writeInt
    (0 : UInt64)

/-- `ResponseBuilder`. -/
def ResponseBuilder.headerSize : Nat :=
  4 + 1 + 4 + 8

def ResponseBuilder.create (id : Id) (proc : Procedure) (status : Errc) :
    PayloadBuilder :=
  ((((⟨[]⟩ : PayloadBuilder).writeId id).writeProcedure proc).writeStatus
    status).writeInt (0 : UInt64)

/-- What a read is for. -/
inductive Kind where
  | int
  | bytes
  | path
deriving Repr, DecidableEq

/-- One read: the cursor before it, the number of bytes it is declared to
take, the slice that was formed, if any, and the cursor after it. -/
structure Extent where
  kind : Kind
  start : Nat
  declared : Nat
  taken : Option Slice
  next : Nat
deriving Repr, DecidableEq

/-- `PayloadReader`, with the log of its reads. -/
structure PayloadReader where
  index : Nat
  buffer : List Byte
  reads : List Extent
deriving Repr, DecidableEq

def PayloadReader.create (buffer : List Byte) : PayloadReader :=
  ⟨0, buffer, []⟩

/-- Why a parse ends without a value: it returns `std::nullopt`, it has formed
a span that its buffer does not have, after which nothing is defined, or a
container was asked for more elements than it can have. -/
inductive Stop where
  | nullopt
  | undefined
  | lengthError
deriving Repr, DecidableEq

/-- Text that reads from a `PayloadReader`.  The reader stays as it is where
the text stops. -/
abbrev Parse (α : Type) : Type :=
  ExceptT Stop (StateM PayloadReader) α

def Parse.on {α : Type} (m : Parse α) (r : PayloadReader) :
    Except Stop α × PayloadReader :=
  StateT.run (ExceptT.run m) r

/-- `std::span::subspan`.  The largest count is `std::dynamic_extent` and asks
for the rest. -/
def subspan (length offset count : Nat) : Slice :=
  if count = 2 ^ 64 - 1 then ⟨offset, usub length offset⟩ else ⟨offset, count⟩

namespace PayloadReader

/-- The reader after a refused read. -/
def refused (r : PayloadReader) (kind : Kind) (size : Nat) : PayloadReader :=
  { r with reads := r.reads ++ [⟨kind, r.index, size, none, r.index⟩] }

/-- The reader after `m_index += size`. -/
def advanced (r : PayloadReader) (kind : Kind) (size : Nat) (span : Slice) :
    PayloadReader :=
  { r with
    index := u64 (r.index + size)
    reads := r.reads ++
      [⟨kind, r.index, size, some span, u64 (r.index + size)⟩] }

/-- The text that `read_int`, `read_bytes` and `read_path` share: the bounds
check for `size` bytes, the span of `count` bytes, and the move of the
cursor. -/
def take (kind : Kind) (size count : Nat) : Parse (List Byte) :=
  ExceptT.mk fun r =>
    let span := subspan r.buffer.length r.index count
    if usub (r.index + size) 1 ≥ r.buffer.length then
      (.error .nullopt, r.refused kind size)
    else if span.offset + span.size ≤ r.buffer.length then
      (.ok (span.view r.buffer), r.advanced kind size span)
    else (.error .undefined, r.advanced kind size span)

def readInt (I : Type) [Integral I] : Parse I := do
  let bytes ← take .int (Integral.size I) (Integral.size I)
  return fromNetBytes I bytes

def readProcedure : Parse Procedure := do
  let v ← readInt UInt8
  match Procedure.ofByte v with
  | some proc => return proc
  | none => throw .nullopt

/-- The lambda in `read_status` takes a `u8`, to which the status is
narrowed. -/
def readStatus : Parse Errc := do
  let v ← readInt Int32
  return ⟨v.toUInt32.toUInt8.toNat⟩

def readId : Parse Id := do
  let v ← readInt UInt32
  return ⟨v⟩

def readOpenMode : Parse OpenMode := do
  let v ← readInt UInt8
  return ⟨v⟩

def readBytes : Parse (List Byte) := do
  let size ← readInt UInt64
  take .bytes size.toNat size.toNat

def readPath : Parse (List Byte) := do
  let size ← readInt UInt64
  take .path size.toNat (usub size.toNat 1)

end PayloadReader

end Rpc

end Madbfs
