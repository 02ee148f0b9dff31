/-
The codec of the RPC protocol.  `build_request` and `build_response` write a
header and a payload; `parse_request` and `parse_response` read a payload back.
Every procedure has its own text for each of the four.
-/
import Madbfs.Rpc.Payload

namespace Madbfs

namespace Rpc

open Bytes NetBytes PayloadReader

/-- `build_request`. -/
def buildRequest (req : Request) (id : Id) : List Byte :=
  let builder := RequestBuilder.create id req.proc
  let build := PayloadBuilder.build RequestBuilder.headerSize
  match req with
  | .stat path => build (builder.writePath path)
  | .listdir path _ => build (builder.writePath path)
  | .readlink path _ => build (builder.writePath path)
  | .mknod path mode dev =>
      build (((builder.writePath path).writeInt mode).writeInt dev)
  | .mkdir path mode => build ((builder.writePath path).writeInt mode)
  | .unlink path => build (builder.writePath path)
  | .rmdir path => build (builder.writePath path)
  | .rename source target flags =>
      build (((builder.writePath source).writePath target).writeInt flags)
  | .truncate path size => build ((builder.writePath path).writeInt size)
  | .utimens path atime mtime =>
      build (((((builder.writePath path).writeInt atime.sec).writeInt
        atime.nsec).writeInt mtime.sec).writeInt mtime.nsec)
  | .copyFileRange inPath inOffset outPath outOffset size =>
      build (((((builder.writePath inPath).writeInt inOffset).writePath
        outPath).writeInt outOffset).writeInt size)
  | .open path mode => build ((builder.writePath path).writeOpenMode mode)
  | .close fd => build (builder.writeInt fd)
  | .read fd offset out =>
      build (((builder.writeInt fd).writeInt offset).writeInt
        (UInt64.ofNat out.length))
  | .write fd offset input =>
      build (((builder.writeInt fd).writeInt offset).writeBytes input)
  | .ping num => build (builder.writeInt num)

/-- The eleven integers of a `resp::Stat`. -/
def PayloadBuilder.writeStat (self : PayloadBuilder) (stat : Stat) :
    PayloadBuilder :=
  ((((((((((self.writeInt stat.size).writeInt stat.links).writeInt
    stat.mtime.sec).writeInt stat.mtime.nsec).writeInt
    stat.atime.sec).writeInt stat.atime.nsec).writeInt
    stat.ctime.sec).writeInt stat.ctime.nsec).writeInt
    stat.mode).writeInt stat.uid).writeInt stat.gid

def PayloadBuilder.writeEntry (self : PayloadBuilder)
    (entry : List Byte × Stat) : PayloadBuilder :=
  (self.writePath entry.1).writeStat entry.2

/-- The part of `build_response` for a `Response`. -/
def buildSuccess (resp : Response (List Byte)) (id : Id) : List Byte :=
  let builder := ResponseBuilder.create id resp.proc ⟨0⟩
  let build := PayloadBuilder.build ResponseBuilder.headerSize
  match resp with
  | .stat stat => build (builder.writeStat stat)
  | .listdir entries =>
      build (entries.foldl PayloadBuilder.writeEntry
        (builder.writeInt (UInt64.ofNat entries.length)))
  | .readlink target => build (builder.writePath target)
  | .mknod => build builder
  | .mkdir => build builder
  | .unlink => build builder
  | .rmdir => build builder
  | .rename => build builder
  | .truncate => build builder
  | .utimens => build builder
  | .copyFileRange size => build (builder.writeInt size)
  | .open fd => build (builder.writeInt fd)
  | .close => build builder
  | .read read => build (builder.writeBytes read)
  | .write size => build (builder.writeInt size)
  | .ping num => build (builder.writeInt num)

/-- `build_response`. -/
def buildResponse (response : FallibleResponse) (id : Id) : List Byte :=
  match response with
  | .failed proc status =>
      (ResponseBuilder.create id proc status).build ResponseBuilder.headerSize
  | .success resp => buildSuccess resp id

/-- The most bytes a vector can have. -/
def maxSize : Nat :=
  2 ^ 63 - 1

/-- The most elements of 96 bytes a vector can have, which is the size of a
slice and a `resp::Stat`. -/
def maxEntries : Nat :=
  maxSize / 96

/-- `parse_request` on a reader of the payload. -/
def requestOf (outBuf : List Byte) : Procedure → Parse Request
  | .stat => do
      let path ← readPath
      return .stat path
  | .listdir => do
      let path ← readPath
      return .listdir path outBuf
  | .readlink => do
      let path ← readPath
      return .readlink path outBuf
  | .mknod => do
      let path ← readPath
      let mode ← readInt UInt32
      let dev ← readInt UInt64
      return .mknod path mode dev
  | .mkdir => do
      let path ← readPath
      let mode ← readInt UInt32
      return .mkdir path mode
  | .unlink => do
      let path ← readPath
      return .unlink path
  | .rmdir => do
      let path ← readPath
      return .rmdir path
  | .rename => do
      let source ← readPath
      let target ← readPath
      let flags ← readInt UInt32
      return .rename source target flags
  | .truncate => do
      let path ← readPath
      let size ← readInt Int64
      return .truncate path size
  | .utimens => do
      let path ← readPath
      let atimeSec ← readInt Int64
      let atimeNsec ← readInt Int64
      let mtimeSec ← readInt Int64
      let mtimeNsec ← readInt Int64
      return .utimens path ⟨atimeSec, atimeNsec⟩ ⟨mtimeSec, mtimeNsec⟩
  | .copyFileRange => do
      let inPath ← readPath
      let inOffset ← readInt Int64
      let outPath ← readPath
      let outOffset ← readInt Int64
      let size ← readInt UInt64
      return .copyFileRange inPath inOffset outPath outOffset size
  | .open => do
      let path ← readPath
      let mode ← readOpenMode
      return .open path mode
  | .close => do
      let fd ← readInt UInt64
      return .close fd
  | .read => do
      let fd ← readInt UInt64
      let offset ← readInt Int64
      let size ← readInt UInt64
      if outBuf.length < size.toNat then
        if maxSize < size.toNat then throw .lengthError
        else return .read fd offset (resize outBuf size.toNat)
      else return .read fd offset (outBuf.take size.toNat)
  | .write => do
      let fd ← readInt UInt64
      let offset ← readInt Int64
      let bytes ← readBytes
      return .write fd offset bytes
  | .ping => do
      let num ← readInt UInt64
      return .ping num

/-- `parse_request`, with the reader it leaves. -/
def parseRequest (payload outBuf : List Byte) (proc : Procedure) :
    Except Stop Request × PayloadReader :=
  (requestOf outBuf proc).on (.create payload)

/-- The eleven integers of a `resp::Stat`. -/
def readStat : Parse Stat := do
  let size ← readInt Int64
  let links ← readInt UInt64
  let mtimeSec ← readInt Int64
  let mtimeNsec ← readInt Int64
  let atimeSec ← readInt Int64
  let atimeNsec ← readInt Int64
  let ctimeSec ← readInt Int64
  let ctimeNsec ← readInt Int64
  let mode ← readInt UInt32
  let uid ← readInt UInt32
  let gid ← readInt UInt32
  return {
    size := size
    links := links
    mtime := ⟨mtimeSec, mtimeNsec⟩
    atime := ⟨atimeSec, atimeNsec⟩
    ctime := ⟨ctimeSec, ctimeNsec⟩
    mode := mode
    uid := uid
    gid := gid }

/-- The loop of `parse_response` over the entries of a directory, with `buf`
and `slices` as they are so far. -/
def readEntries : Nat → List Byte → List (Slice × Stat) →
    Parse (List Byte × List (Slice × Stat))
  | 0, buf, slices => return (buf, slices)
  | count + 1, buf, slices => do
      let path ← readPath
      let stat ← readStat
      readEntries count (buf ++ path ++ [0])
        (slices ++ [(⟨buf.length, path.length⟩, stat)])

/-- `parse_response` on a reader of the payload.  The response is returned
with the buffer of the request that its views point into. -/
def responseOf : Request → Parse (Response Slice × List Byte)
  | .stat _ => do
      let stat ← readStat
      return (.stat stat, [])
  | .listdir _ _ => do
      let size ← readInt UInt64
      if maxEntries < size.toNat then throw .lengthError
      else
        let (buf, slices) ← readEntries size.toNat [] []
        return (.listdir slices, buf)
  | .readlink _ _ => do
      let path ← readPath
      return (.readlink ⟨0, path.length⟩, path)
  | .mknod _ _ _ => return (.mknod, [])
  | .mkdir _ _ => return (.mkdir, [])
  | .unlink _ => return (.unlink, [])
  | .rmdir _ => return (.rmdir, [])
  | .rename _ _ _ => return (.rename, [])
  | .truncate _ _ => return (.truncate, [])
  | .utimens _ _ _ => return (.utimens, [])
  | .copyFileRange _ _ _ _ _ => do
      let size ← readInt UInt64
      return (.copyFileRange size, [])
  | .open _ _ => do
      let fd ← readInt UInt64
      return (.open fd, [])
  | .close _ => return (.close, [])
  | .read _ _ out => do
      let bytes ← readBytes
      let size := min bytes.length out.length
      return (.read ⟨0, size⟩, overlay out 0 (bytes.take size))
  | .write _ _ _ => do
      let size ← readInt UInt64
      return (.write size, [])
  | .ping _ => do
      let num ← readInt UInt64
      return (.ping num, [])

/-- `parse_response`, with the reader it leaves. -/
def parseResponse (payload : List Byte) (req : Request) :
    Except Stop (Response Slice × List Byte) × PayloadReader :=
  (responseOf req).on (.create payload)

/-- The reads of `receive_request_header`.  An invalid procedure does not stop
them. -/
def requestHeader : Parse (Id × Option Procedure × UInt64) := do
  let id ← readId
  let proc ← tryCatch (some <$> readProcedure) fun _ => return none
  let size ← readInt UInt64
  return (id, proc, size)

/-- `receive_request_header` once the header has been received. -/
def receiveRequestHeader (header : List Byte) : Except Errc RequestHeader :=
  match (requestHeader.on (.create header)).1 with
  | .ok (id, some proc, size) => .ok ⟨id, proc, size⟩
  | _ => .error Errc.badMessage

/-- The reads of `receive_response_header`. -/
def responseHeader : Parse (Id × Option Procedure × Errc × UInt64) := do
  let id ← readId
  let proc ← tryCatch (some <$> readProcedure) fun _ => return none
  let status ← readStatus
  let size ← readInt UInt64
  return (id, proc, status, size)

/-- `receive_response_header` once the header has been received. -/
def receiveResponseHeader (header : List Byte) :
    Except Errc ResponseHeader :=
  match (responseHeader.on (.create header)).1 with
  | .ok (id, some proc, status, size) => .ok ⟨id, proc, status, size⟩
  | _ => .error Errc.badMessage

end Rpc

end Madbfs
