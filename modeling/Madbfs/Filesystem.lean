/-
The operations of the filesystem on open handles, with the data cache or
without, and the operations on the cache that are requested over the IPC
socket.  An operation of the cache takes several steps, between which the
device answers and other tasks run, so its outcome is a relation.
-/
import Madbfs.Cache.Closing
import Madbfs.FileHandleStore
import Madbfs.Run

namespace Madbfs

open Bytes

/-- `Filesystem`.  Without a cache only the device of `world` is used.
`dirty` holds the flags of the nodes of regular files. -/
structure Filesystem where
  cached : Bool
  world : World
  handles : FileHandleStore
  dirty : Id → Bool

namespace World

/-- A call of the cache and steps of its tasks and of others, without further
calls, after which the tasks of the call have ended as `parts`. -/
def Completes (w : World) (call : Call) (w' : World) (parts : List Task) :
    Prop :=
  (∃ events, Runs step (fun _ event _ => event.isCall = false)
    { w with pool := w.pool.call call } events w') ∧
  (∀ task ∈ parts, task.isDone = true) ∧
  parts = (w'.pool.tasks.drop w.pool.tasks.length).take
    (call.start w.pool.cache).2.length

end World

namespace Filesystem

/-- What a `read` of the cache returns when its parts have ended: an error, or
the number of bytes given by the buffer they were copied to. -/
def readResult (pageSize len : Nat) (parts : List Task) :
    Except Errc (List Byte) :=
  match parts with
  | [.finished (.error err)] => .error err
  | _ => (Task.readTotal parts).map fun total =>
      (Task.readOut pageSize (List.replicate len 0) parts).take total

/-- `Filesystem::read`. -/
def Reads (fs : Filesystem) (fd len offset : Nat)
    (res : Except Errc (List Byte)) : Prop :=
  match fs.handles.findMode fd .read with
  | some ⟨some node, _, realFd⟩ =>
      if fs.cached then
        ∃ w' parts,
          fs.world.Completes (.read node len offset) w' parts ∧
          res = readResult fs.world.pool.cache.pageSize len parts
      else (fs.world.device.exec 0 (.read realFd len offset)).2 = .fetched res
  | _ => res = .error Errc.badFileDescriptor

/-- `Filesystem::write` does not refuse the input. -/
def Accepts (fs : Filesystem) (fd : Nat) (input : List Byte) (offset : Nat) :
    Prop :=
  match fs.handles.findMode fd .write with
  | some ⟨some node, _, realFd⟩ =>
      if fs.cached then ∀ err, Task.finished (.error err) ∉
        ((Call.write node input offset).start fs.world.pool.cache).2
      else ∃ n, (fs.world.device.exec input.length
        (.write realFd input offset)).2 = .written (.ok n)
  | _ => False

/-- `Filesystem::release` returns without an error: with a cache, after the
flush of a file that was written, if `hint_close` does.  It does not return
when the seat is empty, for it uses the node of the handle. -/
def Releases (fs : Filesystem) (fd : Nat) : Prop :=
  match (fs.handles.release fd).1 with
  | some ⟨some node, mode, realFd⟩ =>
      if fs.cached then
        ∃ w', (if fs.dirty node then
            fs.world.Completes (.flush node) w' [.finished (.ok ())]
          else w' = fs.world) ∧
          (w'.pool.cache.hintClose node mode).2 = .ok ()
      else (fs.world.device.exec 0 (.close realFd)).2 = .closed (.ok ())
  | _ => False

/-- The operations on the cache that come over the IPC socket. -/
inductive IpcOp where
  | invalidateCache
  | setPageSize (kib : UInt32)
  | setCacheSize (mib : UInt32)
deriving Repr, DecidableEq

def lowestPageSize : Nat := 64 * 1024

def highestPageSize : Nat := 4 * 1024 * 1024

def lowestMaxPages : Nat := 128

/-- The calls of the cache that `IpcHandler::handle` makes. -/
def IpcOp.calls (c : Cache) : IpcOp → List Call
  | .invalidateCache => [.invalidateAll]
  | .setPageSize kib =>
      let newSize := min highestPageSize
        (max lowestPageSize (Cache.bitCeil (kib.toNat * 1024)))
      let newMax := max lowestMaxPages
        (Cache.bitCeil (c.maxPages * c.pageSize / newSize))
      [.setPageSize newSize, .setMaxPages newMax]
  | .setCacheSize mib =>
      [.setMaxPages (max lowestMaxPages (Cache.bitCeil
        (mib.toNat * 1024 * 1024 / max c.pageSize 1)))]

/-- Calls of the cache that are made one after the other. -/
inductive CompletesAll : World → List Call → World → Prop
  | nil (w : World) : CompletesAll w [] w
  | cons {w w₁ w₂ : World} {call : Call} {calls : List Call}
      {parts : List Task} (hcall : w.Completes call w₁ parts)
      (hrest : CompletesAll w₁ calls w₂) : CompletesAll w (call :: calls) w₂

/-- `IpcHandler::handle`.  Without a cache it returns
`operation_not_supported`. -/
def Handles (fs : Filesystem) (op : IpcOp) (fs' : Filesystem) : Prop :=
  if fs.cached then
    ∃ w', CompletesAll fs.world (op.calls fs.world.pool.cache) w' ∧
      fs' = { fs with world := w' }
  else fs' = fs

/-- IPC operations that have been completed one after the other. -/
inductive Reconfigures : Filesystem → List IpcOp → Filesystem → Prop
  | nil (fs : Filesystem) : Reconfigures fs [] fs
  | cons {fs fs₁ fs₂ : Filesystem} {op : IpcOp} {ops : List IpcOp}
      (hop : fs.Handles op fs₁) (hrest : Reconfigures fs₁ ops fs₂) :
      Reconfigures fs (op :: ops) fs₂

end Filesystem

end Madbfs
