/-
The executor.  A pool is the cache together with the tasks of the calls made
so far; it moves by a call, which starts tasks, and by the resumption of one
suspended task.  Any order of resumptions is possible.  A suspended task holds
a reference to an entry of the table, which dangles once the entry has left
the table, also if the file gets a new one.  A world adds a device without
faults, which executes the request a task waits for and later has its answer
delivered.
-/
import Madbfs.Cache.Operations

namespace Madbfs

open Bytes

/-- A task and where it is suspended, or what it returned. -/
inductive Task where
  | readAt (r : Range) (pc : ReadAtPc)
  | writeAt (r : Range) (input : List Byte) (pc : WriteAtPc)
  | flush (id : Id) (pc : FlushPc)
  | truncate (id : Id) (oldSize newSize : Nat) (pc : TruncatePc)
  | invalidateOne (id : Id) (shouldFlush : Bool) (pc : FlushPc)
  | shutdown (after : Cache.After) (pc : ShutdownPc)
  | cleanStaleFds (pc : ClosePc)
  | didRead (r : Range) (res : Except Errc (List Byte))
  | didWrite (r : Range) (res : Except Errc Nat)
  | finished (res : Except Errc Unit)
  | crashed

namespace Task

/-- The task a coroutine is after running up to its next suspension point. -/
def ofFlow {π α : Type} (await : π → Task) (done : α → Task)
    (x : Cache × Flow π α) : Cache × Task :=
  match x with
  | (c, .await pc) => (c, await pc)
  | (c, .done value) => (c, done value)
  | (c, .crash) => (c, .crashed)

/-- Resume a suspended task.  There is none to resume if the task is over, or
if it does not wait for this reply. -/
def resume (c : Cache) (reply : Reply) : Task → Option (Cache × Task)
  | .readAt r pc =>
      (c.readAtResume r pc reply).map (ofFlow (.readAt r) (.didRead r))
  | .writeAt r input pc =>
      (c.writeAtResume r input pc reply).map
        (ofFlow (.writeAt r input) (.didWrite r))
  | .flush id pc =>
      (c.flushResume id pc reply).map (ofFlow (.flush id) .finished)
  | .truncate id oldSize newSize pc =>
      (c.truncateResume id oldSize newSize pc reply).map
        (ofFlow (.truncate id oldSize newSize) fun _ => .finished (.ok ()))
  | .invalidateOne id shouldFlush pc =>
      (c.invalidateOneResume id shouldFlush pc reply).map
        (ofFlow (.invalidateOne id shouldFlush) fun _ => .finished (.ok ()))
  | .shutdown after pc =>
      (c.shutdownResume after pc reply).map
        (ofFlow (.shutdown after) fun _ => .finished (.ok ()))
  | .cleanStaleFds pc =>
      (c.cleanStaleFdsResume pc reply).map
        (ofFlow .cleanStaleFds fun _ => .finished (.ok ()))
  | _ => none

/-- The file whose entry `evict` refers to while it is suspended. -/
def evictEntry (c : Cache) : EvictPc → Id
  | .opening addr _ => (c.heap addr).key.id
  | .flushing addr _ _ _ => (c.heap addr).key.id

def flushEntry (id : Id) : FlushPc → Option Id
  | .start => none
  | _ => some id

/-- The file whose entry a suspended task holds a reference to.  The iterators
it holds besides are addresses, checked where they are dereferenced. -/
def entry (c : Cache) : Task → Option Id
  | .readAt _ (.evicting _ pc) => some (evictEntry c pc)
  | .readAt r _ => some r.id
  | .writeAt _ _ (.evicting _ pc) => some (evictEntry c pc)
  | .writeAt r _ _ => some r.id
  | .flush id pc => flushEntry id pc
  | .truncate _ _ _ (.evicting _ pc) => some (evictEntry c pc)
  | .invalidateOne id _ pc => flushEntry id pc
  | .shutdown _ (.flushing id _ pc) => flushEntry id pc
  | _ => none

/-- `evict` goes back to the entry when `flush_at` is through. -/
def evictFollows (c : Cache) (reply : Reply) : EvictPc → Bool
  | .opening _ _ => true
  | .flushing addr _ _ pc =>
      match c.flushAtResume addr pc reply with
      | some (_, .await _) => false
      | _ => true

/-- A failed `open` ends `flush` before its lock is taken. -/
def flushFollows : FlushPc → Reply → Bool
  | .opening, .opened (.error _) => false
  | _, _ => true

/-- The text up to the next suspension point follows that reference.  The loop
of `shutdown` goes on from the table's iterator in any case. -/
def follows (c : Cache) (reply : Reply) : Task → Bool
  | .readAt _ (.evicting _ pc) => evictFollows c reply pc
  | .writeAt r _ .start => (c.readQueue.lookup r.key).isNone
  | .writeAt _ _ (.queued fut) => c.promises fut == some ⟨0⟩
  | .writeAt _ _ (.evicting _ pc) => evictFollows c reply pc
  | .flush _ pc => flushFollows pc reply
  | .truncate _ _ _ (.evicting _ pc) => evictFollows c reply pc
  | .invalidateOne _ _ pc => flushFollows pc reply
  | _ => true

def isDone : Task → Bool
  | .didRead _ _ => true
  | .didWrite _ _ => true
  | .finished _ => true
  | _ => false

/-- The end of `Cache::read`: the first error of a part, or the sum of what
the parts have read. -/
def readTotal : List Task → Except Errc Nat
  | [] => .ok 0
  | .didRead _ (.ok bytes) :: rest =>
      (readTotal rest).map fun read => bytes.length + read
  | .didRead _ (.error err) :: _ => .error err
  | _ :: rest => readTotal rest

/-- The buffer of a `read` after its parts have copied their bytes out. -/
def readOut (pageSize : Nat) (out : List Byte) : List Task → List Byte
  | [] => out
  | .didRead r (.ok bytes) :: rest =>
      readOut pageSize (overlay out (r.bufOffset pageSize) bytes) rest
  | _ :: rest => readOut pageSize out rest

end Task

/-- The calls of the cache's interface. -/
inductive Call where
  | hintOpen (id : Id) (path : Path) (mode : OpenMode)
  | hintClose (id : Id) (mode : OpenMode)
  | read (id : Id) (len offset : Nat)
  | write (id : Id) (input : List Byte) (offset : Nat)
  | flush (id : Id)
  | truncate (id : Id) (oldSize newSize : Nat)
  | rename (id : Id) (path : Path)
  | invalidateOne (id : Id) (shouldFlush : Bool)
  | invalidateAll
  | setPageSize (size : Nat)
  | setMaxPages (count : Nat)
  | cleanStaleFds

namespace Call

/-- The ranges `read` and `write` split a buffer into, one for each page from
`first` to `last`. -/
def ranges (pageSize : Nat) (id : Id) (len offset : Nat) : List Range :=
  let first := offset / pageSize
  let last := usub (offset + len) 1 / pageSize
  (List.range' first (last + 1 - first)).map fun index =>
    ⟨id, index, first, last, offset, len⟩

/-- The text of a call up to its first suspension point, with the tasks it
starts. -/
def start (c : Cache) : Call → Cache × List Task
  | .hintOpen id path mode =>
      ((c.hintOpen id path mode).1, [.finished (c.hintOpen id path mode).2])
  | .hintClose id mode =>
      ((c.hintClose id mode).1, [.finished (c.hintClose id mode).2])
  | .read id len offset =>
      match c.lookup id with
      | none => (c, [.finished (.error Errc.badFileDescriptor)])
      | some _ => (c, (ranges c.pageSize id len offset).map fun r =>
          .readAt r .start)
  | .write id input offset =>
      match c.lookup id with
      | none => (c, [.finished (.error Errc.badFileDescriptor)])
      | some _ => (c.modifyEntry id (Cache.setEntryDirty true),
          (ranges c.pageSize id input.length offset).map fun r =>
            .writeAt r input .start)
  | .flush id => (c, [.flush id .start])
  | .truncate id oldSize newSize => (c, [.truncate id oldSize newSize .start])
  | .rename id path => (c.rename id path, [.finished (.ok ())])
  | .invalidateOne id shouldFlush =>
      (c, [.invalidateOne id shouldFlush .start])
  | .invalidateAll => (c, [.shutdown .nothing .start])
  | .setPageSize size => (c, [.shutdown (.setPageSize size) .start])
  | .setMaxPages count => (c, [.shutdown (.setMaxPages count) .start])
  | .cleanStaleFds => (c, [.cleanStaleFds .start])

end Call

/-- What drives a pool: a call, or the resumption of a task with any answer. -/
inductive PoolEvent where
  | call (call : Call)
  | resume (i : Nat) (reply : Reply)

/-- `stale` lists the tasks whose entry has left the table while they were
suspended. -/
structure Pool where
  cache : Cache
  tasks : List Task
  stale : List Nat

namespace Pool

/-- No operation is in progress: every task has returned. -/
def Idle (p : Pool) : Prop :=
  ∀ task ∈ p.tasks, task.isDone = true

instance (p : Pool) : Decidable p.Idle :=
  inferInstanceAs (Decidable (∀ task ∈ p.tasks, task.isDone = true))

def call (p : Pool) (call : Call) : Pool :=
  ⟨(call.start p.cache).1, p.tasks ++ (call.start p.cache).2, p.stale⟩

/-- The tasks whose entry leaves the table in a step of task `i`. -/
def strays (p : Pool) (i : Nat) (c : Cache) : List Nat :=
  (List.range p.tasks.length).filter fun j =>
    j ≠ i && ((p.tasks[j]?).bind (Task.entry p.cache)).any fun id =>
      (p.cache.lookup id).isSome && (c.lookup id).isNone

/-- A task that follows a dangling reference has no defined behaviour. -/
def resume (p : Pool) (i : Nat) (reply : Reply) : Option Pool :=
  (p.tasks[i]?).bind fun task =>
    (task.resume p.cache reply).map fun x =>
      if i ∈ p.stale ∧ task.follows p.cache reply = true then
        { p with tasks := p.tasks.set i .crashed }
      else ⟨x.1, p.tasks.set i x.2, p.stale ++ p.strays i x.1⟩

def step (p : Pool) : PoolEvent → Option Pool
  | .call call => some (p.call call)
  | .resume i reply => p.resume i reply

end Pool

/-- A device on which open, read and write act on flat files. -/
structure Device where
  file : Path → List Byte
  fds : Fd → Option Path
  nextFd : Fd

namespace Device

/-- The device executes a request.  Of a write it accepts a prefix, the whole
input at most and one byte at least if there is any. -/
def exec (d : Device) (accept : Nat) : Request → Device × Reply
  | .open path _ =>
      ({ d with
          fds := Function.update d.fds d.nextFd (some path)
          nextFd := d.nextFd + 1 }, .opened (.ok d.nextFd))
  | .close fd =>
      ({ d with fds := Function.update d.fds fd none }, .closed (.ok ()))
  | .read fd len offset =>
      match d.fds fd with
      | none => (d, .fetched (.error Errc.badFileDescriptor))
      | some path => (d, .fetched (.ok (slice (d.file path) offset len)))
  | .write fd input offset =>
      match d.fds fd with
      | none => (d, .written (.error Errc.badFileDescriptor))
      | some path =>
          let n := min (max accept 1) input.length
          ({ d with
              file := Function.update d.file path
                (overlay (d.file path) offset (input.take n)) },
            .written (.ok n))

end Device

namespace Task

/-- The request `flush_at` waits for.  The span points into the page, whose
bytes are read when the request is executed. -/
def flushAtRequest (c : Cache) (addr : Addr) (fd : Fd) :
    FlushAtPc → Option Request
  | .queued _ => none
  | .writing written len =>
      some (.write fd (slice (c.heap addr).data written len)
        ((c.heap addr).key.index * c.pageSize + written))

def evictRequest (c : Cache) : EvictPc → Option Request
  | .opening addr _ =>
      (c.lookup (c.heap addr).key.id).map fun entry => .open entry.path .write
  | .flushing addr fd _ pc => flushAtRequest c addr fd pc

/-- A page that was evicted under a `flush` is freed memory, from which there
is nothing to send. -/
def flushRequest (c : Cache) (id : Id) : FlushPc → Option Request
  | .start => none
  | .opening => (c.lookup id).map fun entry => .open entry.path .write
  | .flushing index addr fd pc =>
      if c.slot ⟨id, index⟩ = some addr ∧ addr ∈ c.lru then
        flushAtRequest c addr fd pc
      else none

/-- The request a suspended task waits for. -/
def request (c : Cache) : Task → Option Request
  | .readAt r .opening =>
      (c.lookup r.id).map fun entry => .open entry.path .read
  | .readAt r (.fetching fd _) =>
      some (.read fd c.pageSize (r.index * c.pageSize))
  | .readAt _ (.evicting _ pc) => evictRequest c pc
  | .writeAt _ _ (.evicting _ pc) => evictRequest c pc
  | .flush id pc => flushRequest c id pc
  | .truncate _ _ _ (.evicting _ pc) => evictRequest c pc
  | .invalidateOne id _ pc => flushRequest c id pc
  | .shutdown _ (.flushing id _ pc) => flushRequest c id pc
  | .shutdown _ (.closing fd _) => some (.close fd)
  | .cleanStaleFds (.closing fd _) => some (.close fd)
  | _ => none

end Task

/-- The pool and the device.  `replies` holds the answers that the device has
given and that are not delivered yet. -/
structure World where
  pool : Pool
  device : Device
  replies : Nat → Option Reply

inductive Event where
  | call (call : Call)
  | exec (i : Nat) (accept : Nat)
  | resume (i : Nat)

/-- The step is a call. -/
def Event.isCall : Event → Bool
  | .call _ => true
  | _ => false

namespace World

def exec (w : World) (i accept : Nat) : Option World :=
  match w.replies i, (w.pool.tasks[i]?).bind (Task.request w.pool.cache) with
  | none, some request =>
      some { w with
        device := (w.device.exec accept request).1
        replies := Function.update w.replies i
          (some (w.device.exec accept request).2) }
  | _, _ => none

/-- Deliver the answer of the device to task `i`, or wake the task if it waits
for the executor or a future. -/
def resume (w : World) (i : Nat) : Option World :=
  (w.pool.resume i ((w.replies i).getD .go)).map fun pool =>
    { w with pool := pool, replies := Function.update w.replies i none }

def step (w : World) : Event → Option World
  | .call call => some { w with pool := w.pool.call call }
  | .exec i accept => w.exec i accept
  | .resume i => w.resume i

def run (w : World) : List Event → Option World
  | [] => some w
  | event :: rest => (w.step event).bind fun w => run w rest

end World

end Madbfs
