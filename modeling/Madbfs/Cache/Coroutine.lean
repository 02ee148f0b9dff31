/-
The cache operations as coroutines.  The executor has one thread, so the text
between two suspension points runs without interference; a coroutine is given
here by what it does from one suspension point to the next.  A program counter
names the `co_await` a coroutine is suspended at, with the local variables
that are still needed after it.
-/
import Madbfs.Cache.Basic

namespace Madbfs

open Bytes

/-- How the text up to the next suspension point ends: suspended at a program
counter, finished with a value, or with a dangling iterator dereferenced,
after which the program has no defined behaviour. -/
inductive Flow (π α : Type) where
  | await (pc : π)
  | done (value : α)
  | crash
deriving Repr

/-- A nested `co_await`: suspended inside the callee, or on with the rest. -/
def Flow.andThen {π ρ α β : Type} (x : Cache × Flow π α) (wrap : π → ρ)
    (rest : Cache → α → Cache × Flow ρ β) : Cache × Flow ρ β :=
  match x with
  | (c, .await pc) => (c, .await (wrap pc))
  | (c, .done value) => rest c value
  | (c, .crash) => (c, .crash)

/-- What a suspended coroutine is resumed with: the executor or a future that
became ready, or the answer to a request to the device. -/
inductive Reply where
  | go
  | opened (res : Except Errc Fd)
  | closed (res : Except Errc Unit)
  | fetched (res : Except Errc (List Byte))
  | written (res : Except Errc Nat)
deriving Repr

/-- Requests a coroutine sends to the device. -/
inductive Request where
  | open (path : Path) (mode : OpenMode)
  | close (fd : Fd)
  | read (fd : Fd) (len offset : Nat)
  | write (fd : Fd) (input : List Byte) (offset : Nat)
deriving Repr

inductive FlushAtPc where
  | queued (fut : Fut)
  | writing (written len : Nat)
deriving Repr, DecidableEq

inductive EvictPc where
  | opening (page : Addr) (rest : Nat)
  | flushing (page : Addr) (fd : Fd) (rest : Nat) (pc : FlushAtPc)
deriving Repr, DecidableEq

inductive ReadAtPc where
  | start
  | queued (fut : Fut)
  | opening
  | fetching (fd : Fd) (fut : Fut)
  | evicting (page : Addr) (pc : EvictPc)
deriving Repr, DecidableEq

inductive WriteAtPc where
  | start
  | queued (fut : Fut)
  | evicting (page : Addr) (pc : EvictPc)
deriving Repr, DecidableEq

inductive FlushPc where
  | start
  | opening
  | flushing (index : Nat) (page : Addr) (fd : Fd) (pc : FlushAtPc)
deriving Repr, DecidableEq

/-- `first` is the map iterator taken before the eviction. -/
inductive TruncatePc where
  | start
  | evicting (first : Option (Nat × Addr)) (pc : EvictPc)
deriving Repr, DecidableEq

inductive ShutdownPc where
  | start
  | flushing (id : Id) (rest : List Id) (pc : FlushPc)
  | closing (fd : Fd) (rest : List Fd)
deriving Repr, DecidableEq

inductive ClosePc where
  | start
  | closing (fd : Fd) (rest : List Fd)
deriving Repr, DecidableEq

/-- The arguments `read_at` and `write_at` share. -/
structure Range where
  id : Id
  index : Nat
  first : Nat
  last : Nat
  offset : Nat
  len : Nat
deriving Repr, DecidableEq

namespace Range

def key (r : Range) : PageKey :=
  ⟨r.id, r.index⟩

def localOffset (r : Range) (pageSize : Nat) : Nat :=
  if r.index = r.first then r.offset % pageSize else 0

def localSize (r : Range) (pageSize : Nat) : Nat :=
  if r.index = r.last then
    usub (usub (r.len + r.offset % pageSize) 1 % pageSize + 1)
      (r.localOffset pageSize)
  else if r.index = r.first then usub pageSize (r.offset % pageSize)
  else pageSize

/-- `out_off` and `in_off`: where the page's part starts in the buffer. -/
def bufOffset (r : Range) (pageSize : Nat) : Nat :=
  if r.index ≥ r.first + 1 then
    usub ((r.index - r.first) * pageSize) (r.offset % pageSize)
  else 0

end Range

namespace Cache

variable {π : Type}

/-- The loop of `flush_at`. -/
def flushAtLoop (c : Cache) (addr : Addr) (written : Nat) :
    Cache × Flow FlushAtPc (Except Errc Unit) :=
  if written < (c.heap addr).size then
    (c, .await (.writing written ((c.heap addr).size - written)))
  else (c.setDirty addr false, .done (.ok ()))

def flushAt (c : Cache) (addr : Addr) :
    Cache × Flow FlushAtPc (Except Errc Unit) :=
  match c.readQueue.lookup (c.heap addr).key with
  | some fut => (c, .await (.queued fut))
  | none => c.flushAtLoop addr 0

def flushAtResume (c : Cache) (addr : Addr) :
    FlushAtPc → Reply → Option (Cache × Flow FlushAtPc (Except Errc Unit))
  | .queued fut, .go =>
      match c.promises fut with
      | none => none
      | some err =>
          if err = ⟨0⟩ then some (c.flushAtLoop addr 0)
          else some (c, .done (.error err))
  | .writing written _, .written (.ok n) =>
      some (c.flushAtLoop addr (written + n))
  | .writing _ _, .written (.error err) => some (c, .done (.error err))
  | _, _ => none

/-- The end of one round of `evict`: the lock is released and the index leaves
the table.  A failed flush is only logged. -/
def evictDone (c : Cache) (addr : Addr) : Cache :=
  let key := (c.heap addr).key
  (c.modifyEntry key.id (addWriteInflight (-1))).erasePage key

/-- `flush_at` on an evicted page, then the remaining rounds. -/
def evictFlush (x : Cache × Flow FlushAtPc (Except Errc Unit)) (addr : Addr)
    (fd : Fd) (rest : Nat) (next : Cache → Cache × Flow EvictPc Unit) :
    Cache × Flow EvictPc Unit :=
  Flow.andThen x (.flushing addr fd rest) fun c _ => next (c.evictDone addr)

/-- `Cache::evict`.  A page leaves the list before it is flushed. -/
def evict : Nat → Cache → Cache × Flow EvictPc Unit
  | 0, c => (c, .done ())
  | size + 1, c =>
      match c.lru.getLast? with
      | none => (c, .done ())
      | some addr =>
          let c := { c with lru := c.lru.dropLast }
          let key := (c.heap addr).key
          match c.lookup key.id with
          | none => evict size c
          | some entry =>
              if (c.heap addr).dirty then
                let c := c.modifyEntry key.id (addWriteInflight 1)
                match entry.writeFd with
                | none => (c, .await (.opening addr size))
                | some fd =>
                    evictFlush (c.flushAt addr) addr fd size (evict size)
              else evict size (c.erasePage key)

/-- A failed `open` continues with the next page, which leaves the index of
this one in the table. -/
def evictResume (c : Cache) :
    EvictPc → Reply → Option (Cache × Flow EvictPc Unit)
  | .opening addr rest, .opened (.ok fd) =>
      let c := c.modifyEntry (c.heap addr).key.id (setWriteFd (some fd))
      some (evictFlush (c.flushAt addr) addr fd rest (evict rest))
  | .opening addr rest, .opened (.error _) =>
      some (evict rest
        (c.modifyEntry (c.heap addr).key.id (addWriteInflight (-1))))
  | .flushing addr fd rest pc, reply =>
      (c.flushAtResume addr pc reply).map fun x =>
        evictFlush x addr fd rest (evict rest)
  | _, _ => none

/-- `evict(m_lru.size() - m_max_pages)` when there is an excess. -/
def evictExcess (c : Cache) : Cache × Flow EvictPc Unit :=
  if c.lru.length > c.maxPages then evict (c.lru.length - c.maxPages) c
  else (c, .done ())

/-- The end of `read_at`: the page moves to the front and is copied out. -/
def readAtFinish (c : Cache) (r : Range) (addr : Addr) :
    Cache × Flow π (Except Errc (List Byte)) :=
  if c.slot r.key = some addr ∧ addr ∈ c.lru then
    let c := c.splice addr
    (c.modifyEntry r.id (addReadInflight (-1)), .done (.ok
      ((c.heap addr).read (r.localSize c.pageSize)
        (r.localOffset c.pageSize))))
  else (c, .crash)

def readAtError (c : Cache) (r : Range) (err : Errc) :
    Cache × Flow ReadAtPc (Except Errc (List Byte)) :=
  (c.modifyEntry r.id (addReadInflight (-1)), .done (.error err))

def readAtFetch (c : Cache) (r : Range) (fd : Fd) :
    Cache × Flow ReadAtPc (Except Errc (List Byte)) :=
  ((c.enqueue r.key).1, .await (.fetching fd (c.enqueue r.key).2))

/-- `read_at` from the page lookup on. -/
def readAtLookup (c : Cache) (r : Range) :
    Cache × Flow ReadAtPc (Except Errc (List Byte)) :=
  match c.lookup r.id with
  | none => (c, .crash)
  | some entry =>
      match entry.pages.lookup r.index with
      | some addr => c.readAtFinish r addr
      | none =>
          match entry.readFd with
          | none => (c, .await .opening)
          | some fd => c.readAtFetch r fd

/-- The page a completed fetch inserts. -/
def fetchedPage (c : Cache) (key : PageKey) (bytes : List Byte) : Page :=
  Page.create key (overlay (Page.zeroBuf c.pageSize) 0
    (bytes.take c.pageSize)) (bytes.take c.pageSize).length c.pageSize

/-- `read_at` after a successful fetch. -/
def readAtInsert (c : Cache) (r : Range) (fut : Fut) (bytes : List Byte) :
    Cache × Flow ReadAtPc (Except Errc (List Byte)) :=
  let c := c.emplaceFront (c.fetchedPage r.key bytes)
  match c.slot r.key with
  | none => (c, .crash)
  | some addr =>
      let c := (c.setPromise fut ⟨0⟩).dequeue r.key
      Flow.andThen c.evictExcess (.evicting addr) fun c _ =>
        c.readAtFinish r addr

def readAtResume (c : Cache) (r : Range) :
    ReadAtPc → Reply →
      Option (Cache × Flow ReadAtPc (Except Errc (List Byte)))
  | .start, .go =>
      let c := c.modifyEntry r.id (addReadInflight 1)
      match c.readQueue.lookup r.key with
      | some fut => some (c, .await (.queued fut))
      | none => some (c.readAtLookup r)
  | .queued fut, .go =>
      match c.promises fut with
      | none => none
      | some err =>
          if err = ⟨0⟩ then some (c.readAtLookup r)
          else some (c.readAtError r err)
  | .opening, .opened (.ok fd) =>
      some ((c.modifyEntry r.id (setReadFd (some fd))).readAtFetch r fd)
  | .opening, .opened (.error err) => some (c.readAtError r err)
  | .fetching _ fut, .fetched (.ok bytes) =>
      match c.readQueue.lookup r.key with
      | none => some ((c.setPromise fut Errc.operationCanceled).readAtError r
          Errc.operationCanceled)
      | some _ => some (c.readAtInsert r fut bytes)
  | .fetching _ fut, .fetched (.error err) =>
      some (((c.setPromise fut err).dequeue r.key).readAtError r err)
  | .evicting addr pc, reply =>
      (c.evictResume pc reply).map fun x =>
        Flow.andThen x (.evicting addr) fun c _ => c.readAtFinish r addr
  | _, _ => none

/-- The end of `write_at`. -/
def writeAtFinish (c : Cache) (r : Range) (input : List Byte) (addr : Addr) :
    Cache × Flow π (Except Errc Nat) :=
  if c.slot r.key = some addr ∧ addr ∈ c.lru then
    let c := c.splice addr
    let part := slice input (r.bufOffset c.pageSize) (r.localSize c.pageSize)
    let res := (c.heap addr).write part (r.localOffset c.pageSize)
    (c.modifyPage addr fun _ => res.1.setDirty true, .done (.ok res.2))
  else (c, .crash)

/-- `write_at` from the page lookup on.  A missing page is created empty: its
bytes on the device are not fetched. -/
def writeAtLookup (c : Cache) (r : Range) (input : List Byte) :
    Cache × Flow WriteAtPc (Except Errc Nat) :=
  match c.lookup r.id with
  | none => (c, .crash)
  | some entry =>
      match entry.pages.lookup r.index with
      | some addr => c.writeAtFinish r input addr
      | none =>
          let addr := c.nextAddr
          let page := Page.create r.key (Page.zeroBuf c.pageSize) 0 c.pageSize
          Flow.andThen (c.emplaceFront page).evictExcess (.evicting addr)
            fun c _ => c.writeAtFinish r input addr

def writeAtResume (c : Cache) (r : Range) (input : List Byte) :
    WriteAtPc → Reply → Option (Cache × Flow WriteAtPc (Except Errc Nat))
  | .start, .go =>
      match c.readQueue.lookup r.key with
      | some fut => some (c, .await (.queued fut))
      | none => some (c.writeAtLookup r input)
  | .queued fut, .go =>
      match c.promises fut with
      | none => none
      | some err =>
          if err = ⟨0⟩ then some (c.writeAtLookup r input)
          else some (c, .done (.error err))
  | .evicting addr pc, reply =>
      (c.evictResume pc reply).map fun x =>
        Flow.andThen x (.evicting addr) fun c _ => c.writeAtFinish r input addr
  | _, _ => none

end Cache

end Madbfs
