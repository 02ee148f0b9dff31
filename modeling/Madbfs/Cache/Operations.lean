/-
The operations of the cache that work on whole files, the calls of its public
interface, and the tasks the executor runs for them.  `read` and `write` start
one task per page; the other calls are one task, or are finished at once.
-/
import Madbfs.Cache.Coroutine

namespace Madbfs

open Bytes

namespace Cache

/-- The loop of `flush` over the page table. -/
def flushLoop (id : Id) :
    List Nat → Cache → Cache × Flow FlushPc (Except Errc Unit)
  | [], c =>
      (c.modifyEntry id fun entry =>
        addWriteInflight (-1) (setEntryDirty false entry), .done (.ok ()))
  | index :: rest, c =>
      match c.lookup id with
      | none => (c, .crash)
      | some entry =>
          match entry.pages.lookup index with
          | none => (c, .crash)
          | some addr =>
              if addr ∉ c.lru then (c, .crash)
              else if (c.heap addr).dirty then
                match entry.writeFd with
                | none => (c, .crash)
                | some fd =>
                    Flow.andThen (c.flushAt addr) (.flushing index addr fd)
                      fun c res => match res with
                        | .error err =>
                            (c.modifyEntry id (addWriteInflight (-1)),
                              .done (.error err))
                        | .ok () => flushLoop id rest c
              else flushLoop id rest c

/-- `flush` once the descriptor for writing is there. -/
def flushPages (c : Cache) (id : Id) :
    Cache × Flow FlushPc (Except Errc Unit) :=
  match c.lookup id with
  | none => (c, .crash)
  | some entry =>
      flushLoop id entry.indices (c.modifyEntry id (addWriteInflight 1))

def flushStart (c : Cache) (id : Id) :
    Cache × Flow FlushPc (Except Errc Unit) :=
  match c.lookup id with
  | none => (c, .done (.ok ()))
  | some entry =>
      if entry.dirty then
        match entry.writeFd with
        | none => (c, .await .opening)
        | some _ => c.flushPages id
      else (c, .done (.ok ()))

/-- `flush` after `flush_at` returned for the page at `index`.  The loop goes
on with the successor of that map node. -/
def flushNext (id : Id) (index : Nat)
    (x : Cache × Flow FlushAtPc (Except Errc Unit)) (addr : Addr) (fd : Fd) :
    Cache × Flow FlushPc (Except Errc Unit) :=
  Flow.andThen x (.flushing index addr fd) fun c res => match res with
    | .error err =>
        (c.modifyEntry id (addWriteInflight (-1)), .done (.error err))
    | .ok () =>
        match c.lookup id with
        | none => (c, .crash)
        | some entry =>
            flushLoop id (entry.indices.filter (index < ·)) c

def flushResume (c : Cache) (id : Id) :
    FlushPc → Reply → Option (Cache × Flow FlushPc (Except Errc Unit))
  | .start, .go => some (c.flushStart id)
  | .opening, .opened (.ok fd) =>
      some ((c.modifyEntry id (setWriteFd (some fd))).flushPages id)
  | .opening, .opened (.error err) => some (c, .done (.error err))
  | .flushing index addr fd pc, reply =>
      if c.slot ⟨id, index⟩ = some addr ∧ addr ∈ c.lru then
        (c.flushAtResume addr pc reply).map fun x =>
          flushNext id index x addr fd
      else some (c, .crash)
  | _, _ => none

/-- `size / m_page_size + (size % m_page_size != 0)`. -/
def numPages (size pageSize : Nat) : Nat :=
  size / pageSize + if size % pageSize = 0 then 0 else 1

/-- One round of the page loop of `truncate`, for a page of the table. -/
def truncatePage (c : Cache) (key : PageKey) (addr : Addr)
    (oldSize newSize : Nat) : Cache × Flow TruncatePc Unit :=
  let oldNum := numPages oldSize c.pageSize
  let newNum := numPages newSize c.pageSize
  if key.index < max 1 (min oldNum newNum) - 1 ∨
      key.index ≥ max oldNum newNum then (c, .done ())
  else if key.index < usub oldNum 1 then
    if addr ∈ c.lru then ((c.eraseLru addr).erasePage key, .done ())
    else (c, .crash)
  else if key.index > usub oldNum 1 then
    let rem := min (usub newSize (key.index * c.pageSize)) c.pageSize
    (c.emplaceFront (Page.create key (Page.zeroBuf c.pageSize) rem c.pageSize),
      .done ())
  else if addr ∈ c.lru then
    let size := if key.index = usub newNum 1 then
      usub newSize 1 % c.pageSize + 1 else c.pageSize
    (c.modifyPage addr fun page => page.truncate size, .done ())
  else (c, .crash)

def truncateLoop (id : Id) (oldSize newSize : Nat) :
    List Nat → Cache → Cache × Flow TruncatePc Unit
  | [], c => (c, .done ())
  | index :: rest, c =>
      match c.slot ⟨id, index⟩ with
      | none => (c, .crash)
      | some addr =>
          Flow.andThen (c.truncatePage ⟨id, index⟩ addr oldSize newSize)
            (fun pc => pc) fun c _ => truncateLoop id oldSize newSize rest c

/-- `truncate` after the eviction.  The loop starts from the iterator that was
taken before it. -/
def truncatePages (c : Cache) (id : Id) (oldSize newSize : Nat)
    (first : Option (Nat × Addr)) : Cache × Flow TruncatePc Unit :=
  match first with
  | none => (c, .done ())
  | some (index, addr) =>
      if c.slot ⟨id, index⟩ = some addr then
        match c.lookup id with
        | none => (c, .crash)
        | some entry => truncateLoop id oldSize newSize
            (entry.indices.filter (index ≤ ·)) c
      else (c, .crash)

/-- `entry.pages.begin()`. -/
def firstPage (entry : LookupEntry) : Option (Nat × Addr) :=
  entry.indices.head?.bind fun index =>
    (entry.pages.lookup index).map fun addr => (index, addr)

/-- How many pages `truncate` evicts before its page loop. -/
def truncateExcess (c : Cache) (oldSize newSize : Nat) : Nat :=
  c.lru.length +
    (numPages newSize c.pageSize - numPages oldSize c.pageSize) - c.maxPages

def truncateStart (c : Cache) (id : Id) (oldSize newSize : Nat) :
    Cache × Flow TruncatePc Unit :=
  match c.lookup id with
  | none => (c, .done ())
  | some entry =>
      let first := firstPage entry
      let size := if numPages newSize c.pageSize > numPages oldSize c.pageSize
        then c.truncateExcess oldSize newSize else 0
      Flow.andThen (evict size c) (.evicting first) fun c _ =>
        c.truncatePages id oldSize newSize first

def truncateResume (c : Cache) (id : Id) (oldSize newSize : Nat) :
    TruncatePc → Reply → Option (Cache × Flow TruncatePc Unit)
  | .start, .go => some (c.truncateStart id oldSize newSize)
  | .evicting first pc, reply =>
      (c.evictResume pc reply).map fun x =>
        Flow.andThen x (.evicting first) fun c _ =>
          c.truncatePages id oldSize newSize first
  | _, _ => none

/-- The end of `invalidate_one`: the entry is extracted and its pages leave
the list. -/
def extract (c : Cache) (id : Id) : Cache × Flow FlushPc Unit :=
  match c.lookup id with
  | none => (c, .done ())
  | some entry =>
      let addrs := entry.addrs
      if ∀ addr ∈ addrs, addr ∈ c.lru then
        ({ c with
            table := c.table.erase id
            lru := addrs.foldl List.erase c.lru }, .done ())
      else (c, .crash)

/-- `invalidate_one`; `shouldFlush` decides whether it starts with a flush. -/
def invalidateOneResume (c : Cache) (id : Id) (shouldFlush : Bool)
    (pc : FlushPc) (reply : Reply) : Option (Cache × Flow FlushPc Unit) :=
  if shouldFlush then
    (c.flushResume id pc reply).map fun x =>
      Flow.andThen x (fun pc => pc) fun c _ => c.extract id
  else match pc, reply with
    | .start, .go => some (c.extract id)
    | _, _ => none

/-- The descriptors `invalidate_fds` takes out of the table, in its order. -/
def entryFds (entry : LookupEntry) : List Fd :=
  entry.readFd.toList ++ entry.writeFd.toList

def allFds (c : Cache) : List Fd :=
  c.table.entries.flatMap fun e => entryFds e.2

def dropFds (c : Cache) : Cache :=
  c.table.keys.foldl (fun c id => c.modifyEntry id fun entry =>
    setWriteFd none (setReadFd none entry)) c

/-- What runs after `shutdown` in the calls that start with one. -/
inductive After where
  | nothing
  | setPageSize (size : Nat)
  | setMaxPages (count : Nat)
deriving Repr, DecidableEq

def After.run (c : Cache) : After → Cache
  | .nothing => c
  | .setPageSize size => { c with pageSize := size }
  | .setMaxPages count => { c with maxPages := count }

def shutdownEnd (c : Cache) (after : After) : Cache × Flow ShutdownPc Unit :=
  (After.run { c with table := ∅, lru := [] } after, .done ())

def shutdownClose (c : Cache) (after : After) :
    List Fd → Cache × Flow ShutdownPc Unit
  | [] => c.shutdownEnd after
  | fd :: rest => (c, .await (.closing fd rest))

/-- The loop of `shutdown` over the table; a failed flush is only logged. -/
def shutdownLoop (after : After) :
    List Id → Cache → Cache × Flow ShutdownPc Unit
  | [], c => c.dropFds.shutdownClose after c.allFds
  | id :: rest, c =>
      Flow.andThen (c.flushStart id) (.flushing id rest) fun c _ =>
        shutdownLoop after rest c

def shutdownResume (c : Cache) (after : After) :
    ShutdownPc → Reply → Option (Cache × Flow ShutdownPc Unit)
  | .start, .go =>
      some (shutdownLoop after c.table.keys { c with readQueue := ∅ })
  | .flushing id rest pc, reply =>
      (c.flushResume id pc reply).map fun x =>
        Flow.andThen x (.flushing id rest) fun c _ =>
          shutdownLoop after rest c
  | .closing _ rest, .closed _ => some (c.shutdownClose after rest)
  | _, _ => none

/-- One round of `clean_stale_fds`: the descriptor it takes, and whether the
mark stays. -/
def takeStale (c : Cache) : Id × FdKind → Cache × Option Fd × Bool
  | (id, kind) =>
      match c.lookup id with
      | none => (c, none, false)
      | some entry =>
          match kind with
          | .read =>
              if entry.readInflight = 0 then
                (c.modifyEntry id (setReadFd none), entry.readFd,
                  entry.readFd.isNone)
              else (c, none, true)
          | .write =>
              if entry.writeInflight = 0 then
                (c.modifyEntry id (setWriteFd none), entry.writeFd,
                  entry.writeFd.isNone)
              else (c, none, true)

/-- The first loop of `clean_stale_fds`, with the finished descriptors and the
marks that are kept. -/
def takeStales : List (Id × FdKind) → Cache →
    Cache × List Fd × List (Id × FdKind)
  | [], c => (c, [], [])
  | mark :: rest, c =>
      let (c, fd, keep) := c.takeStale mark
      let (c, fds, marks) := takeStales rest c
      (c, fd.toList ++ fds, if keep then mark :: marks else marks)

def eraseEntry (c : Cache) (id : Id) : Cache :=
  { c with table := c.table.erase id }

/-- The last loop of `clean_stale_fds`. -/
def dropFree (c : Cache) : Cache :=
  (c.table.keys.filter fun id =>
    (c.lookup id).any LookupEntry.isFree).foldl eraseEntry c

def cleanClose (c : Cache) : List Fd → Cache × Flow ClosePc Unit
  | [] => (c.dropFree, .done ())
  | fd :: rest => (c, .await (.closing fd rest))

def cleanStaleFdsResume (c : Cache) :
    ClosePc → Reply → Option (Cache × Flow ClosePc Unit)
  | .start, .go =>
      let (c, fds, marks) := takeStales c.staleFds c
      some (cleanClose { c with staleFds := marks } fds)
  | .closing _ rest, .closed _ => some (c.cleanClose rest)
  | _, _ => none

/-- `new_lookup`. -/
def newLookup (c : Cache) (id : Id) (path : Path) : Cache :=
  match c.lookup id with
  | some _ => c
  | none => { c with table := c.table.insert id (LookupEntry.create path) }

def cancelStale (c : Cache) (id : Id) (kind : FdKind) : Cache :=
  { c with staleFds := c.staleFds.filter (· ≠ (id, kind)) }

def markStale (c : Cache) (id : Id) (kind : FdKind) : Cache :=
  { c with staleFds := c.staleFds ++ [(id, kind)] }

/-- `hint_open`. -/
def hintOpen (c : Cache) (id : Id) (path : Path) (mode : OpenMode) :
    Cache × Except Errc Unit :=
  let c := c.newLookup id path
  match c.lookup id with
  | none => (c, .error Errc.ioError)
  | some entry =>
      if entry.path ≠ path then (c, .error Errc.ioError)
      else
        let reader := entry.reader + mode.reads.toNat
        let writer := entry.writer + mode.writes.toNat
        let c := c.modifyEntry id fun entry =>
          { entry with reader := reader, writer := writer }
        let c := if entry.reader = 0 ∧ reader > 0
          then c.cancelStale id .read else c
        let c := if entry.writer = 0 ∧ writer > 0
          then c.cancelStale id .write else c
        (c, .ok ())

/-- `hint_close`. -/
def hintClose (c : Cache) (id : Id) (mode : OpenMode) :
    Cache × Except Errc Unit :=
  match c.lookup id with
  | none => (c, .error Errc.badFileDescriptor)
  | some entry =>
      if (mode.reads && entry.reader == 0) ||
          (mode.writes && entry.writer == 0) then
        (c, .error Errc.badFileDescriptor)
      else
        let reader := entry.reader - mode.reads.toNat
        let writer := entry.writer - mode.writes.toNat
        let c := c.modifyEntry id fun entry =>
          { entry with reader := reader, writer := writer }
        let c := if reader = 0 ∧ entry.readFd.isSome
          then c.markStale id .read else c
        let c := if writer = 0 ∧ entry.writeFd.isSome
          then c.markStale id .write else c
        (c, .ok ())

/-- `Cache::rename`. -/
def rename (c : Cache) (id : Id) (path : Path) : Cache :=
  c.modifyEntry id fun entry => { entry with path := path }

end Cache

end Madbfs
