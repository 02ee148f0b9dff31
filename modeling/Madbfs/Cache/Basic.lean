/-
The state of the cache.  Pages live in a list ordered by use; a table maps
every open file to its entry, and an entry maps page indices to positions in
that list.  A position is an address here: it is handed out once, so an
iterator into the list is valid exactly while its address is listed.
-/
import Mathlib.Data.List.AList
import Mathlib.Data.List.Sort
import Mathlib.Data.Nat.Log
import Madbfs.Cache.Page

namespace Madbfs

open Bytes

abbrev Addr := Nat

abbrev Fut := Nat

abbrev Fd := Nat

inductive FdKind where
  | read
  | write
deriving Repr, DecidableEq, Inhabited

/-- `Cache::LookupEntry`: what the cache knows about one file. -/
structure LookupEntry where
  pages : AList (fun _ : Nat => Addr)
  path : Path
  reader : Nat
  writer : Nat
  readFd : Option Fd
  writeFd : Option Fd
  readInflight : Int
  writeInflight : Int
  dirty : Bool

namespace LookupEntry

/-- The entry `new_lookup` inserts. -/
def create (path : Path) : LookupEntry where
  pages := ∅
  path := path
  reader := 0
  writer := 0
  readFd := none
  writeFd := none
  readInflight := 0
  writeInflight := 0
  dirty := false

/-- The page indices in the order a `std::map` lists them. -/
def indices (entry : LookupEntry) : List Nat :=
  entry.pages.keys.insertionSort (· ≤ ·)

/-- The iterators the page table holds, in the same order. -/
def addrs (entry : LookupEntry) : List Addr :=
  entry.indices.filterMap fun index => entry.pages.lookup index

/-- `LookupEntry::is_free`. -/
def isFree (entry : LookupEntry) : Bool :=
  entry.pages.keys.isEmpty && entry.reader == 0 && entry.writer == 0 &&
    entry.readInflight == 0 && entry.writeInflight == 0 && !entry.dirty

end LookupEntry

/-- `Cache`.  `lru` has the most recently used page at the front; `heap` holds
the page of every address ever handed out, also of a page that has left the
list and is only held by a running eviction.  `promises` holds the values set
so far; a future is ready once its promise has one. -/
structure Cache where
  lru : List Addr
  heap : Addr → Page
  table : AList (fun _ : Id => LookupEntry)
  readQueue : AList (fun _ : PageKey => Fut)
  promises : Fut → Option Errc
  staleFds : List (Id × FdKind)
  pageSize : Nat
  maxPages : Nat
  nextAddr : Addr
  nextFut : Fut

namespace Cache

/-- `std::bit_ceil`. -/
def bitCeil (n : Nat) : Nat :=
  2 ^ Nat.clog 2 n

/-- `Cache::Cache`. -/
def create (pageSize maxPages : Nat) : Cache where
  lru := []
  heap := fun _ => default
  table := ∅
  readQueue := ∅
  promises := fun _ => none
  staleFds := []
  pageSize := bitCeil pageSize
  maxPages := maxPages
  nextAddr := 0
  nextFut := 0

/-- `Cache::lookup`. -/
def lookup (c : Cache) (id : Id) : Option LookupEntry :=
  c.table.lookup id

/-- The page-table slot of a page. -/
def slot (c : Cache) (key : PageKey) : Option Addr :=
  (c.lookup key.id).bind fun entry => entry.pages.lookup key.index

/-- The valid size of a cached page, zero if there is none. -/
def cachedSize (c : Cache) (key : PageKey) : Nat :=
  match c.slot key with
  | some addr => (c.heap addr).size
  | none => 0

/-- Update the entry of a file.  A coroutine whose reference to the entry
dangles does not come here: see `Pool.resume`. -/
def modifyEntry (c : Cache) (id : Id) (f : LookupEntry → LookupEntry) :
    Cache :=
  match c.lookup id with
  | none => c
  | some entry => { c with table := c.table.insert id (f entry) }

def modifyPage (c : Cache) (addr : Addr) (f : Page → Page) : Cache :=
  { c with heap := Function.update c.heap addr (f (c.heap addr)) }

/-- `entry.pages.emplace`: an index that is already there keeps its page. -/
def emplaceIndex (index : Nat) (addr : Addr) (entry : LookupEntry) :
    LookupEntry :=
  match entry.pages.lookup index with
  | some _ => entry
  | none => { entry with pages := entry.pages.insert index addr }

/-- `m_lru.emplace_front` followed by `entry.pages.emplace`. -/
def emplaceFront (c : Cache) (page : Page) : Cache :=
  let addr := c.nextAddr
  { c with
      lru := addr :: c.lru
      heap := Function.update c.heap addr page
      nextAddr := addr + 1 }.modifyEntry page.key.id
    (emplaceIndex page.key.index addr)

/-- `entry.pages.erase(index)`. -/
def erasePage (c : Cache) (key : PageKey) : Cache :=
  c.modifyEntry key.id fun entry =>
    { entry with pages := entry.pages.erase key.index }

/-- `m_lru.splice(m_lru.begin(), m_lru, page)`. -/
def splice (c : Cache) (addr : Addr) : Cache :=
  { c with lru := addr :: c.lru.erase addr }

/-- `m_lru.erase(page)`. -/
def eraseLru (c : Cache) (addr : Addr) : Cache :=
  { c with lru := c.lru.erase addr }

def setDirty (c : Cache) (addr : Addr) (set : Bool) : Cache :=
  c.modifyPage addr fun page => page.setDirty set

/-- `promise.set_value`. -/
def setPromise (c : Cache) (fut : Fut) (value : Errc) : Cache :=
  { c with promises := Function.update c.promises fut (some value) }

/-- `m_read_queue.erase`. -/
def dequeue (c : Cache) (key : PageKey) : Cache :=
  { c with readQueue := c.readQueue.erase key }

/-- A fresh promise whose future is registered in `m_read_queue`, unless the
page is registered already. -/
def enqueue (c : Cache) (key : PageKey) : Cache × Fut :=
  let fut := c.nextFut
  ({ c with
      readQueue := match c.readQueue.lookup key with
        | some _ => c.readQueue
        | none => c.readQueue.insert key fut
      nextFut := fut + 1 }, fut)

def addReadInflight (n : Int) (entry : LookupEntry) : LookupEntry :=
  { entry with readInflight := entry.readInflight + n }

def addWriteInflight (n : Int) (entry : LookupEntry) : LookupEntry :=
  { entry with writeInflight := entry.writeInflight + n }

def setReadFd (fd : Option Fd) (entry : LookupEntry) : LookupEntry :=
  { entry with readFd := fd }

def setWriteFd (fd : Option Fd) (entry : LookupEntry) : LookupEntry :=
  { entry with writeFd := fd }

def setEntryDirty (set : Bool) (entry : LookupEntry) : LookupEntry :=
  { entry with dirty := set }

theorem lookup_modifyEntry (c : Cache) (id id' : Id)
    (f : LookupEntry → LookupEntry) :
    (c.modifyEntry id f).lookup id' =
      if id' = id then (c.lookup id).map f else c.lookup id' := by
  unfold modifyEntry
  cases hentry : c.lookup id with
  | none =>
      split_ifs with heq
      · rw [heq, hentry]
        rfl
      · rfl
  | some entry =>
      split_ifs with heq
      · subst heq
        exact AList.lookup_insert c.table
      · exact AList.lookup_insert_ne heq

theorem lookup_isSome_modifyEntry (c : Cache) (id id' : Id)
    (f : LookupEntry → LookupEntry) :
    ((c.modifyEntry id f).lookup id').isSome = (c.lookup id').isSome := by
  rw [lookup_modifyEntry]
  split_ifs with hid
  · rw [hid, Option.isSome_map]
  · rfl

theorem slot_modifyEntry (c : Cache) (id : Id) (f : LookupEntry → LookupEntry)
    (hpages : ∀ entry, (f entry).pages = entry.pages) (key : PageKey) :
    (c.modifyEntry id f).slot key = c.slot key := by
  simp only [slot, lookup_modifyEntry]
  split_ifs with heq
  · rw [heq]
    cases c.lookup id with
    | none => rfl
    | some entry => simp [hpages]
  · rfl

section Projections

variable (c : Cache) (id : Id) (f : LookupEntry → LookupEntry)

@[simp] theorem modifyEntry_lru : (c.modifyEntry id f).lru = c.lru := by
  unfold modifyEntry; split <;> rfl

@[simp] theorem modifyEntry_heap : (c.modifyEntry id f).heap = c.heap := by
  unfold modifyEntry; split <;> rfl

@[simp] theorem modifyEntry_readQueue :
    (c.modifyEntry id f).readQueue = c.readQueue := by
  unfold modifyEntry; split <;> rfl

@[simp] theorem modifyEntry_promises :
    (c.modifyEntry id f).promises = c.promises := by
  unfold modifyEntry; split <;> rfl

@[simp] theorem modifyEntry_pageSize :
    (c.modifyEntry id f).pageSize = c.pageSize := by
  unfold modifyEntry; split <;> rfl

@[simp] theorem modifyEntry_maxPages :
    (c.modifyEntry id f).maxPages = c.maxPages := by
  unfold modifyEntry; split <;> rfl

@[simp] theorem modifyEntry_nextAddr :
    (c.modifyEntry id f).nextAddr = c.nextAddr := by
  unfold modifyEntry; split <;> rfl

@[simp] theorem modifyEntry_nextFut :
    (c.modifyEntry id f).nextFut = c.nextFut := by
  unfold modifyEntry; split <;> rfl

end Projections

end Cache

end Madbfs
