/-
The counters that keep a descriptor open.  An entry counts the openers of its
file and the requests to the device that are under way; an operation that is
suspended while it uses a descriptor is counted by the entry of that file.
The text between two suspension points moves these counters together with the
uses of the operation, and leaves the openers alone.
-/
import Madbfs.Cache.Closing
import Madbfs.Cache.Parts

namespace Madbfs

/-- How many have the file open for this kind of access. -/
def LookupEntry.openers (entry : LookupEntry) : FdKind → Nat
  | .read => entry.reader
  | .write => entry.writer

/-- How many requests of this kind are under way. -/
def LookupEntry.inflight (entry : LookupEntry) : FdKind → Int
  | .read => entry.readInflight
  | .write => entry.writeInflight

namespace Cache

def openers (c : Cache) (use : Id × FdKind) : Nat :=
  ((c.lookup use.1).map fun entry => entry.openers use.2).getD 0

def inflight (c : Cache) (use : Id × FdKind) : Int :=
  ((c.lookup use.1).map fun entry => entry.inflight use.2).getD 0

/-- Only addresses that were handed out are listed. -/
def Listed (c : Cache) : Prop :=
  ∀ addr ∈ c.lru, addr < c.nextAddr

@[simp] theorem modifyEntry_staleFds (c : Cache) (id : Id)
    (f : LookupEntry → LookupEntry) :
    (c.modifyEntry id f).staleFds = c.staleFds := by
  unfold modifyEntry
  split <;> rfl

theorem openers_modifyEntry (c : Cache) (id : Id)
    {f : LookupEntry → LookupEntry}
    (hf : ∀ entry kind, (f entry).openers kind = entry.openers kind) :
    (c.modifyEntry id f).openers = c.openers := by
  funext use
  rw [openers, openers, lookup_modifyEntry]
  split_ifs with heq
  · rw [heq]
    cases c.lookup id with
    | none => rfl
    | some entry => exact hf entry use.2
  · rfl

/-- An update of an entry moves the counters of that entry. -/
theorem inflight_modifyEntry (c : Cache) (id : Id)
    {f : LookupEntry → LookupEntry} {n : FdKind → Int}
    (hf : ∀ entry kind, (f entry).inflight kind = entry.inflight kind + n kind)
    (use : Id × FdKind) :
    (c.modifyEntry id f).inflight use = c.inflight use +
      if use.1 = id ∧ (c.lookup id).isSome then n use.2 else 0 := by
  rw [inflight, inflight, lookup_modifyEntry]
  by_cases heq : use.1 = id
  · rw [if_pos heq, heq]
    cases c.lookup id with
    | none => simp
    | some entry => simpa using hf entry use.2
  · simp [heq]

/-- The text from one state to another, with what the operation uses in each:
the entry of a file counts every use of it. -/
structure Tally (s t : Cache × Multiset (Id × FdKind)) : Prop where
  openers : t.1.openers = s.1.openers
  stale : t.1.staleFds ⊆ s.1.staleFds
  next : s.1.nextAddr ≤ t.1.nextAddr
  key : ∀ addr < s.1.nextAddr, (t.1.heap addr).key = (s.1.heap addr).key
  listed : s.1.Listed → t.1.Listed
  inflight : ∀ use, s.1.inflight use + t.2.count use ≤
    t.1.inflight use + s.2.count use

/-- The same of text that registers no fetch. -/
structure Shift (s t : Cache × Multiset (Id × FdKind)) : Prop
    extends Tally s t where
  queue : ∀ key, (t.1.readQueue.lookup key).isSome →
    (s.1.readQueue.lookup key).isSome

section

variable {c c' : Cache} {s t u : Cache × Multiset (Id × FdKind)}
  {uses extra : Multiset (Id × FdKind)} {id : Id} {kind : FdKind}

theorem Tally.trans (hst : Tally s t) (htu : Tally t u) : Tally s u where
  openers := htu.openers.trans hst.openers
  stale := List.Subset.trans htu.stale hst.stale
  next := Nat.le_trans hst.next htu.next
  key addr hlt := (htu.key addr (Nat.lt_of_lt_of_le hlt hst.next)).trans
    (hst.key addr hlt)
  listed h := htu.listed (hst.listed h)
  inflight use := by
    have hfirst := hst.inflight use
    have hsecond := htu.inflight use
    omega

theorem Shift.refl (s : Cache × Multiset (Id × FdKind)) : Shift s s :=
  ⟨⟨rfl, List.Subset.refl _, Nat.le_refl _, fun _ _ => rfl, id,
    fun _ => Int.le_refl _⟩,
    fun _ h => h⟩

theorem Shift.trans (hst : Shift s t) (htu : Shift t u) : Shift s u :=
  ⟨hst.toTally.trans htu.toTally, fun key h => hst.queue key (htu.queue key h)⟩

/-- What else is used does not matter. -/
theorem Tally.frame (htally : Tally s t) (extra : Multiset (Id × FdKind)) :
    Tally (s.1, s.2 + extra) (t.1, t.2 + extra) where
  openers := htally.openers
  stale := htally.stale
  next := htally.next
  key := htally.key
  listed := htally.listed
  inflight use := by
    have hmoved := htally.inflight use
    rw [Multiset.count_add, Multiset.count_add]
    push_cast
    omega

theorem Shift.frame (hshift : Shift s t) (extra : Multiset (Id × FdKind)) :
    Shift (s.1, s.2 + extra) (t.1, t.2 + extra) :=
  ⟨hshift.toTally.frame extra, hshift.queue⟩

/-- Nothing stops an operation from using less. -/
theorem shift_drop (c : Cache) (uses : Multiset (Id × FdKind)) :
    Shift (c, uses) (c, 0) :=
  ⟨⟨rfl, List.Subset.refl _, Nat.le_refl _, fun _ _ => rfl, id,
    fun use => by simp⟩,
    fun _ h => h⟩

/-- An update of an entry that moves its counters by `n`. -/
theorem shift_modifyEntry (c : Cache) (id : Id)
    {f : LookupEntry → LookupEntry} {n : FdKind → Int}
    (hopeners : ∀ entry kind, (f entry).openers kind = entry.openers kind)
    (hinflight : ∀ entry kind,
      (f entry).inflight kind = entry.inflight kind + n kind)
    {uses uses' : Multiset (Id × FdKind)}
    (huses : ∀ use, (uses'.count use : Int) ≤ uses.count use +
      if use.1 = id ∧ (c.lookup id).isSome then n use.2 else 0) :
    Shift (c, uses) (c.modifyEntry id f, uses') where
  openers := openers_modifyEntry c id hopeners
  stale := by
    dsimp only
    rw [modifyEntry_staleFds]
    exact List.Subset.refl _
  next := Nat.le_of_eq (modifyEntry_nextAddr c id f).symm
  key addr _ := by
    dsimp only
    rw [modifyEntry_heap]
  listed h := by
    unfold Listed
    rw [modifyEntry_lru, modifyEntry_nextAddr]
    exact h
  inflight use := by
    have hmoved := huses use
    dsimp only
    rw [inflight_modifyEntry c id hinflight]
    omega
  queue key h := by
    rw [modifyEntry_readQueue] at h
    exact h

/-- An update that leaves the counters alone. -/
theorem shift_entry (c : Cache) (id : Id) (f : LookupEntry → LookupEntry)
    (hopeners : ∀ entry kind, (f entry).openers kind = entry.openers kind)
    (hinflight : ∀ entry kind,
      (f entry).inflight kind = entry.inflight kind)
    (uses : Multiset (Id × FdKind)) :
    Shift (c, uses) (c.modifyEntry id f, uses) := by
  refine shift_modifyEntry c id (n := fun _ => 0) hopeners ?_ fun use => ?_
  · intro entry kind
    rw [hinflight, Int.add_zero]
  · simp

/-- The scoped increment of a counter. -/
theorem shift_lock {f : LookupEntry → LookupEntry}
    (hopeners : ∀ entry k, (f entry).openers k = entry.openers k)
    (hinflight : ∀ entry k, (f entry).inflight k =
      entry.inflight k + if k = kind then 1 else 0)
    (hentry : (c.lookup id).isSome) (uses : Multiset (Id × FdKind)) :
    Shift (c, uses) (c.modifyEntry id f, (id, kind) ::ₘ uses) := by
  refine shift_modifyEntry c id hopeners hinflight fun use => ?_
  obtain ⟨id', k⟩ := use
  by_cases hid : id' = id
  · by_cases hk : k = kind
    · simp [hid, hk, hentry]
    · simp [hid, hk]
  · simp [hid]

/-- The end of the scope. -/
theorem shift_release {f : LookupEntry → LookupEntry}
    (hopeners : ∀ entry k, (f entry).openers k = entry.openers k)
    (hinflight : ∀ entry k, (f entry).inflight k =
      entry.inflight k + if k = kind then -1 else 0)
    (uses : Multiset (Id × FdKind)) :
    Shift (c, (id, kind) ::ₘ uses) (c.modifyEntry id f, uses) := by
  refine shift_modifyEntry c id hopeners hinflight fun use => ?_
  obtain ⟨id', k⟩ := use
  by_cases hid : id' = id
  · by_cases hk : k = kind
    · simp only [hid, hk, Multiset.count_cons_self]
      split_ifs <;> omega
    · simp [hid, hk]
  · simp [hid]

/-- Pages leave the list or move in it. -/
theorem shift_lru (c : Cache) {lru : List Addr} (hsub : lru ⊆ c.lru)
    (uses : Multiset (Id × FdKind)) :
    Shift (c, uses) ({ c with lru := lru }, uses) :=
  ⟨⟨rfl, List.Subset.refl _, Nat.le_refl _, fun _ _ => rfl,
    fun h addr hmem => h addr (hsub hmem), fun _ => Int.le_refl _⟩,
    fun _ h => h⟩

/-- A page changes and stays the page of its key. -/
theorem shift_modifyPage (c : Cache) (addr : Addr) {f : Page → Page}
    (hkey : (f (c.heap addr)).key = (c.heap addr).key)
    (uses : Multiset (Id × FdKind)) :
    Shift (c, uses) (c.modifyPage addr f, uses) := by
  refine ⟨⟨rfl, List.Subset.refl _, Nat.le_refl _, fun addr' _ => ?_,
    fun h => h,
    fun _ => Int.le_refl _⟩, fun _ h => h⟩
  by_cases heq : addr' = addr
  · subst heq
    simpa [modifyPage] using hkey
  · simp [modifyPage, heq]

theorem shift_emplaceFront (c : Cache) (page : Page)
    (uses : Multiset (Id × FdKind)) :
    Shift (c, uses) (c.emplaceFront page, uses) := by
  unfold emplaceFront
  refine Shift.trans (t := ({ c with
    lru := c.nextAddr :: c.lru
    heap := Function.update c.heap c.nextAddr page
    nextAddr := c.nextAddr + 1 }, uses))
    ⟨⟨rfl, List.Subset.refl _, Nat.le_succ _, ?_, ?_,
      fun _ => Int.le_refl _⟩, fun _ h => h⟩
    (shift_entry _ _ _ ?_ ?_ uses)
  · intro addr hlt
    have hne : addr ≠ c.nextAddr := Nat.ne_of_lt hlt
    simp [hne]
  · intro hlisted addr hmem
    rcases List.mem_cons.mp hmem with rfl | hmem
    · exact Nat.lt_succ_self _
    · exact Nat.lt_succ_of_lt (hlisted addr hmem)
  · intro entry kind
    unfold emplaceIndex
    split <;> rfl
  · intro entry kind
    unfold emplaceIndex
    split <;> rfl

theorem shift_setPromise (c : Cache) (fut : Fut) (value : Errc)
    (uses : Multiset (Id × FdKind)) :
    Shift (c, uses) (c.setPromise fut value, uses) :=
  ⟨⟨rfl, List.Subset.refl _, Nat.le_refl _, fun _ _ => rfl, fun h => h,
    fun _ => Int.le_refl _⟩, fun _ h => h⟩

theorem shift_dequeue (c : Cache) (key : PageKey)
    (uses : Multiset (Id × FdKind)) :
    Shift (c, uses) (c.dequeue key, uses) := by
  refine ⟨⟨rfl, List.Subset.refl _, Nat.le_refl _, fun _ _ => rfl, fun h => h,
    fun _ => Int.le_refl _⟩, fun key' h => ?_⟩
  rw [lookup_dequeue] at h
  split_ifs at h with heq
  · cases h
  · exact h

theorem shift_erasePage (c : Cache) (key : PageKey)
    (uses : Multiset (Id × FdKind)) :
    Shift (c, uses) (c.erasePage key, uses) :=
  shift_entry c key.id
    (fun entry => { entry with pages := entry.pages.erase key.index })
    (fun _ _ => rfl) (fun _ _ => rfl) uses

theorem shift_addReadInflight (hentry : (c.lookup id).isSome)
    (uses : Multiset (Id × FdKind)) :
    Shift (c, uses)
      (c.modifyEntry id (addReadInflight 1), (id, .read) ::ₘ uses) := by
  apply shift_lock _ _ hentry
  · exact fun _ _ => rfl
  · intro entry k
    cases k
    · rfl
    · exact (Int.add_zero _).symm

theorem shift_addWriteInflight (hentry : (c.lookup id).isSome)
    (uses : Multiset (Id × FdKind)) :
    Shift (c, uses)
      (c.modifyEntry id (addWriteInflight 1), (id, .write) ::ₘ uses) := by
  apply shift_lock _ _ hentry
  · exact fun _ _ => rfl
  · intro entry k
    cases k
    · exact (Int.add_zero _).symm
    · rfl

theorem shift_subReadInflight (c : Cache) (id : Id)
    (uses : Multiset (Id × FdKind)) :
    Shift (c, (id, .read) ::ₘ uses)
      (c.modifyEntry id (addReadInflight (-1)), uses) := by
  apply shift_release
  · exact fun _ _ => rfl
  · intro entry k
    cases k
    · rfl
    · exact (Int.add_zero _).symm

theorem shift_subWriteInflight (c : Cache) (id : Id)
    (uses : Multiset (Id × FdKind)) :
    Shift (c, (id, .write) ::ₘ uses)
      (c.modifyEntry id (addWriteInflight (-1)), uses) := by
  apply shift_release
  · exact fun _ _ => rfl
  · intro entry k
    cases k
    · exact (Int.add_zero _).symm
    · rfl

end

end Cache

end Madbfs
