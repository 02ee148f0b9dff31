/-
The order in which pages are evicted.  When pages are accessed one at a time on
a device without faults, the list holds the pages that were used last, the
latest one at the front: a page that is there moves to the front, another one
is inserted there, and the eviction that follows cuts the list at its end.
-/
import Madbfs.Cache.Popped
import Madbfs.Recency
import Madbfs.Run

namespace Madbfs

open Bytes Recency

namespace Cache

/-- The keys of the pages in the list, the most recently used one first. -/
def keys (c : Cache) : List PageKey :=
  c.lru.map fun addr => (c.heap addr).key

/-- The cache between two accesses. -/
structure Settled (c : Cache) : Prop where
  layout : Layout c 0
  queue : c.readQueue = ∅
  length_le : c.lru.length ≤ c.maxPages
  pos : 0 < c.maxPages

/-- What an access leaves alone. -/
structure Beside (c c' : Cache) : Prop where
  maxPages : c'.maxPages = c.maxPages
  lookup : ∀ id, (c'.lookup id).isSome = (c.lookup id).isSome

/-- What an access leaves: its page is the most recently used one. -/
structure Touched (c : Cache) (key : PageKey) (c' : Cache) : Prop
    extends Beside c c' where
  layout : Layout c' 0
  queue : c'.readQueue = ∅
  keys : c'.keys = touch c.maxPages key c.keys

section

variable {c c₁ c₂ c' : Cache} {key : PageKey} {addr : Addr} {size : Nat}

theorem Beside.refl (c : Cache) : Beside c c :=
  ⟨rfl, fun _ => rfl⟩

theorem Beside.trans (hleft : Beside c c₁) (hright : Beside c₁ c') :
    Beside c c' where
  maxPages := hright.maxPages.trans hleft.maxPages
  lookup id := (hright.lookup id).trans (hleft.lookup id)

theorem beside_modifyEntry (c : Cache) (id : Id)
    (f : LookupEntry → LookupEntry) : Beside c (c.modifyEntry id f) where
  maxPages := modifyEntry_maxPages c id f
  lookup id' := lookup_isSome_modifyEntry c id id' f

theorem lookup_isSome_eq (c : Cache) (id : Id) :
    (c.lookup id).isSome = (c.headOf id).isSome := by
  rw [headOf, Option.isSome_map]

theorem beside_acts {G : Grant} {s t : Cache × Multiset Addr}
    (hacts : Acts G s t) : Beside s.1 t.1 where
  maxPages := hacts.maxPages_eq
  lookup id := by
    rw [lookup_isSome_eq, lookup_isSome_eq, hacts.headOf_eq id]

theorem Layout.slot_of_mem_keys (hlayout : Layout c 0) (hmem : key ∈ c.keys) :
    ∃ addr, c.slot key = some addr := by
  obtain ⟨addr, haddr, rfl⟩ := List.mem_map.mp hmem
  exact ⟨addr, hlayout.slot_of_live addr (mem_live_of_mem_lru haddr)⟩

/-- Moving a page to the front moves its key. -/
theorem keys_splice (hlayout : Layout c 0) (hmem : addr ∈ c.lru) :
    (c.splice addr).keys =
      (c.heap addr).key :: c.keys.erase (c.heap addr).key := by
  have hinj : ∀ left ∈ c.lru, ∀ right ∈ c.lru,
      (c.heap left).key = (c.heap right).key → left = right :=
    fun left hleft right hright => hlayout.key_inj (mem_live_of_mem_lru hleft)
      (mem_live_of_mem_lru hright)
  have herase : ∀ lru : List Addr, (∀ a ∈ lru, a ∈ c.lru) →
      (lru.erase addr).map (fun addr => (c.heap addr).key) =
        (lru.map fun addr => (c.heap addr).key).erase (c.heap addr).key := by
    intro lru hsub
    induction lru with
    | nil => rfl
    | cons first lru ih =>
        have hfirst := hsub first List.mem_cons_self
        have hrest := ih fun a ha => hsub a (List.mem_cons_of_mem first ha)
        by_cases heq : first = addr
        · subst heq
          rw [List.erase_cons_head, List.map_cons, List.erase_cons_head]
        · have hkey : (c.heap first).key ≠ (c.heap addr).key :=
            fun h => heq (hinj first hfirst addr hmem h)
          rw [List.erase_cons_tail (by simpa using heq), List.map_cons,
            List.map_cons, List.erase_cons_tail (by simpa using hkey), hrest]
  exact congrArg _ (herase c.lru fun _ h => h)

/-- An access has its page in the list: it was there, or it has just been
inserted and the list was cut. -/
structure Positioned (c : Cache) (key : PageKey) (addr : Addr) (c' : Cache) :
    Prop extends Beside c c' where
  layout : Layout c' 0
  queue : c'.readQueue = ∅
  slot : c'.slot key = some addr
  keys : c'.keys = c.keys ∧ c.keys.length ≤ c.maxPages ∨
    key ∉ c.keys ∧ c'.keys = (key :: c.keys).take c.maxPages

/-- Either way the key is touched when the page moves to the front. -/
theorem Positioned.keys_splice (hpositioned : Positioned c key addr c') :
    (c'.splice addr).keys = touch c.maxPages key c.keys := by
  obtain ⟨hmem, hkey⟩ := hpositioned.layout.mem_lru hpositioned.slot
  have hkeys := Cache.keys_splice hpositioned.layout hmem
  rw [hkey] at hkeys
  have hin : key ∈ c'.keys := by
    rw [← hkey]
    exact List.mem_map_of_mem hmem
  rw [hkeys, touch]
  rcases hpositioned.keys with ⟨hsame, hle⟩ | ⟨hnew, hcut⟩
  · rw [hsame] at hin ⊢
    have hpos := List.length_pos_of_mem hin
    rw [List.take_of_length_le]
    rw [List.length_cons, List.length_erase_of_mem hin]
    omega
  · rw [hcut] at hin ⊢
    cases hmax : c.maxPages with
    | zero =>
        rw [hmax] at hin
        cases hin
    | succ bound =>
        rw [List.take_succ_cons, List.take_succ_cons, List.erase_cons_head,
          List.erase_of_not_mem hnew]

/-- The end of an access, for `read_at` and for `write_at`. -/
theorem Positioned.touched (hpositioned : Positioned c key addr c₁)
    (hlayout : Layout c' 0) (hqueue : c'.readQueue = c₁.readQueue)
    (hkeys : c'.keys = (c₁.splice addr).keys) (hbeside : Beside c₁ c') :
    Touched c key c' where
  toBeside := hpositioned.toBeside.trans hbeside
  layout := hlayout
  queue := hqueue.trans hpositioned.queue
  keys := hkeys.trans hpositioned.keys_splice

/-- An eviction of `size` pages of the cache `c` that is on the way. -/
structure Evicts (c : Cache) (size : Nat) (c' : Cache) (pc : EvictPc) :
    Prop where
  popped : Popped c (c', {pc.page})
  length : c'.lru.length + size = c.lru.length + pc.rest
  dirty : ∀ page rest, pc = .opening page rest → (c.heap page).dirty = true
  acts : Acts (layoutGrant fun _ => True) (c, 0) (c', {pc.page})
  queue : c'.readQueue = c.readQueue

/-- An eviction of `size` pages of the cache `c` that is over. -/
structure Evicted (c : Cache) (size : Nat) (c' : Cache) : Prop where
  popped : Popped c (c', 0)
  length : c'.lru.length = c.lru.length - size
  acts : Acts (layoutGrant fun _ => True) (c, 0) (c', 0)
  queue : c'.readQueue = c.readQueue

theorem evict_evicts (hlayout : Layout c 0) (size : Nat) :
    Flow.Ensures (evict size c) (Evicts c size)
      fun c' _ => Evicted c size c' := by
  have hevicting := evict_evicting hlayout size
  have hruns := evict_evictRuns size c 0
  generalize evict size c = x at hevicting hruns
  obtain ⟨c', pc | _ | _⟩ := x
  · exact ⟨hevicting.1, hevicting.2.1, hevicting.2.2, hruns.1.acts _,
      congrArg Futures.readQueue hruns.1.futures_eq⟩
  · have hmoves : Moves (c, 0) (c', 0) := hruns
    exact ⟨hevicting.1, hevicting.2, hmoves.acts _,
      congrArg Futures.readQueue hmoves.futures_eq⟩
  · trivial

theorem evictResume_evicts {pc : EvictPc} {reply : Reply}
    {x : Cache × Flow EvictPc Unit} (hevicts : Evicts c size c₁ pc)
    (hx : c₁.evictResume pc reply = some x) (hopens : EvictOpens pc reply) :
    Flow.Ensures x (Evicts c size) fun c' _ => Evicted c size c' := by
  have hevicting :=
    evictResume_evicting hx hevicts.popped hevicts.length hevicts.dirty
  rcases evictResume_cases 0 hx with
    ⟨addr, fd, rest, pc', rfl, -, -, rfl⟩ | ⟨c₂, start, hbegin, hruns⟩
  · exact ⟨hevicting.1, hevicting.2.1, hevicting.2.2, hevicts.acts,
      hevicts.queue⟩
  · have hacts := hevicts.acts.trans
      (hbegin.acts (evictAllowed_of_opens hopens))
    have hqueue := congrArg Futures.readQueue hbegin.futures_eq
    obtain ⟨c', pc' | _ | _⟩ := x
    · exact ⟨hevicting.1, hevicting.2.1, hevicting.2.2,
        hacts.trans (hruns.1.acts _),
        (congrArg Futures.readQueue hruns.1.futures_eq).trans
          (hqueue.trans hevicts.queue)⟩
    · have hmoves : Moves (c₂, start) (c', 0) := hruns
      exact ⟨hevicting.1, hevicting.2, hacts.trans (hmoves.acts _),
        (congrArg Futures.readQueue hmoves.futures_eq).trans
          (hqueue.trans hevicts.queue)⟩
    · trivial

/-- An access has inserted its page. -/
structure Inserted (c : Cache) (key : PageKey) (addr : Addr) (c' : Cache) :
    Prop extends Beside c c' where
  layout : Layout c' 0
  queue : c'.readQueue = ∅
  slot : c'.slot key = some addr
  lru : c'.lru = addr :: c.lru
  keys : c'.keys = key :: c.keys
  new : key ∉ c.keys

/-- The eviction after an insertion leaves the page that was inserted. -/
theorem Evicted.positioned (hinserted : Inserted c key addr c₁)
    (hpos : 0 < c.maxPages)
    (hevicted : Evicted c₁ (c₁.lru.length - c₁.maxPages) c') :
    Positioned c key addr c' := by
  have hlayout : Layout c' 0 := Layout.acts hevicted.acts hinserted.layout
  have htake := List.prefix_iff_eq_take.mp hevicted.popped.lru
  have hlength := hevicted.length
  have hmax := hinserted.maxPages
  have hlru : c₁.lru.length = c.lru.length + 1 := by
    rw [hinserted.lru, List.length_cons]
  have hkeys : c'.keys = (key :: c.keys).take c.maxPages := by
    have hold : c'.keys = c'.lru.map fun addr => (c₁.heap addr).key :=
      List.map_congr_left fun addr _ => hevicted.popped.key addr
    have hcount : c.keys.length = c.lru.length := List.length_map _
    rw [hold, htake, List.map_take, hlength]
    change c₁.keys.take _ = _
    rw [hinserted.keys, List.take_eq_take_iff, List.length_cons]
    omega
  have hmem : addr ∈ c'.lru := by
    cases hsize : c'.lru.length with
    | zero => omega
    | succ n =>
        rw [htake, hsize, hinserted.lru, List.take_succ_cons]
        exact List.mem_cons_self
  have hslot := hlayout.slot_of_live addr (mem_live_of_mem_lru hmem)
  rw [show (c'.heap addr).key = (c₁.heap addr).key from
    hevicted.popped.key addr, (hinserted.layout.mem_lru hinserted.slot).2]
    at hslot
  exact ⟨hinserted.toBeside.trans (beside_acts hevicted.acts), hlayout,
    hevicted.queue.trans hinserted.queue, hslot, .inr ⟨hinserted.new, hkeys⟩⟩

theorem readAtFinish_touched {π : Type} {r : Range}
    (hpositioned : Positioned c r.key addr c₁) :
    ∃ c' bytes, c₁.readAtFinish (π := π) r addr = (c', .done (.ok bytes)) ∧
      Touched c r.key c' := by
  have hmem := (hpositioned.layout.mem_lru hpositioned.slot).1
  have hsplice : Beside c₁ (c₁.splice addr) := ⟨rfl, fun _ => rfl⟩
  rw [readAtFinish, if_pos ⟨hpositioned.slot, hmem⟩]
  refine ⟨_, _, rfl, hpositioned.touched ?_ ?_ ?_ ?_⟩
  · exact (hpositioned.layout.splice hmem).modifyEntry _ fun _ => rfl
  · exact modifyEntry_readQueue _ _ _
  · simp [keys]
  · exact hsplice.trans (beside_modifyEntry _ _ _)

theorem writeAtFinish_touched {π : Type} {r : Range} (input : List Byte)
    (hpositioned : Positioned c r.key addr c₁) :
    ∃ c' n, c₁.writeAtFinish (π := π) r input addr = (c', .done (.ok n)) ∧
      Touched c r.key c' := by
  have hmem := (hpositioned.layout.mem_lru hpositioned.slot).1
  rw [writeAtFinish, if_pos ⟨hpositioned.slot, hmem⟩]
  refine ⟨_, _, rfl, hpositioned.touched ?_ rfl ?_ ⟨rfl, fun _ => rfl⟩⟩
  · exact (hpositioned.layout.splice hmem).modifyPage (Page.write_key _ _ _)
  · apply List.map_congr_left
    intro addr' _
    exact key_modifyPage (Page.write_key _ _ _) addr'

/-- What the eviction after an insertion ends with. -/
theorem evictExcess_eq (c : Cache) :
    c.evictExcess = evict (c.lru.length - c.maxPages) c := by
  rw [evictExcess]
  split_ifs with hexcess
  · rfl
  · have hzero : c.lru.length - c.maxPages = 0 := by omega
    rw [hzero, evict]

/-- A page that is there. -/
theorem Settled.positioned (hsettled : Settled c)
    (hslot : c.slot key = some addr) (hbeside : Beside c c')
    (hlayout : Layout c' 0) (hqueue : c'.readQueue = c.readQueue)
    (hslot' : c'.slot key = c.slot key) (hkeys : c'.keys = c.keys) :
    Positioned c key addr c' where
  toBeside := hbeside
  layout := hlayout
  queue := hqueue.trans hsettled.queue
  slot := hslot'.trans hslot
  keys := .inl ⟨hkeys, by
    rw [keys, List.length_map]
    exact hsettled.length_le⟩

end

end Cache

/-- The device has not failed. -/
def Reply.Succeeds : Reply → Prop
  | .go => True
  | .opened res => res.isOk = true
  | .closed res => res.isOk = true
  | .fetched res => res.isOk = true
  | .written res => res.isOk = true

namespace Cache

/-- The states of a `read_at` that runs alone on a device without faults. -/
inductive ReadRun (c : Cache) (r : Range) : Cache → Task → Prop
  | start : ReadRun c r c (.readAt r .start)
  | opening (c' : Cache) (hlayout : Layout c' 0) (hbeside : Beside c c')
      (hlru : c'.lru = c.lru) (hkeys : c'.keys = c.keys)
      (hslot : c'.slot r.key = none) (hqueue : c'.readQueue = ∅) :
      ReadRun c r c' (.readAt r .opening)
  | fetching (c' : Cache) (fd : Fd) (fut : Fut) (hlayout : Layout c' 0)
      (hbeside : Beside c c') (hlru : c'.lru = c.lru)
      (hkeys : c'.keys = c.keys) (hslot : c'.slot r.key = none)
      (hqueue : c'.readQueue = AList.insert r.key fut ∅) :
      ReadRun c r c' (.readAt r (.fetching fd fut))
  | evicting (c₁ c' : Cache) (addr : Addr) (pc : EvictPc)
      (hinserted : Inserted c r.key addr c₁)
      (hevicts : Evicts c₁ (c₁.lru.length - c₁.maxPages) c' pc) :
      ReadRun c r c' (.readAt r (.evicting addr pc))
  | done (c' : Cache) (bytes : List Byte) (htouched : Touched c r.key c') :
      ReadRun c r c' (.didRead r (.ok bytes))

section

variable {c c₁ c' : Cache} {r : Range} {addr : Addr} {reply : Reply}

/-- A device without faults opens the file an eviction asks for. -/
theorem evictOpens_of_succeeds {pc : EvictPc} (hreply : reply.Succeeds) :
    EvictOpens pc reply := by
  cases pc with
  | flushing => trivial
  | opening addr rest =>
      cases reply with
      | opened res =>
          cases res with
          | error err => cases hreply
          | ok fd => trivial
      | _ => trivial

theorem readRun_evict (hinserted : Inserted c r.key addr c₁)
    (hpos : 0 < c.maxPages) {x : Cache × Flow EvictPc Unit}
    (hx : Flow.Ensures x (Evicts c₁ (c₁.lru.length - c₁.maxPages))
      fun c' _ => Evicted c₁ (c₁.lru.length - c₁.maxPages) c')
    (hcrash : x.2 ≠ .crash) :
    ReadRun c r
      (Task.ofFlow (.readAt r) (.didRead r)
        (Flow.andThen x (.evicting addr) fun c _ => c.readAtFinish r addr)).1
      (Task.ofFlow (.readAt r) (.didRead r)
        (Flow.andThen x (.evicting addr) fun c _ =>
          c.readAtFinish r addr)).2 := by
  obtain ⟨c', pc | _ | _⟩ := x
  · exact .evicting c₁ c' addr pc hinserted hx
  · obtain ⟨c₂, bytes, hfinish, htouched⟩ :=
      readAtFinish_touched (π := ReadAtPc)
        (Evicted.positioned hinserted hpos hx)
    simp only [Flow.andThen, hfinish]
    exact .done c₂ bytes htouched
  · exact absurd rfl hcrash

theorem ReadRun.fetch (hlayout : Layout c' 0) (hbeside : Beside c c')
    (hlru : c'.lru = c.lru) (hkeys : c'.keys = c.keys)
    (hslot : c'.slot r.key = none) (hqueue : c'.readQueue = ∅) (fd : Fd) :
    ReadRun c r
      (Task.ofFlow (.readAt r) (.didRead r) (c'.readAtFetch r fd)).1
      (Task.ofFlow (.readAt r) (.didRead r) (c'.readAtFetch r fd)).2 := by
  have henqueue : (c'.enqueue r.key).1.readQueue =
      AList.insert r.key (c'.enqueue r.key).2 ∅ := by
    simp [enqueue, hqueue]
  have hfrom : Layout (c'.enqueue r.key).1 0 :=
    hlayout.congr rfl (fun _ => rfl) (fun _ => rfl) rfl
  exact .fetching _ fd _ hfrom (hbeside.trans ⟨rfl, fun _ => rfl⟩) hlru hkeys
    hslot henqueue

/-- A read that begins: it ends, or it waits for its file or for its page. -/
theorem ReadRun.lookup (hsettled : Settled c) (hsome : (c.lookup r.id).isSome)
    {f : LookupEntry → LookupEntry}
    (hpages : ∀ entry, (f entry).pages = entry.pages) :
    ReadRun c r
      (Task.ofFlow (.readAt r) (.didRead r)
        ((c.modifyEntry r.id f).readAtLookup r)).1
      (Task.ofFlow (.readAt r) (.didRead r)
        ((c.modifyEntry r.id f).readAtLookup r)).2 := by
  have hlayout : Layout (c.modifyEntry r.id f) 0 :=
    hsettled.layout.modifyEntry r.id hpages
  have hbeside := beside_modifyEntry c r.id f
  have hkeys : (c.modifyEntry r.id f).keys = c.keys := by
    simp [keys]
  have hqueue : (c.modifyEntry r.id f).readQueue = c.readQueue :=
    modifyEntry_readQueue c r.id f
  have hslots := c.slot_modifyEntry r.id f hpages r.key
  obtain ⟨entry, hentry⟩ := Option.isSome_iff_exists.mp
    ((hbeside.lookup r.id).trans hsome)
  have hslot : (c.modifyEntry r.id f).slot r.key =
      entry.pages.lookup r.index := by
    simp [slot, Range.key, hentry]
  rw [readAtLookup, hentry]
  dsimp only
  cases hpage : entry.pages.lookup r.index with
  | some addr =>
      obtain ⟨c₂, bytes, hfinish, htouched⟩ :=
        readAtFinish_touched (π := ReadAtPc) (hsettled.positioned
          (hslots.symm.trans (hslot.trans hpage)) hbeside hlayout hqueue hslots
          hkeys)
      dsimp only
      rw [hfinish]
      exact .done c₂ bytes htouched
  | none =>
      have hmiss := hslot.trans hpage
      cases hfd : entry.readFd with
      | none =>
          exact .opening _ hlayout hbeside (modifyEntry_lru c r.id f) hkeys
            hmiss (hqueue.trans hsettled.queue)
      | some fd =>
          exact .fetch hlayout hbeside (modifyEntry_lru c r.id f) hkeys hmiss
            (hqueue.trans hsettled.queue) fd

/-- A new page is inserted at the front, whatever happens to the futures. -/
theorem inserted_emplaceFront (hlayout : Layout c' 0) (hbeside : Beside c c')
    (hlru : c'.lru = c.lru) (hkeys : c'.keys = c.keys) (page : Page)
    (hsome : (c.lookup page.key.id).isSome) (hslot : c'.slot page.key = none)
    (hqueue : c₁.readQueue = ∅)
    (hfields : c₁.lru = (c'.emplaceFront page).lru ∧
      c₁.heap = (c'.emplaceFront page).heap ∧
      c₁.table = (c'.emplaceFront page).table ∧
      c₁.nextAddr = (c'.emplaceFront page).nextAddr ∧
      c₁.maxPages = (c'.emplaceFront page).maxPages) :
    Inserted c page.key c'.nextAddr c₁ := by
  obtain ⟨hlru₁, hheap₁, htable₁, hnext₁, hmax₁⟩ := hfields
  have hentry : (c'.lookup page.key.id).isSome :=
    (hbeside.lookup page.key.id).trans hsome
  have hslots : ∀ key, c₁.slot key = (c'.emplaceFront page).slot key := by
    intro key
    rw [slot, slot, Cache.lookup, Cache.lookup, htable₁]
  have hinsert := hlayout.emplaceFront hentry hslot
  have hold : ∀ addr ∈ c'.lru, (c₁.heap addr).key = (c'.heap addr).key := by
    intro addr hmem
    have hlt := hlayout.lt_next addr (mem_live_of_mem_lru hmem)
    rw [hheap₁, emplaceFront_heap, Function.update_of_ne (Nat.ne_of_lt hlt)]
  refine ⟨hbeside.trans ⟨?_, fun id => ?_⟩, ?_, hqueue, ?_, ?_, ?_, ?_⟩
  · rw [hmax₁, emplaceFront_maxPages]
  · have hemplace := lookup_emplaceFront c' page id
    rw [Cache.lookup, htable₁]
    rw [Cache.lookup] at hemplace
    rw [hemplace]
    split_ifs with hid
    · rw [hid, Option.isSome_map]
    · rfl
  · exact hinsert.congr (by rw [live, live, hlru₁]) (fun addr => by rw [hheap₁])
      hslots hnext₁
  · rw [hslots, slot_emplaceFront hentry hslot, if_pos rfl]
  · rw [hlru₁, emplaceFront_lru, hlru]
  · rw [keys, hlru₁, emplaceFront_lru, List.map_cons, hheap₁, emplaceFront_heap,
      Function.update_self, ← hkeys, ← emplaceFront_heap, ← hheap₁]
    exact congrArg _ (List.map_congr_left hold)
  · intro hmem
    rw [← hkeys] at hmem
    obtain ⟨addr, haddr⟩ := hlayout.slot_of_mem_keys hmem
    rw [hslot] at haddr
    cases haddr

/-- A read with its page: the page is inserted and the list is cut. -/
theorem ReadRun.insert (hpos : 0 < c.maxPages)
    (hsome : (c.lookup r.id).isSome) (hlayout : Layout c' 0)
    (hbeside : Beside c c') (hlru : c'.lru = c.lru) (hkeys : c'.keys = c.keys)
    (hslot : c'.slot r.key = none) {fut : Fut}
    (hqueue : c'.readQueue = AList.insert r.key fut ∅) (bytes : List Byte) :
    ReadRun c r
      (Task.ofFlow (.readAt r) (.didRead r) (c'.readAtInsert r fut bytes)).1
      (Task.ofFlow (.readAt r) (.didRead r)
        (c'.readAtInsert r fut bytes)).2 := by
  have hempty : (c'.inserted r fut bytes).readQueue = ∅ := by
    have herase : (AList.insert r.key fut ∅).erase r.key =
        (∅ : AList fun _ : PageKey => Fut) := by
      apply AList.ext
      change List.kerase r.key (AList.insert r.key fut
        (∅ : AList fun _ : PageKey => Fut)).entries = []
      rw [AList.entries_insert]
      have hhead := List.kerase_cons_eq
        (s := (⟨r.key, fut⟩ : Sigma fun _ : PageKey => Fut))
        (l := List.kerase r.key []) rfl
      exact hhead
    rw [← herase, ← hqueue,
      ← emplaceFront_readQueue c' (c'.fetchedPage r.key bytes)]
    rfl
  have hinserted : Inserted c r.key c'.nextAddr (c'.inserted r fut bytes) :=
    inserted_emplaceFront hlayout hbeside hlru hkeys _ hsome hslot hempty
      ⟨rfl, rfl, rfl, rfl, rfl⟩
  have hslot' : (c'.emplaceFront (c'.fetchedPage r.key bytes)).slot r.key =
      some c'.nextAddr := hinserted.slot
  rw [readAtInsert]
  dsimp only
  rw [hslot']
  dsimp only
  rw [evictExcess_eq]
  exact readRun_evict hinserted hpos (evict_evicts hinserted.layout _)
    (evict_ne_crash _ _)

/-- One resumption of a read that runs alone. -/
theorem ReadRun.resume (hsettled : Settled c) (hsome : (c.lookup r.id).isSome)
    {task task' : Task} {c'' : Cache} (hrun : ReadRun c r c' task)
    (hresume : task.resume c' reply = some (c'', task'))
    (hreply : reply.Succeeds) : ReadRun c r c'' task' := by
  cases hrun with
  | start =>
      obtain ⟨x, hx, hof⟩ := Option.map_eq_some_iff.mp hresume
      cases reply with
      | go =>
          have hnone : (c.modifyEntry r.id (addReadInflight 1)).readQueue.lookup
              r.key = none := by
            rw [modifyEntry_readQueue, hsettled.queue]
            rfl
          simp only [readAtResume, hnone, Option.some.injEq] at hx
          subst hx
          have hlookup := ReadRun.lookup hsettled hsome
            (f := addReadInflight 1) fun _ => rfl
          rw [hof] at hlookup
          exact hlookup
      | _ => cases hx
  | opening c' hlayout hbeside hlru hkeys hslot hqueue =>
      obtain ⟨x, hx, hof⟩ := Option.map_eq_some_iff.mp hresume
      cases reply with
      | opened res =>
          cases res with
          | error err => cases hreply
          | ok fd =>
              obtain rfl := Option.some.inj hx
              have hfetch := ReadRun.fetch
                (hlayout.modifyEntry r.id (f := setReadFd (some fd))
                  fun _ => rfl)
                (hbeside.trans (beside_modifyEntry c' r.id _))
                ((modifyEntry_lru c' r.id _).trans hlru)
                (by simpa [keys] using hkeys)
                ((c'.slot_modifyEntry r.id (setReadFd (some fd))
                  (fun _ => rfl) r.key).trans hslot)
                ((modifyEntry_readQueue c' r.id _).trans hqueue) fd
              rw [hof] at hfetch
              exact hfetch
      | _ => cases hx
  | fetching c' fd fut hlayout hbeside hlru hkeys hslot hqueue =>
      obtain ⟨x, hx, hof⟩ := Option.map_eq_some_iff.mp hresume
      cases reply with
      | fetched res =>
          cases res with
          | error err => cases hreply
          | ok bytes =>
              have hfut : c'.readQueue.lookup r.key = some fut := by
                rw [hqueue, AList.lookup_insert]
              simp only [readAtResume, hfut, Option.some.injEq] at hx
              subst hx
              have hinsert := ReadRun.insert hsettled.pos hsome hlayout hbeside
                hlru hkeys hslot hqueue bytes
              rw [hof] at hinsert
              exact hinsert
      | _ => cases hx
  | evicting c₁ c' addr pc hinserted hevicts =>
      obtain ⟨x, hx, hof⟩ := Option.map_eq_some_iff.mp hresume
      obtain ⟨y, hy, rfl⟩ := Option.map_eq_some_iff.mp hx
      have hevict := readRun_evict (r := r) hinserted hsettled.pos
        (evictResume_evicts hevicts hy (evictOpens_of_succeeds hreply))
        (evictResume_ne_crash hy)
      rw [hof] at hevict
      exact hevict
  | done c' bytes htouched => cases hresume

/-- The states of a `write_at` that runs alone on a device without faults. -/
inductive WriteRun (c : Cache) (r : Range) (input : List Byte) :
    Cache → Task → Prop
  | start : WriteRun c r input c (.writeAt r input .start)
  | evicting (c₁ c' : Cache) (addr : Addr) (pc : EvictPc)
      (hinserted : Inserted c r.key addr c₁)
      (hevicts : Evicts c₁ (c₁.lru.length - c₁.maxPages) c' pc) :
      WriteRun c r input c' (.writeAt r input (.evicting addr pc))
  | done (c' : Cache) (n : Nat) (htouched : Touched c r.key c') :
      WriteRun c r input c' (.didWrite r (.ok n))

theorem writeRun_evict (input : List Byte)
    (hinserted : Inserted c r.key addr c₁)
    (hpos : 0 < c.maxPages) {x : Cache × Flow EvictPc Unit}
    (hx : Flow.Ensures x (Evicts c₁ (c₁.lru.length - c₁.maxPages))
      fun c' _ => Evicted c₁ (c₁.lru.length - c₁.maxPages) c')
    (hcrash : x.2 ≠ .crash) :
    WriteRun c r input
      (Task.ofFlow (.writeAt r input) (.didWrite r)
        (Flow.andThen x (.evicting addr) fun c _ =>
          c.writeAtFinish r input addr)).1
      (Task.ofFlow (.writeAt r input) (.didWrite r)
        (Flow.andThen x (.evicting addr) fun c _ =>
          c.writeAtFinish r input addr)).2 := by
  obtain ⟨c', pc | _ | _⟩ := x
  · exact .evicting c₁ c' addr pc hinserted hx
  · obtain ⟨c₂, n, hfinish, htouched⟩ :=
      writeAtFinish_touched (π := WriteAtPc) input
        (Evicted.positioned hinserted hpos hx)
    simp only [Flow.andThen, hfinish]
    exact .done c₂ n htouched
  · exact absurd rfl hcrash

/-- A write that begins: it ends, or its new page is inserted. -/
theorem WriteRun.lookup (input : List Byte) (hsettled : Settled c)
    (hsome : (c.lookup r.id).isSome) :
    WriteRun c r input
      (Task.ofFlow (.writeAt r input) (.didWrite r)
        (c.writeAtLookup r input)).1
      (Task.ofFlow (.writeAt r input) (.didWrite r)
        (c.writeAtLookup r input)).2 := by
  obtain ⟨entry, hentry⟩ := Option.isSome_iff_exists.mp hsome
  have hslot : c.slot r.key = entry.pages.lookup r.index := by
    simp [slot, Range.key, hentry]
  rw [writeAtLookup, hentry]
  dsimp only
  cases hpage : entry.pages.lookup r.index with
  | some addr =>
      obtain ⟨c₂, n, hfinish, htouched⟩ :=
        writeAtFinish_touched (π := WriteAtPc) input
          (hsettled.positioned (hslot.trans hpage) (.refl c) hsettled.layout
            rfl rfl rfl)
      dsimp only
      rw [hfinish]
      exact .done c₂ n htouched
  | none =>
      have hinserted : Inserted c r.key c.nextAddr
          (c.emplaceFront (c.emptyPage r.key)) :=
        inserted_emplaceFront (c := c) hsettled.layout (.refl c) rfl rfl
          (c.emptyPage r.key) hsome (hslot.trans hpage)
          ((emplaceFront_readQueue c _).trans hsettled.queue)
          ⟨rfl, rfl, rfl, rfl, rfl⟩
      dsimp only
      rw [evictExcess_eq]
      exact writeRun_evict input hinserted hsettled.pos
        (evict_evicts hinserted.layout _) (evict_ne_crash _ _)

/-- One resumption of a write that runs alone. -/
theorem WriteRun.resume {input : List Byte} (hsettled : Settled c)
    (hsome : (c.lookup r.id).isSome) {task task' : Task} {c'' : Cache}
    (hrun : WriteRun c r input c' task)
    (hresume : task.resume c' reply = some (c'', task'))
    (hreply : reply.Succeeds) : WriteRun c r input c'' task' := by
  cases hrun with
  | start =>
      obtain ⟨x, hx, hof⟩ := Option.map_eq_some_iff.mp hresume
      cases reply with
      | go =>
          have hnone : c.readQueue.lookup r.key = none := by
            rw [hsettled.queue]
            rfl
          simp only [writeAtResume, hnone, Option.some.injEq] at hx
          subst hx
          have hlookup := WriteRun.lookup input hsettled hsome
          rw [hof] at hlookup
          exact hlookup
      | _ => cases hx
  | evicting c₁ c' addr pc hinserted hevicts =>
      obtain ⟨x, hx, hof⟩ := Option.map_eq_some_iff.mp hresume
      obtain ⟨y, hy, rfl⟩ := Option.map_eq_some_iff.mp hx
      have hevict := writeRun_evict (r := r) input hinserted
        hsettled.pos
        (evictResume_evicts hevicts hy (evictOpens_of_succeeds hreply))
        (evictResume_ne_crash hy)
      rw [hof] at hevict
      exact hevict
  | done c' n htouched => cases hresume

end

/-- An access of one page. -/
inductive Access where
  | read (r : Range)
  | write (r : Range) (input : List Byte)

namespace Access

def range : Access → Range
  | read r => r
  | write r _ => r

def key (access : Access) : PageKey :=
  access.range.key

/-- The task `read` and `write` start for it. -/
def task : Access → Task
  | read r => .readAt r .start
  | write r input => .writeAt r input .start

end Access

/-- The steps of a task that runs alone on a device without faults. -/
def Alone : PoolEvent → Prop
  | .call _ => False
  | .resume _ reply => reply.Succeeds

/-- A cache without pages.  Files may be open. -/
structure Pageless (c : Cache) : Prop where
  lru : c.lru = []
  slot : ∀ key, c.slot key = none
  queue : c.readQueue = ∅

/-- Accesses of open files, each of which is over before the next one begins.
The list has the latest one first. -/
inductive Accesses (c : Cache) : List Access → Cache → Prop
  | nil : Accesses c [] c
  | cons (accesses : List Access) (access : Access) (c₁ c₂ : Cache)
      (events : List PoolEvent) (task : Task)
      (haccesses : Accesses c accesses c₁)
      (hopen : (c₁.lookup access.range.id).isSome)
      (hruns : Runs Pool.step (fun _ event _ => Alone event)
        ⟨c₁, [access.task], []⟩ events ⟨c₂, [task], []⟩)
      (hdone : task.isDone = true) : Accesses c (access :: accesses) c₂

section

variable {c c' : Cache}

/-- A property of a task that runs alone is kept by the run when each
resumption keeps it. -/
theorem runs_alone {I : Cache → Task → Prop}
    (hkeep : ∀ {c c' : Cache} {task task' : Task} {reply : Reply}, I c task →
      task.resume c reply = some (c', task') → reply.Succeeds → I c' task')
    {task task' : Task} {events : List PoolEvent}
    (hruns : Runs Pool.step (fun _ event _ => Alone event) ⟨c, [task], []⟩
      events ⟨c', [task'], []⟩)
    (hstart : I c task) : I c' task' := by
  have hinv : ∃ c'' task'', (⟨c', [task'], []⟩ : Pool) = ⟨c'', [task''], []⟩ ∧
      I c'' task'' := by
    refine hruns.preserves (I := fun p => ∃ c'' task'',
      p = ⟨c'', [task''], []⟩ ∧ I c'' task'') ?_ ⟨c, task, rfl, hstart⟩
    rintro p p' event hstep halone ⟨c₁, task₁, rfl, hI⟩
    cases event with
    | call op => exact halone.elim
    | resume i reply =>
        obtain ⟨c₂, task₂, hresume, rfl⟩ := Pool.resume_alone hstep
        exact ⟨c₂, task₂, rfl, hkeep hI hresume halone⟩
  obtain ⟨c'', task'', hsame, hI⟩ := hinv
  obtain ⟨rfl, htasks, -⟩ := Pool.mk.inj hsame
  obtain rfl := List.singleton_inj.mp htasks
  exact hI

/-- One access touches its page. -/
theorem access_touched (hsettled : Settled c) {access : Access}
    (hopen : (c.lookup access.range.id).isSome) {events : List PoolEvent}
    {task : Task}
    (hruns : Runs Pool.step (fun _ event _ => Alone event)
      ⟨c, [access.task], []⟩ events ⟨c', [task], []⟩)
    (hdone : task.isDone = true) : Touched c access.key c' := by
  cases access with
  | read r =>
      have hrun := runs_alone (I := ReadRun c r)
        (fun hrun hresume hreply =>
          hrun.resume hsettled hopen hresume hreply) hruns .start
      cases hrun with
      | done c' bytes htouched => exact htouched
      | _ => cases hdone
  | write r input =>
      have hrun := runs_alone (I := WriteRun c r input)
        (fun hrun hresume hreply =>
          hrun.resume hsettled hopen hresume hreply) hruns .start
      cases hrun with
      | done c' n htouched => exact htouched
      | _ => cases hdone

theorem Touched.settled {key : PageKey} (hsettled : Settled c)
    (htouched : Touched c key c') : Settled c' where
  layout := htouched.layout
  queue := htouched.queue
  length_le := by
    have hlength := congrArg List.length htouched.keys
    rw [touch, List.length_take] at hlength
    rw [htouched.maxPages, ← List.length_map fun addr => (c'.heap addr).key]
    change c'.keys.length ≤ _
    rw [hlength]
    exact Nat.min_le_left _ _
  pos := htouched.maxPages ▸ hsettled.pos

theorem Pageless.settled (hpageless : Pageless c) (hpos : 1 ≤ c.maxPages) :
    Settled c := by
  have hlive : c.live 0 = 0 := by
    rw [live, hpageless.lru]
    rfl
  have hnot : ∀ addr, addr ∉ c.live 0 := fun addr => by simp [hlive]
  refine ⟨⟨?_, ?_, ?_, ?_⟩, hpageless.queue, ?_, hpos⟩
  · rw [hlive]
    exact Multiset.nodup_zero
  · exact fun addr hmem => absurd hmem (hnot addr)
  · intro key addr hslot
    rw [hpageless.slot] at hslot
    cases hslot
  · exact fun addr hmem => absurd hmem (hnot addr)
  · rw [hpageless.lru]
    exact Nat.zero_le _

theorem Accesses.settled (hpageless : Pageless c) (hpos : 1 ≤ c.maxPages)
    {accesses : List Access} (haccesses : Accesses c accesses c') :
    Settled c' ∧ c'.maxPages = c.maxPages ∧
      c'.keys = (recency (accesses.map Access.key)).take c.maxPages := by
  induction haccesses with
  | nil =>
      refine ⟨hpageless.settled hpos, rfl, ?_⟩
      rw [keys, hpageless.lru]
      simp [recency]
  | cons accesses access c₁ c₂ events task _ hopen hruns hdone ih =>
      obtain ⟨hsettled, hmax, hkeys⟩ := ih
      have htouched := access_touched hsettled hopen hruns hdone
      refine ⟨htouched.settled hsettled, htouched.maxPages.trans hmax, ?_⟩
      rw [htouched.keys, hmax, hkeys, List.map_cons]
      exact touch_recency c.maxPages access.key _

/-- After every access the list has the pages that were accessed last, as many
as the cache may keep, the latest one at the front. -/
theorem lru_is_recency (hpageless : Pageless c) (hpos : 1 ≤ c.maxPages)
    {accesses : List Access} (haccesses : Accesses c accesses c') :
    c'.lru.map (fun addr => (c'.heap addr).key) =
      (recency (accesses.map Access.key)).take c.maxPages :=
  (haccesses.settled hpageless hpos).2.2

end

/-- A cache for one page, with a file that is open. -/
def onePage : Cache :=
  ((create 4 1).hintOpen ⟨1⟩ ["f"] .readWrite).1

/-- A write at the start of page `index`. -/
def writeTo (index : Nat) : Access :=
  .write ⟨⟨1⟩, index, index, index, index * 4, 1⟩ [7]

/-- The second write evicts the page of the first one, which is dirty. -/
theorem lru_is_recency_one_page :
    ∃ c, Accesses onePage [writeTo 1, writeTo 0] c ∧
      c.lru.map (fun addr => (c.heap addr).key) = [⟨⟨1⟩, 1⟩] := by
  have haccesses : ∃ c, Accesses onePage [writeTo 1, writeTo 0] c :=
    ⟨_, .cons [writeTo 0] (writeTo 1) _ _
      [.resume 0 .go, .resume 0 (.opened (.ok 3)), .resume 0 (.written (.ok 1))]
      _ (.cons [] (writeTo 0) _ _ [.resume 0 .go] _ .nil (by decide)
        (.cons rfl trivial (.nil _)) rfl)
      (by decide)
      (.cons rfl trivial (.cons rfl rfl (.cons rfl rfl (.nil _)))) rfl⟩
  have hpageless : Pageless onePage := by
    refine ⟨rfl, fun key => ?_, rfl⟩
    obtain ⟨id, index⟩ := key
    by_cases hid : id = ⟨1⟩
    · subst hid
      rfl
    · have hkeys : onePage.table.keys = [⟨1⟩] := rfl
      have hnone : onePage.lookup id = none := by
        apply AList.lookup_eq_none.mpr
        rw [AList.mem_keys, hkeys, List.mem_singleton]
        exact hid
      rw [slot, hnone]
      rfl
  obtain ⟨c, haccesses⟩ := haccesses
  exact ⟨c, haccesses, lru_is_recency hpageless (by decide) haccesses⟩

end Cache

end Madbfs
