/-
The two containers of the cache refer to each other: the list has the pages,
the page table has the positions.  The layout invariant says that they agree,
with the pages that running evictions hold counted as still being there.
-/
import Madbfs.Cache.Engine

namespace Madbfs

namespace Cache

/-- The pages of the cache: those in the list and those that a running
eviction has taken out of it and not dropped yet. -/
def live (c : Cache) (held : Multiset Addr) : Multiset Addr :=
  (c.lru : Multiset Addr) + held

/-- The live pages and the page-table slots are in bijection. -/
structure Layout (c : Cache) (held : Multiset Addr) : Prop where
  nodup : (c.live held).Nodup
  slot_of_live : ∀ addr ∈ c.live held, c.slot (c.heap addr).key = some addr
  live_of_slot : ∀ key addr, c.slot key = some addr →
    addr ∈ c.live held ∧ (c.heap addr).key = key
  lt_next : ∀ addr ∈ c.live held, addr < c.nextAddr

section

variable {c c' : Cache} {held held' : Multiset Addr} {addr : Addr}

theorem mem_live : addr ∈ c.live held ↔ addr ∈ c.lru ∨ addr ∈ held := by
  simp [live]

theorem mem_live_of_mem_lru (hlru : addr ∈ c.lru) : addr ∈ c.live held :=
  mem_live.mpr (.inl hlru)

/-- Where no page is held, a cached page is in the list. -/
theorem Layout.mem_lru {key : PageKey} (hlayout : Layout c 0)
    (hslot : c.slot key = some addr) :
    addr ∈ c.lru ∧ (c.heap addr).key = key := by
  obtain ⟨hmem, hkey⟩ := hlayout.live_of_slot key addr hslot
  exact ⟨by simpa [mem_live] using hmem, hkey⟩

/-- The layout only depends on the live pages, their keys and the slots. -/
theorem Layout.congr (hlayout : Layout c held)
    (hlive : c'.live held' = c.live held)
    (hkey : ∀ addr, (c'.heap addr).key = (c.heap addr).key)
    (hslot : ∀ key, c'.slot key = c.slot key)
    (hnext : c'.nextAddr = c.nextAddr) : Layout c' held' where
  nodup := hlive ▸ hlayout.nodup
  slot_of_live := by
    intro addr hmem
    rw [hslot, hkey]
    exact hlayout.slot_of_live addr (hlive ▸ hmem)
  live_of_slot := by
    intro key addr hsome
    rw [hslot] at hsome
    rw [hlive, hkey]
    exact hlayout.live_of_slot key addr hsome
  lt_next := by
    intro addr hmem
    rw [hnext]
    exact hlayout.lt_next addr (hlive ▸ hmem)

theorem Layout.modifyEntry (hlayout : Layout c held) (id : Id)
    {f : LookupEntry → LookupEntry}
    (hpages : ∀ entry, (f entry).pages = entry.pages) :
    Layout (c.modifyEntry id f) held :=
  hlayout.congr (by simp [live]) (by simp)
    (c.slot_modifyEntry id f hpages) (by simp)

theorem key_modifyPage {f : Page → Page}
    (hkey : (f (c.heap addr)).key = (c.heap addr).key) (addr' : Addr) :
    ((c.modifyPage addr f).heap addr').key = (c.heap addr').key := by
  by_cases heq : addr' = addr
  · subst heq
    simpa [Cache.modifyPage] using hkey
  · simp [Cache.modifyPage, heq]

theorem Layout.modifyPage (hlayout : Layout c held) {f : Page → Page}
    (hkey : (f (c.heap addr)).key = (c.heap addr).key) :
    Layout (c.modifyPage addr f) held :=
  hlayout.congr rfl (key_modifyPage hkey) (fun _ => rfl) rfl

theorem Layout.setDirty (hlayout : Layout c held) (set : Bool) :
    Layout (c.setDirty addr set) held :=
  hlayout.modifyPage rfl

theorem live_splice (hlru : addr ∈ c.lru) :
    (c.splice addr).live held = c.live held := by
  have hperm : (addr :: c.lru.erase addr).Perm c.lru :=
    (List.perm_cons_erase hlru).symm
  simp only [live, splice, Multiset.coe_eq_coe.mpr hperm]

theorem Layout.splice (hlayout : Layout c held) (hlru : addr ∈ c.lru) :
    Layout (c.splice addr) held :=
  hlayout.congr (live_splice hlru) (fun _ => rfl) (fun _ => rfl) rfl

theorem Layout.lookup_isSome (hlayout : Layout c held)
    (hmem : addr ∈ c.live held) :
    (c.lookup (c.heap addr).key.id).isSome := by
  obtain ⟨entry, hentry, -⟩ :=
    lookup_of_slot (hlayout.slot_of_live addr hmem)
  rw [hentry]
  rfl

/-- Two live pages with one key are one page. -/
theorem Layout.key_inj (hlayout : Layout c held) {addr' : Addr}
    (hmem : addr ∈ c.live held) (hmem' : addr' ∈ c.live held)
    (hkey : (c.heap addr).key = (c.heap addr').key) : addr = addr' := by
  have hslot := hlayout.slot_of_live addr hmem
  rw [hkey, hlayout.slot_of_live addr' hmem'] at hslot
  exact (Option.some.inj hslot).symm

/-- A held page leaves together with its slot. -/
theorem Layout.drop (hlayout : Layout c (addr ::ₘ held)) :
    Layout (c.erasePage (c.heap addr).key) held := by
  have hsub : ∀ addr' ∈ (c.erasePage (c.heap addr).key).live held,
      addr' ∈ c.live (addr ::ₘ held) := by
    intro addr' hmem
    rw [mem_live, erasePage_lru] at hmem
    rw [mem_live, Multiset.mem_cons]
    tauto
  have hlive : c.live (addr ::ₘ held) = addr ::ₘ c.live held := by
    simp [live]
  have hnodup := hlayout.nodup
  rw [hlive, Multiset.nodup_cons] at hnodup
  have hne : ∀ addr' ∈ c.live held, addr' ≠ addr := by
    rintro addr' hmem rfl
    exact hnodup.1 hmem
  refine ⟨?_, ?_, ?_, ?_⟩
  · simpa [live] using hnodup.2
  · intro addr' hmem
    have hold := hsub addr' hmem
    rw [erasePage_heap, slot_erasePage, if_neg]
    · exact hlayout.slot_of_live addr' hold
    · intro hkey
      refine hne addr' ?_ (hlayout.key_inj hold (by simp [hlive]) hkey)
      simpa [live] using hmem
  · intro key addr' hslot
    rw [slot_erasePage] at hslot
    split_ifs at hslot with hkey
    obtain ⟨hmem, hkey'⟩ := hlayout.live_of_slot key addr' hslot
    refine ⟨?_, by simpa using hkey'⟩
    rw [hlive, Multiset.mem_cons] at hmem
    rcases hmem with rfl | hmem
    · exact absurd hkey'.symm hkey
    · simpa [live] using hmem
  · intro addr' hmem
    simpa using hlayout.lt_next addr' (hsub addr' hmem)

theorem Layout.move {s t : Cache × Multiset Addr} (hmove : Move s t)
    (hlayout : Layout s.1 s.2) : Layout t.1 t.2 := by
  cases hmove with
  | inflight c held id n => exact hlayout.modifyEntry id fun _ => rfl
  | lose c held rest addr hlru hentry =>
      have hmem : addr ∈ c.lru := by simp [hlru]
      have hsome := hlayout.lookup_isSome (mem_live_of_mem_lru hmem)
      rw [hentry] at hsome
      cases hsome
  | pop c held rest addr hlru =>
      refine hlayout.congr ?_ (fun _ => rfl) (fun _ => rfl) rfl
      simp only [live, hlru, ← Multiset.coe_add, Multiset.coe_singleton]
      rw [← Multiset.singleton_add, Multiset.add_assoc]
  | drop c held addr hclean => exact hlayout.drop
  | clean c held addr hsize => exact hlayout.setDirty false

theorem Layout.moves {s t : Cache × Multiset Addr} (hmoves : Moves s t)
    (hlayout : Layout s.1 s.2) : Layout t.1 t.2 :=
  hmoves.preserves (I := fun s => Layout s.1 s.2)
    (fun hmove h => Layout.move hmove h) hlayout

end

theorem lookup_emplaceFront (c : Cache) (page : Page) (id : Id) :
    (c.emplaceFront page).lookup id =
      if id = page.key.id then (c.lookup page.key.id).map
        (emplaceIndex page.key.index c.nextAddr)
      else c.lookup id := by
  simp only [emplaceFront, lookup_modifyEntry]
  rfl

/-- A new page gets the slot of its key if that is free. -/
theorem slot_emplaceFront {c : Cache} {page : Page}
    (hentry : (c.lookup page.key.id).isSome) (hslot : c.slot page.key = none)
    (key : PageKey) :
    (c.emplaceFront page).slot key =
      if key = page.key then some c.nextAddr else c.slot key := by
  obtain ⟨entry, hentry⟩ := Option.isSome_iff_exists.mp hentry
  obtain ⟨id, index⟩ := key
  simp only [slot, hentry, Option.bind_some] at hslot
  by_cases hid : id = page.key.id
  · subst hid
    simp only [slot, lookup_emplaceFront, if_pos, hentry, Option.map_some,
      Option.bind_some, emplaceIndex, hslot]
    by_cases hindex : index = page.key.index
    · subst hindex
      simp
    · have hne : (⟨page.key.id, index⟩ : PageKey) ≠ page.key := by
        rintro heq
        exact hindex (congrArg PageKey.index heq)
      simp [hne, AList.lookup_insert_ne hindex]
  · have hne : (⟨id, index⟩ : PageKey) ≠ page.key := by
      rintro heq
      exact hid (congrArg PageKey.id heq)
    simp [slot, lookup_emplaceFront, hid, hne]

section Projections

variable (c : Cache) (page : Page)

@[simp] theorem emplaceFront_lru :
    (c.emplaceFront page).lru = c.nextAddr :: c.lru := by
  simp [emplaceFront]

@[simp] theorem emplaceFront_heap :
    (c.emplaceFront page).heap = Function.update c.heap c.nextAddr page := by
  simp [emplaceFront]

@[simp] theorem emplaceFront_nextAddr :
    (c.emplaceFront page).nextAddr = c.nextAddr + 1 := by
  simp [emplaceFront]

@[simp] theorem emplaceFront_pageSize :
    (c.emplaceFront page).pageSize = c.pageSize := by
  simp [emplaceFront]

@[simp] theorem emplaceFront_maxPages :
    (c.emplaceFront page).maxPages = c.maxPages := by
  simp [emplaceFront]

@[simp] theorem emplaceFront_readQueue :
    (c.emplaceFront page).readQueue = c.readQueue := by
  simp [emplaceFront]

@[simp] theorem emplaceFront_promises :
    (c.emplaceFront page).promises = c.promises := by
  simp [emplaceFront]

@[simp] theorem emplaceFront_nextFut :
    (c.emplaceFront page).nextFut = c.nextFut := by
  simp [emplaceFront]

end Projections

theorem live_emplaceFront (c : Cache) (page : Page) (held : Multiset Addr) :
    (c.emplaceFront page).live held = c.nextAddr ::ₘ c.live held := by
  simp [live, ← Multiset.cons_coe]

theorem Layout.emplaceFront {c : Cache} {held : Multiset Addr} {page : Page}
    (hlayout : Layout c held) (hentry : (c.lookup page.key.id).isSome)
    (hslot : c.slot page.key = none) :
    Layout (c.emplaceFront page) held := by
  have hold : ∀ addr ∈ c.live held,
      (c.emplaceFront page).heap addr = c.heap addr := by
    intro addr hmem
    have hlt := hlayout.lt_next addr hmem
    rw [emplaceFront_heap, Function.update_of_ne (Nat.ne_of_lt hlt)]
  refine ⟨?_, ?_, ?_, ?_⟩
  · rw [live_emplaceFront, Multiset.nodup_cons]
    refine ⟨fun hmem => ?_, hlayout.nodup⟩
    exact Nat.lt_irrefl _ (hlayout.lt_next _ hmem)
  · intro addr hmem
    rw [live_emplaceFront, Multiset.mem_cons] at hmem
    rcases hmem with rfl | hmem
    · rw [slot_emplaceFront hentry hslot]
      simp
    · rw [slot_emplaceFront hentry hslot, hold addr hmem, if_neg]
      · exact hlayout.slot_of_live addr hmem
      · intro hkey
        have hsome := hlayout.slot_of_live addr hmem
        rw [hkey, hslot] at hsome
        cases hsome
  · intro key addr hsome
    rw [slot_emplaceFront hentry hslot] at hsome
    rw [live_emplaceFront, Multiset.mem_cons]
    split_ifs at hsome with hkey
    · obtain rfl := Option.some.inj hsome
      exact ⟨.inl rfl, by simp [hkey]⟩
    · obtain ⟨hmem, hkey'⟩ := hlayout.live_of_slot key addr hsome
      exact ⟨.inr hmem, by rw [hold addr hmem, hkey']⟩
  · intro addr hmem
    rw [live_emplaceFront, Multiset.mem_cons] at hmem
    rw [emplaceFront_nextAddr]
    rcases hmem with rfl | hmem
    · exact Nat.lt_succ_self _
    · exact Nat.lt_succ_of_lt (hlayout.lt_next addr hmem)

end Cache

end Madbfs
