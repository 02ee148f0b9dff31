/-
An eviction that runs alone, seen from the cache it started with.  It takes
pages off the end of the list; a page that was clean loses its slot, a page
that stays is untouched, and a slot that is left over belongs to a dirty page
whose file could not be opened.
-/
import Madbfs.Cache.Capacity

namespace Madbfs

open Bytes

namespace Cache

/-- What an eviction leaves of the cache `c`, while it holds some pages. -/
structure Popped (c : Cache) (s : Cache × Multiset Addr) : Prop where
  lru : s.1.lru <+: c.lru
  nodup : (s.1.live s.2).Nodup
  key : ∀ addr, (s.1.heap addr).key = (c.heap addr).key
  size : ∀ addr, (s.1.heap addr).size = (c.heap addr).size
  data : ∀ addr, (s.1.heap addr).data = (c.heap addr).data
  pageSize' : ∀ addr, (s.1.heap addr).pageSize = (c.heap addr).pageSize
  dirty : ∀ addr ∈ s.1.lru, 0 < (c.heap addr).size →
    (s.1.heap addr).dirty = (c.heap addr).dirty
  dirty_of : ∀ addr, (s.1.heap addr).dirty = true →
    (c.heap addr).dirty = true
  slot_of : ∀ key addr, s.1.slot key = some addr → c.slot key = some addr
  slot : ∀ addr ∈ s.1.live s.2, s.1.slot (c.heap addr).key = some addr
  gone : ∀ addr ∈ c.lru, addr ∉ s.1.live s.2 →
    (c.heap addr).dirty = false → s.1.slot (c.heap addr).key = none
  pageSize : s.1.pageSize = c.pageSize
  nextAddr : s.1.nextAddr = c.nextAddr

section

variable {c c₁ c₂ : Cache} {held : Multiset Addr} {addr : Addr}

theorem popped_refl (hlayout : Layout c 0) : Popped c (c, 0) where
  lru := List.prefix_refl _
  nodup := hlayout.nodup
  key _ := rfl
  size _ := rfl
  data _ := rfl
  pageSize' _ := rfl
  dirty _ _ _ := rfl
  dirty_of _ h := h
  slot_of _ _ h := h
  slot := hlayout.slot_of_live
  gone := by
    intro addr hmem hnot
    exact absurd (mem_live_of_mem_lru hmem) hnot
  pageSize := rfl
  nextAddr := rfl

theorem Popped.modifyEntry (hpopped : Popped c (c₁, held)) (id : Id)
    {f : LookupEntry → LookupEntry}
    (hpages : ∀ entry, (f entry).pages = entry.pages) :
    Popped c (c₁.modifyEntry id f, held) := by
  have hslot := c₁.slot_modifyEntry id f hpages
  have hlive : (c₁.modifyEntry id f).live held = c₁.live held := by
    rw [live, live, modifyEntry_lru]
  obtain ⟨hlru, hnodup, hkey, hsize, hdata, hpage, hdirty, hdirtyOf, hslotOf,
    hslots, hgone, hpageSize, hnext⟩ := hpopped
  refine ⟨?_, ?_, ?_, ?_, ?_, ?_, ?_, ?_, ?_, ?_, ?_, ?_, ?_⟩ <;>
    simpa only [modifyEntry_lru, modifyEntry_heap, modifyEntry_pageSize,
      modifyEntry_nextAddr, hlive, hslot]

/-- A page that is marked clean is not in the list, or has no valid bytes. -/
theorem Popped.setClean (hpopped : Popped c (c₁, held))
    (haddr : addr ∉ c₁.lru ∨ (c₁.heap addr).size = 0) :
    Popped c (c₁.setDirty addr false, held) := by
  have hheap := setDirty_heap c₁ addr
  obtain ⟨hlru, hnodup, hkey, hsize, hdata, hpage, hdirty, hdirtyOf, hslotOf,
    hslots, hgone, hpageSize, hnext⟩ := hpopped
  refine ⟨hlru, hnodup, ?_, ?_, ?_, ?_, ?_, ?_, hslotOf, hslots, hgone,
    hpageSize, hnext⟩
  · intro addr'
    change ((c₁.setDirty addr false).heap addr').key = _
    rw [hheap]
    split_ifs <;> exact hkey addr'
  · intro addr'
    change ((c₁.setDirty addr false).heap addr').size = _
    rw [hheap]
    split_ifs <;> exact hsize addr'
  · intro addr'
    change ((c₁.setDirty addr false).heap addr').data = _
    rw [hheap]
    split_ifs <;> exact hdata addr'
  · intro addr'
    change ((c₁.setDirty addr false).heap addr').pageSize = _
    rw [hheap]
    split_ifs <;> exact hpage addr'
  · intro addr' hmem hpos
    change ((c₁.setDirty addr false).heap addr').dirty = _
    rw [hheap]
    split_ifs with heq
    · subst heq
      have hzero := hsize addr'
      dsimp only at hzero
      rcases haddr with hnot | h
      · exact absurd hmem hnot
      · omega
    · exact hdirty addr' hmem hpos
  · intro addr' hset
    change ((c₁.setDirty addr false).heap addr').dirty = true at hset
    rw [hheap] at hset
    split_ifs at hset with heq
    · cases hset
    · exact hdirtyOf addr' hset

/-- A held page is dropped with its slot. -/
theorem Popped.drop (hpopped : Popped c (c₁, addr ::ₘ held)) :
    Popped c (c₁.erasePage (c₁.heap addr).key, held) := by
  have hlive : c₁.live (addr ::ₘ held) = addr ::ₘ c₁.live held := by
    simp [live]
  have hlive' : (c₁.erasePage (c₁.heap addr).key).live held =
      c₁.live held := by
    rw [live, live, erasePage_lru]
  have hnodup := hpopped.nodup
  change (c₁.live (addr ::ₘ held)).Nodup at hnodup
  rw [hlive, Multiset.nodup_cons] at hnodup
  have hkey := hpopped.key addr
  have hslotAddr := hpopped.slot addr (by
    change addr ∈ c₁.live (addr ::ₘ held)
    rw [hlive]
    exact Multiset.mem_cons_self _ _)
  refine ⟨?_, ?_, ?_, ?_, ?_, ?_, ?_, ?_, ?_, ?_, ?_, ?_, ?_⟩
  · simpa only [erasePage_lru] using hpopped.lru
  · change ((c₁.erasePage _).live held).Nodup
    rw [hlive']
    exact hnodup.2
  · simpa only [erasePage_heap] using hpopped.key
  · simpa only [erasePage_heap] using hpopped.size
  · simpa only [erasePage_heap] using hpopped.data
  · simpa only [erasePage_heap] using hpopped.pageSize'
  · simpa only [erasePage_heap, erasePage_lru] using hpopped.dirty
  · simpa only [erasePage_heap] using hpopped.dirty_of
  · intro key addr' hslot
    change (c₁.erasePage _).slot key = _ at hslot
    rw [slot_erasePage] at hslot
    split_ifs at hslot with heq
    exact hpopped.slot_of key addr' hslot
  · intro addr' hmem
    change addr' ∈ (c₁.erasePage _).live held at hmem
    rw [hlive'] at hmem
    have hslot := hpopped.slot addr' (by
      change addr' ∈ c₁.live (addr ::ₘ held)
      rw [hlive]
      exact Multiset.mem_cons_of_mem hmem)
    change (c₁.erasePage _).slot _ = _
    rw [slot_erasePage, if_neg]
    · exact hslot
    · intro heq
      rw [heq, show (c₁.heap addr).key = (c.heap addr).key from hkey] at hslot
      have hsame := Option.some.inj (hslotAddr.symm.trans hslot)
      subst hsame
      exact hnodup.1 hmem
  · intro addr' hmem hnot hclean
    change (c₁.erasePage _).slot _ = none
    change addr' ∉ (c₁.erasePage _).live held at hnot
    rw [hlive'] at hnot
    rw [slot_erasePage]
    split_ifs with heq
    · rfl
    · refine hpopped.gone addr' hmem ?_ hclean
      change addr' ∉ c₁.live (addr ::ₘ held)
      rw [hlive, Multiset.mem_cons]
      rintro (rfl | h)
      · exact heq (show (c.heap addr').key = (c₁.heap addr').key from
          hkey.symm)
      · exact hnot h
  · simpa only [erasePage_pageSize] using hpopped.pageSize
  · simpa only [erasePage_nextAddr] using hpopped.nextAddr

theorem Popped.move {s t : Cache × Multiset Addr} (hmove : Move s t)
    (hpopped : Popped c s) : Popped c t := by
  cases hmove with
  | inflight c₁ held id n => exact hpopped.modifyEntry id fun _ => rfl
  | lose c₁ held rest addr hlru hentry =>
      have hslot := hpopped.slot addr
        (mem_live_of_mem_lru (by simp [hlru]))
      obtain ⟨entry, hsome, -⟩ := lookup_of_slot hslot
      rw [← hpopped.key addr] at hsome
      rw [hentry] at hsome
      cases hsome
  | pop c₁ held rest addr hlru =>
      have hlive : live { c₁ with lru := rest } (addr ::ₘ held) =
          c₁.live held := by
        simp only [live, hlru, ← Multiset.coe_add, Multiset.coe_singleton]
        rw [← Multiset.singleton_add, Multiset.add_assoc]
      have hrest : rest <+: c₁.lru := ⟨[addr], hlru.symm⟩
      obtain ⟨hbegin, hnodup, hkey, hsize, hdata, hpage, hdirty, hdirtyOf,
        hslotOf, hslots, hgone, hpageSize, hnext⟩ := hpopped
      refine ⟨hrest.trans hbegin, ?_, hkey, hsize, hdata, hpage, ?_,
        hdirtyOf, hslotOf, ?_, ?_, hpageSize, hnext⟩
      · rw [hlive]
        exact hnodup
      · intro addr' hmem
        exact hdirty addr' (hrest.subset hmem)
      · rw [hlive]
        exact hslots
      · rw [hlive]
        exact hgone
  | drop c₁ held addr hclean => exact hpopped.drop
  | clean c₁ held addr hsize => exact hpopped.setClean (.inr hsize)

theorem Popped.moves {s t : Cache × Multiset Addr} (hmoves : Moves s t)
    (hpopped : Popped c s) : Popped c t :=
  hmoves.preserves (fun hmove h => h.move hmove) hpopped

/-- How a suspended eviction goes on. -/
theorem Popped.next {pc : EvictPc} {reply : Reply} {start : Multiset Addr}
    (hbegin : EvictPrefix c₁ 0 pc reply c₂ start)
    (hdirty : ∀ page rest, pc = .opening page rest →
      (c.heap page).dirty = true)
    (hpopped : Popped c (c₁, {pc.page})) : Popped c (c₂, start) := by
  cases hbegin with
  | opened addr rest fd => exact hpopped.modifyEntry _ fun _ => rfl
  | failed addr rest err =>
      have hlive : c₁.live {addr} = addr ::ₘ c₁.live 0 := by
        simp [live, Multiset.add_comm _ ({addr} : Multiset Addr)]
      refine Popped.modifyEntry ?_ _ fun _ => rfl
      obtain ⟨hlru, hnodup, hkey, hsize, hdata, hpage, hdirty', hdirtyOf,
        hslotOf, hslots, hgone, hpageSize, hnext⟩ := hpopped
      change (c₁.live {addr}).Nodup at hnodup
      change ∀ addr' ∈ c₁.live {addr}, _ at hslots
      change ∀ addr' ∈ c.lru, addr' ∉ c₁.live {addr} → _ at hgone
      rw [hlive] at hnodup hslots hgone
      refine ⟨hlru, (Multiset.nodup_cons.mp hnodup).2, hkey, hsize, hdata,
        hpage, hdirty', hdirtyOf, hslotOf, ?_, ?_, hpageSize, hnext⟩
      · intro addr' hmem
        exact hslots addr' (Multiset.mem_cons_of_mem hmem)
      · intro addr' hmem hnot hclean
        refine hgone addr' hmem ?_ hclean
        rw [Multiset.mem_cons]
        rintro (rfl | h)
        · rw [hdirty addr' rest rfl] at hclean
          cases hclean
        · exact hnot h
  | sent addr fd rest pc reply htook hsent =>
      refine hpopped.setClean (.inl ?_)
      intro hmem
      have hnodup := hpopped.nodup
      exact Multiset.disjoint_left.mp (Multiset.disjoint_of_nodup_add hnodup)
        (Multiset.mem_coe.mpr hmem) (Multiset.mem_singleton_self _)
  | unsent addr fd rest pc reply hrefused =>
      have hmodify := hpopped.modifyEntry (c₁.heap addr).key.id
        (f := addWriteInflight (-1)) fun _ => rfl
      have hdrop := Popped.drop hmodify
      rw [modifyEntry_heap] at hdrop
      exact hdrop

theorem flushAtLoop_ne_crash (c : Cache) (addr : Addr) (written : Nat) :
    (c.flushAtLoop addr written).2 ≠ .crash := by
  unfold flushAtLoop
  split <;> exact fun h => by cases h

theorem flushAt_ne_crash (c : Cache) (addr : Addr) :
    (c.flushAt addr).2 ≠ .crash := by
  unfold flushAt
  split
  · exact fun h => by cases h
  · exact flushAtLoop_ne_crash c addr 0

theorem evictFlush_ne_crash
    {x : Cache × Flow FlushAtPc (Except Errc Unit)} {fd : Fd} {rest : Nat}
    (hx : x.2 ≠ .crash) (hnext : ∀ c', (evict rest c').2 ≠ .crash) :
    (evictFlush x addr fd rest (evict rest)).2 ≠ .crash := by
  obtain ⟨c', pc | res | _⟩ := x
  · exact fun h => by cases h
  · exact hnext _
  · exact absurd rfl hx

/-- An eviction dereferences no iterator of the page tables. -/
theorem evict_ne_crash (size : Nat) (c : Cache) :
    (evict size c).2 ≠ .crash := by
  induction size generalizing c with
  | zero => exact fun h => by cases h
  | succ size ih =>
      unfold evict
      split
      · exact fun h => by cases h
      · dsimp only
        split
        · exact ih _
        · split
          · split
            · exact fun h => by cases h
            · exact evictFlush_ne_crash (flushAt_ne_crash _ _) ih
          · exact ih _

theorem evictResume_ne_crash {pc : EvictPc} {reply : Reply}
    {x : Cache × Flow EvictPc Unit} (hx : c.evictResume pc reply = some x) :
    x.2 ≠ .crash := by
  unfold evictResume at hx
  split at hx
  · obtain rfl := Option.some.inj hx
    exact evictFlush_ne_crash (flushAt_ne_crash _ _) (evict_ne_crash _)
  · obtain rfl := Option.some.inj hx
    exact evict_ne_crash _ _
  · obtain ⟨y, hy, rfl⟩ := Option.map_eq_some_iff.mp hx
    refine evictFlush_ne_crash ?_ (evict_ne_crash _)
    rcases flushAtResume_cases hy with ⟨-, rfl⟩ | ⟨-, err, rfl⟩
    · exact flushAtLoop_ne_crash _ _ _
    · exact fun h => by cases h
  · cases hx

/-- What is known of an eviction that has taken `size` pages off the list, or
is suspended on the way. -/
def Evicting (c : Cache) (size : Nat) (x : Cache × Flow EvictPc Unit) : Prop :=
  Flow.Ensures x
    (fun c' pc => Popped c (c', {pc.page}) ∧
      c'.lru.length + size = c.lru.length + pc.rest ∧
      ∀ page rest, pc = .opening page rest → (c.heap page).dirty = true)
    (fun c' _ => Popped c (c', 0) ∧ c'.lru.length = c.lru.length - size)

/-- The page an eviction wants to open the file of is dirty. -/
theorem Popped.dirty_of_fresh {pc : EvictPc} {held : Multiset Addr}
    (hpopped : Popped c (c₁, held)) (hfresh : pc.Fresh c₁) {page : Addr}
    {rest : Nat} (hpc : pc = .opening page rest) :
    (c.heap page).dirty = true := by
  subst hpc
  exact hpopped.dirty_of page hfresh

theorem evict_evicting (hlayout : Layout c 0) (size : Nat) :
    Evicting c size (evict size c) := by
  have hruns := evict_evictRuns size c 0
  have hlength := evict_shorter size c
  generalize evict size c = x at hruns hlength
  obtain ⟨c', pc | _ | _⟩ := x
  · have hpopped := (popped_refl hlayout).moves hruns.1
    exact ⟨hpopped, hlength.2, fun page rest hpc =>
      hpopped.dirty_of_fresh hruns.2 hpc⟩
  · exact ⟨(popped_refl hlayout).moves hruns, hlength⟩
  · trivial

theorem evictResume_evicting {size : Nat} {pc : EvictPc} {reply : Reply}
    {x : Cache × Flow EvictPc Unit} (hx : c₁.evictResume pc reply = some x)
    (hpopped : Popped c (c₁, {pc.page}))
    (hlength : c₁.lru.length + size = c.lru.length + pc.rest)
    (hdirty : ∀ page rest, pc = .opening page rest →
      (c.heap page).dirty = true) : Evicting c size x := by
  have hshorter := evictResume_shorter hx
  rcases evictResume_cases 0 hx with
    ⟨addr, fd, rest, fpc, rfl, -, -, rfl⟩ | ⟨c₂, start, hbegin, hruns⟩
  · exact ⟨hpopped, hlength, fun _ _ h => by cases h⟩
  · have hnext := Popped.next hbegin hdirty hpopped
    obtain ⟨c', pc' | _ | _⟩ := x
    · have hpopped' := hnext.moves hruns.1
      have hlength' : c'.lru.length + _ = _ := hshorter
      exact ⟨hpopped', by omega, fun page rest hpc =>
        hpopped'.dirty_of_fresh hruns.2 hpc⟩
    · have hlength' : c'.lru.length = _ := hshorter
      exact ⟨hnext.moves hruns, by omega⟩
    · trivial

end

end Cache

end Madbfs
