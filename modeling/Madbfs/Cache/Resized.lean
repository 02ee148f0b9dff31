/-
When `truncate` agrees with the flat file.  After the page loop each page that
still has a slot is as it was, or has the size that the loop gives to the last
page of the old file; so what is left can be compared with the resized file
page by page.
-/
import Madbfs.Cache.NoLoss
import Madbfs.Cache.Truncate

namespace Madbfs

open Bytes

namespace Cache

section

variable {c c₁ c' : Cache} {id : Id} {flat : List Byte} {newSize : Nat}
  {first : Option (Nat × Addr)} {index : Nat} {addr : Addr}

/-- A slot that is left is an old one, of a page that was not to be erased. -/
theorem CutFrom.slot_of
    (hcut : CutFrom c₁ id flat.length newSize first c')
    (hslot : c'.slot ⟨id, index⟩ = some addr) :
    c₁.slot ⟨id, index⟩ = some addr ∧ ¬ Erases
      (numPages flat.length c₁.pageSize) (numPages newSize c₁.pageSize)
      index := by
  obtain ⟨⟨done, htruncating, hall⟩, -⟩ := hcut
  have hnot : ¬ (index ∈ done ∧ Erases (numPages flat.length c₁.pageSize)
      (numPages newSize c₁.pageSize) index) := by
    rintro ⟨hmem, herases⟩
    rw [htruncating.slot_erased index hmem herases] at hslot
    cases hslot
  rw [htruncating.slot_same index hnot] at hslot
  exact ⟨hslot, fun herases => hnot ⟨hall index addr hslot, herases⟩⟩

theorem CutFrom.slot_eq
    (hcut : CutFrom c₁ id flat.length newSize first c')
    (hslot : c₁.slot ⟨id, index⟩ = some addr)
    (herases : ¬ Erases (numPages flat.length c₁.pageSize)
      (numPages newSize c₁.pageSize) index) :
    c'.slot ⟨id, index⟩ = some addr ∧ (addr ∈ c₁.lru → addr ∈ c'.lru) := by
  obtain ⟨⟨done, htruncating, -⟩, -⟩ := hcut
  have hnot : ¬ (index ∈ done ∧ Erases (numPages flat.length c₁.pageSize)
      (numPages newSize c₁.pageSize) index) := fun h => herases h.2
  rw [htruncating.slot_same index hnot]
  exact ⟨hslot, fun hmem => htruncating.mem index addr hslot hmem hnot⟩

theorem CutFrom.slot_none
    (hcut : CutFrom c₁ id flat.length newSize first c')
    (hslot : c₁.slot ⟨id, index⟩ = some addr)
    (herases : Erases (numPages flat.length c₁.pageSize)
      (numPages newSize c₁.pageSize) index) :
    c'.slot ⟨id, index⟩ = none := by
  obtain ⟨⟨done, htruncating, hall⟩, -⟩ := hcut
  exact htruncating.slot_erased index (hall index addr hslot) herases

/-- The page of a slot after the page loop. -/
theorem CutFrom.heap_eq
    (hcut : CutFrom c₁ id flat.length newSize first c')
    (hslot : c₁.slot ⟨id, index⟩ = some addr) :
    c'.heap addr = if index + 1 = numPages flat.length c₁.pageSize then
      (c₁.heap addr).truncate (lastSize flat.length newSize c₁.pageSize)
      else c₁.heap addr := by
  obtain ⟨⟨done, htruncating, hall⟩, -⟩ := hcut
  split_ifs with hlast
  · exact htruncating.heap_resized index (hall index addr hslot) addr hslot
      hlast
  · exact htruncating.heap_same index addr hslot fun h => hlast h.2

/-- The bytes and the dirty flag of a page outlast the page loop. -/
theorem CutFrom.heap_data
    (hcut : CutFrom c₁ id flat.length newSize first c')
    (hslot : c₁.slot ⟨id, index⟩ = some addr) :
    (c'.heap addr).data = (c₁.heap addr).data ∧
      (c'.heap addr).dirty = (c₁.heap addr).dirty := by
  rw [hcut.heap_eq hslot]
  split_ifs <;> exact ⟨rfl, rfl⟩

/-- A listed page of the old cache that the page loop has left in the list was
left there by the eviction. -/
theorem CutFrom.mem_of
    (hcut : CutFrom c₁ id flat.length newSize first c')
    (hlt : addr < c₁.nextAddr) (hmem : addr ∈ c'.lru) : addr ∈ c₁.lru := by
  obtain ⟨⟨done, htruncating, -⟩, -⟩ := hcut
  exact htruncating.mem_of addr hlt hmem

/-- The size that the page loop gives to the last page, if the new file does
not end before it. -/
theorem lastSize_eq {pageSize oldSize : Nat} (hpos : 0 < pageSize)
    (hindex : index + 1 = numPages oldSize pageSize)
    (hle : numPages oldSize pageSize ≤ numPages newSize pageSize) :
    lastSize oldSize newSize pageSize =
      min ((index + 1) * pageSize) newSize - index * pageSize := by
  have hlow := (lt_numPages index newSize hpos).mp (by omega)
  have hhigh := lt_numPages (index + 1) newSize hpos
  rw [Nat.succ_mul] at hhigh ⊢
  unfold lastSize
  split_ifs with hsame
  · have hend : ¬ index * pageSize + pageSize < newSize := by
      intro hlt
      have h := hhigh.mpr hlt
      omega
    have hsplit : newSize - 1 =
        pageSize * index + (newSize - 1 - index * pageSize) := by
      rw [Nat.mul_comm]
      omega
    rw [hsplit, Nat.mul_add_mod, Nat.mod_eq_of_lt (by omega)]
    omega
  · have hend := hhigh.mp (by omega)
    omega

/-- A page that the eviction has left a slot is still listed, unless a dirty
page was taken. -/
theorem Popped.mem_lru (hfile : c.HoldsFile id flat)
    (hpopped : Popped c (c₁, 0))
    (hdirty : (c.heap addr).dirty = true → addr ∈ c₁.lru)
    (hslot : c₁.slot ⟨id, index⟩ = some addr) : addr ∈ c₁.lru := by
  by_contra hmem
  cases hclean : (c.heap addr).dirty with
  | true => exact hmem (hdirty hclean)
  | false =>
      rw [hpopped.slot_none hfile (hpopped.slot_of _ _ hslot) hmem hclean]
        at hslot
      cases hslot

/-- The pages that `truncate` treats well hold the bytes of the new file. -/
theorem CutFrom.holds (hfile : c.HoldsFile id flat)
    (hpopped : Popped c (c₁, 0))
    (hcut : CutFrom c₁ id flat.length newSize first c')
    (hslot : c'.slot ⟨id, index⟩ = some addr)
    (hlast : index + 1 = numPages flat.length c.pageSize →
      numPages flat.length c.pageSize ≤ numPages newSize c.pageSize ∧
        ∀ pos, flat.length ≤ index * c.pageSize + pos → pos < c.pageSize →
          index * c.pageSize + pos < newSize →
          valueAt (c.heap addr).data pos = 0)
    (hpast : numPages flat.length c.pageSize ≤ index →
      numPages flat.length c.pageSize = 0 ∧
        index < numPages newSize c.pageSize) :
    Holds (c'.heap addr) (resize flat newSize) c.pageSize index ∧
      index * c.pageSize < newSize := by
  obtain ⟨hslot₁, herases⟩ := hcut.slot_of hslot
  have hslot₀ := hpopped.slot_of _ _ hslot₁
  have hpos := hfile.pageSize_pos
  have hwf := (hfile.wf index addr hslot₀).1
  have hholds := hfile.holds index addr hslot₀
  have hsize := hholds.size_eq
  have hdata : (c'.heap addr).data = (c.heap addr).data :=
    (hcut.heap_data hslot₁).1.trans (hpopped.data addr)
  have hheap := hcut.heap_eq hslot₁
  have hpageSize : c₁.pageSize = c.pageSize := hpopped.pageSize
  rw [hpageSize] at herases hheap
  have hnew := lt_numPages index newSize hpos
  have hold := lt_numPages index flat.length hpos
  unfold Erases at herases
  by_cases heq : index + 1 = numPages flat.length c.pageSize
  · obtain ⟨hle, hzero⟩ := hlast heq
    have hlt := hnew.mp (by omega)
    rw [if_pos heq] at hheap
    have hnewSize : (c'.heap addr).size =
        min ((index + 1) * c.pageSize) newSize - index * c.pageSize := by
      have hfull := lastSize_eq hpos heq hle
      have hfit : lastSize flat.length newSize c.pageSize ≤ c.pageSize := by
        rw [hfull, Nat.succ_mul]
        omega
      have hfield : (c₁.heap addr).pageSize = c.pageSize :=
        (hpopped.pageSize' addr).trans hwf.pageSize_eq
      rw [hheap]
      change min (u32 _) _ = _
      rw [u32_of_lt (Nat.lt_of_le_of_lt hfit hwf.pageSize_lt), hfield,
        Nat.min_eq_left hfit, hfull]
    refine ⟨holds_of_valueAt (by rw [hdata]; exact hwf.length_data)
      (by rw [length_resize]; exact hnewSize) ?_, hlt⟩
    intro pos hin
    rw [hnewSize, Nat.succ_mul] at hin
    rw [hdata, valueAt_resize, if_pos (by omega)]
    by_cases hbelow : index * c.pageSize + pos < flat.length
    · apply hholds.valueAt_eq
      rw [hsize, Nat.succ_mul]
      omega
    · rw [hzero pos (by omega) (by omega) (by omega)]
      exact (valueAt_of_length_le (by omega)).symm
  · have hless : index + 1 < numPages flat.length c.pageSize := by
      by_contra hge
      obtain ⟨hnone, hin⟩ := hpast (by omega)
      exact herases (.inr ⟨hnone, hin⟩)
    have hin : index + 1 < numPages newSize c.pageSize := by omega
    have hlt := (lt_numPages (index + 1) newSize hpos).mp hin
    have hlt' := (lt_numPages (index + 1) flat.length hpos).mp hless
    rw [if_neg heq] at hheap
    have hsame : (c'.heap addr).size = (c.heap addr).size := by
      rw [hheap]
      exact hpopped.size addr
    rw [Nat.succ_mul] at hlt hlt' hsize
    refine ⟨holds_of_valueAt (by rw [hdata]; exact hwf.length_data)
      (by rw [length_resize, hsame, Nat.succ_mul]; omega) ?_, by omega⟩
    intro pos hpos'
    rw [hsame] at hpos'
    rw [hdata, valueAt_resize, if_pos (by omega)]
    exact hholds.valueAt_eq hpos'

/-- What is enough for `truncate`. -/
theorem TruncatesWell.truncated
    (hwell : c.TruncatesWell id flat.length newSize)
    (hfile : c.HoldsFile id flat) (hpopped : Popped c (c₁, 0))
    (hlru : c₁.lru = c.kept flat.length newSize)
    (hcut : CutFrom c₁ id flat.length newSize first c') :
    Truncated c c' id flat newSize := by
  have hpageSize : c₁.pageSize = c.pageSize := hpopped.pageSize
  have hheld : ∀ index addr, c'.slot ⟨id, index⟩ = some addr →
      Holds (c'.heap addr) (resize flat newSize) c.pageSize index ∧
        index * c.pageSize < newSize := by
    intro index addr hslot
    have hslot₁ := (hcut.slot_of hslot).1
    have hslot₀ := hpopped.slot_of _ _ hslot₁
    have hkept := hpopped.mem_lru hfile (fun hdirty => by
      rw [hlru]
      exact hwell.dirty index addr hslot₀ hdirty) hslot₁
    rw [hlru] at hkept
    exact hcut.holds hfile hpopped hslot
      (hwell.last index addr hslot₀ hkept)
      (hwell.past index addr hslot₀ hkept)
  refine ⟨fun index addr hslot => (hheld index addr hslot).1,
    fun index addr hslot => (hheld index addr hslot).2, ?_⟩
  intro index addr hslot hdirty hlt
  have hkept := hwell.dirty index addr hslot hdirty
  have hmem : addr ∈ c₁.lru := by
    rw [hlru]
    exact hkept
  have hslot₁ := hpopped.slot_of_mem hfile hslot hmem
  have hnew := lt_numPages index newSize hfile.pageSize_pos
  have hold := lt_numPages index flat.length hfile.pageSize_pos
  have herases : ¬ Erases (numPages flat.length c₁.pageSize)
      (numPages newSize c₁.pageSize) index := by
    rw [hpageSize]
    rintro (⟨hless, hle⟩ | ⟨hnone, -⟩)
    · rw [hwell.shrunk index addr hslot hkept hless (by omega)] at hdirty
      cases hdirty
    · omega
  obtain ⟨hslot', hlisted⟩ := hcut.slot_eq hslot₁ herases
  refine ⟨addr, hslot', hlisted hmem, ?_⟩
  rw [(hcut.heap_data hslot₁).2, hpopped.dirty addr hmem
    (hfile.dirty index addr hslot hdirty)]
  exact hdirty

/-- A dirty page that is not lost was not taken by the eviction. -/
theorem Truncated.kept (htruncated : Truncated c c' id flat newSize)
    (hfile : c.HoldsFile id flat) (hpopped : Popped c (c₁, 0))
    (hlru : c₁.lru = c.kept flat.length newSize)
    (hcut : CutFrom c₁ id flat.length newSize first c')
    (hslot : c.slot ⟨id, index⟩ = some addr)
    (hdirty : (c.heap addr).dirty = true) :
    addr ∈ c.kept flat.length newSize := by
  have hsize := hfile.dirty index addr hslot hdirty
  rw [(hfile.holds index addr hslot).size_eq, Nat.succ_mul] at hsize
  by_cases hnew : index * c.pageSize < newSize
  · obtain ⟨addr', hslot', hmem, -⟩ :=
      htruncated.dirty index addr hslot hdirty (by omega)
    have hslot₀ := hpopped.slot_of _ _ (hcut.slot_of hslot').1
    obtain rfl := Option.some.inj (hslot.symm.trans hslot₀)
    rw [← hlru]
    apply hcut.mem_of _ hmem
    exact (hfile.keyed hpopped index addr (hcut.slot_of hslot').1).2
  · -- the file shrinks, and nothing is evicted
    have hless := lt_numPages index flat.length hfile.pageSize_pos
    have hmore := lt_numPages index newSize hfile.pageSize_pos
    rw [Cache.kept, truncateEvicts, if_neg (by omega), Nat.sub_zero,
      List.take_length]
    exact (hfile.layout.mem_lru hslot).1

/-- What `truncate` needs. -/
theorem Truncated.truncatesWell
    (htruncated : Truncated c c' id flat newSize)
    (hfile : c.HoldsFile id flat) (hpopped : Popped c (c₁, 0))
    (hlru : c₁.lru = c.kept flat.length newSize)
    {entry : LookupEntry} (hentry : c.lookup id = some entry)
    (hcut : CutFrom c₁ id flat.length newSize (firstPage entry) c') :
    c.TruncatesWell id flat.length newSize := by
  have hpageSize : c₁.pageSize = c.pageSize := hpopped.pageSize
  have hkept : ∀ index addr, c.slot ⟨id, index⟩ = some addr →
      (c.heap addr).dirty = true → addr ∈ c.kept flat.length newSize :=
    fun index addr hslot hdirty =>
      htruncated.kept hfile hpopped hlru hcut hslot hdirty
  have hslot₁ : ∀ index addr, c.slot ⟨id, index⟩ = some addr →
      addr ∈ c.kept flat.length newSize →
      c₁.slot ⟨id, index⟩ = some addr := by
    intro index addr hslot hmem
    rw [← hlru] at hmem
    exact hpopped.slot_of_mem hfile hslot hmem
  refine ⟨?_, hkept, ?_, ?_, ?_⟩
  · intro entry' index addr hentry' hfirst
    obtain rfl := Option.some.inj (hentry.symm.trans hentry')
    have hslot := hcut.first index addr hfirst
    rw [← hlru]
    apply hpopped.mem_lru hfile _ hslot
    intro hdirty
    rw [hlru]
    exact hkept index addr (hpopped.slot_of _ _ hslot) hdirty
  · intro index addr hslot hmem hless heq
    by_contra hdirty
    have hnew := lt_numPages index newSize hfile.pageSize_pos
    have hold := lt_numPages index flat.length hfile.pageSize_pos
    obtain ⟨addr', hslot', -⟩ := htruncated.dirty index addr hslot
      (Bool.of_not_eq_false hdirty) (by omega)
    have hnone := hcut.slot_none (hslot₁ index addr hslot hmem)
      (.inl (by rw [hpageSize]; omega))
    rw [hnone] at hslot'
    cases hslot'
  · intro index addr hslot hmem heq
    have herases : ¬ Erases (numPages flat.length c₁.pageSize)
        (numPages newSize c₁.pageSize) index := by
      rw [hpageSize]
      unfold Erases
      omega
    obtain ⟨hslot', -⟩ := hcut.slot_eq (hslot₁ index addr hslot hmem) herases
    have hlt := htruncated.below index addr hslot'
    have hholds := htruncated.holds index addr hslot'
    have hnew := lt_numPages index newSize hfile.pageSize_pos
    refine ⟨by omega, fun pos hge hpos hin => ?_⟩
    have hdata : (c'.heap addr).data = (c.heap addr).data :=
      (hcut.heap_data (hslot₁ index addr hslot hmem)).1.trans
        (hpopped.data addr)
    rw [← hdata, hholds.valueAt_eq (by
      rw [hholds.size_eq, length_resize, Nat.succ_mul]
      omega), valueAt_resize, if_pos hin]
    exact valueAt_of_length_le hge
  · intro index addr hslot hmem hpast
    by_contra hnot
    have herases : ¬ Erases (numPages flat.length c₁.pageSize)
        (numPages newSize c₁.pageSize) index := by
      rw [hpageSize]
      unfold Erases
      omega
    obtain ⟨hslot', -⟩ := hcut.slot_eq (hslot₁ index addr hslot hmem) herases
    have hlt := htruncated.below index addr hslot'
    have hsize := (htruncated.holds index addr hslot').size_eq
    have hempty := (hfile.holds index addr hslot).size_eq
    have hold := lt_numPages index flat.length hfile.pageSize_pos
    have hheap := hcut.heap_eq (hslot₁ index addr hslot hmem)
    rw [hpageSize, if_neg (by omega)] at hheap
    have hpos := hfile.pageSize_pos
    rw [hheap, show (c₁.heap addr).size = (c.heap addr).size from
      hpopped.size addr, hempty, length_resize, Nat.succ_mul] at hsize
    omega

theorem TruncateRun.runs (hfile : c.HoldsFile id flat)
    (hold : flat.length < 2 ^ 63) (hnew : newSize < 2 ^ 63)
    {events : List PoolEvent} {p : Pool}
    (hruns : Runs Pool.step
      (fun _ event _ => ∀ call, event ≠ .call call)
      ⟨c, [.truncate id flat.length newSize .start], []⟩ events p) :
    TruncateRun c id flat.length newSize p := by
  refine hruns.preserves ?_ .start
  intro p p' event hstep hcall hrun
  cases event with
  | call op => exact absurd rfl (hcall op)
  | resume i reply => exact hrun.resume hfile hold hnew hstep

/-- Truncation against the flat file.  From a cache that holds the file,
`truncate` comes to an end that agrees with the resized file if and only if
it treats no page wrongly.  The device may give any answers. -/
theorem truncated_iff_truncatesWell (hfile : c.HoldsFile id flat)
    (hold : flat.length < 2 ^ 63) (hnew : newSize < 2 ^ 63)
    {events : List PoolEvent} {p : Pool}
    (hruns : Runs Pool.step
      (fun _ event _ => ∀ call, event ≠ .call call)
      ⟨c, [.truncate id flat.length newSize .start], []⟩ events p)
    (hended : ∀ task ∈ p.tasks, task.isDone = true ∨ task.isCrashed = true) :
    p.Idle ∧ Truncated c p.cache id flat newSize ↔
      c.TruncatesWell id flat.length newSize := by
  cases TruncateRun.runs hfile hold hnew hruns with
  | start =>
      rcases hended _ (List.mem_singleton_self _) with h | h <;> cases h
  | evicting c₁ entry pc hentry hpopped hlength hdirty =>
      rcases hended _ (List.mem_singleton_self _) with h | h <;> cases h
  | missing hentry =>
      have hnone : ∀ index, c.slot ⟨id, index⟩ = none := by
        intro index
        rw [slot, hentry]
        rfl
      have hslot : ∀ {index addr}, c.slot ⟨id, index⟩ ≠ some addr := by
        intro index addr hsome
        rw [hnone index] at hsome
        cases hsome
      constructor
      · intro h
        refine ⟨fun entry _ _ hentry' _ => ?_, fun _ _ h => absurd h hslot,
          fun _ _ h => absurd h hslot, fun _ _ h => absurd h hslot,
          fun _ _ h => absurd h hslot⟩
        rw [hentry] at hentry'
        cases hentry'
      · intro h
        refine ⟨?_, fun _ _ h => absurd h hslot, fun _ _ h => absurd h hslot,
          fun _ _ h => absurd h hslot⟩
        intro task htask
        rw [List.mem_singleton.mp htask]
        rfl
  | done c₁ c' entry hentry hpopped hlru hcut =>
      constructor
      · rintro ⟨-, htruncated⟩
        exact htruncated.truncatesWell hfile hpopped hlru hentry hcut
      · intro hwell
        refine ⟨?_, hwell.truncated hfile hpopped hlru hcut⟩
        intro task htask
        rw [List.mem_singleton.mp htask]
        rfl
  | crashed c' hwell =>
      constructor
      · rintro ⟨hidle, -⟩
        cases hidle _ (List.mem_singleton_self _)
      · exact fun h => absurd h hwell

end

end Cache

namespace OnePage

/-- One open file, of which the first page is cached. -/
def cache (page : Page) : Cache :=
  (World.single 2 []).pool.cache.emplaceFront page

section

variable {page : Page} (hkey : page.key = ⟨⟨1⟩, 0⟩)

include hkey

theorem slot_cache {index : Nat} {addr : Addr}
    (hslot : (cache page).slot ⟨⟨1⟩, index⟩ = some addr) :
    index = 0 ∧ addr = 0 ∧ (cache page).heap addr = page := by
  unfold cache at hslot ⊢
  rw [Cache.slot_emplaceFront (by rw [hkey]; rfl) (by rw [hkey]; rfl), hkey]
    at hslot
  split_ifs at hslot with heq
  · obtain rfl := Option.some.inj hslot
    refine ⟨congrArg PageKey.index heq, rfl, ?_⟩
    rw [Cache.emplaceFront_heap, Function.update_self]
  · cases hslot

theorem holdsFile_cache {flat : List Byte} (hwf : page.WF 4)
    (hholds : Cache.Holds page flat 4 0)
    (hsize : page.dirty = true → 0 < page.size) :
    (cache page).HoldsFile ⟨1⟩ flat := by
  have hlayout : Cache.Layout (World.single 2 []).pool.cache 0 :=
    ((World.opened_single 2 []).sound (S := fun _ => True)).cache.layout
  have hpageSize : (cache page).pageSize = 4 :=
    Cache.emplaceFront_pageSize _ page
  refine ⟨hlayout.emplaceFront (by rw [hkey]; rfl) (by rw [hkey]; rfl),
    by rw [hpageSize]; decide, ?_, ?_, ?_⟩
  all_goals
    intro index addr hslot
    obtain ⟨rfl, -, heq⟩ := slot_cache hkey hslot
    rw [heq]
  · rw [hpageSize]
    exact ⟨hwf, by decide⟩
  · rw [hpageSize]
    exact hholds
  · exact hsize

end

/-- A clean page of two bytes, which grows by one. -/
def grown : Page :=
  Page.create ⟨⟨1⟩, 0⟩ [1, 2, 0, 0] 2 4

theorem truncated_iff_truncatesWell_grown : ∃ p : Pool, p.Idle ∧
    (cache grown).Truncated p.cache ⟨1⟩ [1, 2] 3 := by
  have hfile : (cache grown).HoldsFile ⟨1⟩ [1, 2] :=
    holdsFile_cache rfl ⟨rfl, rfl, by decide, by decide⟩ ⟨by decide, rfl⟩
      fun h => by cases h
  have hwell : (cache grown).TruncatesWell ⟨1⟩ 2 3 := by
    refine ⟨?_, ?_, ?_, ?_, ?_⟩
    · intro entry index addr hentry hfirst
      obtain ⟨-, rfl, -⟩ :=
        slot_cache rfl (Cache.slot_firstPage hentry hfirst)
      decide
    all_goals
      intro index addr hslot
      obtain ⟨rfl, rfl, heq⟩ := slot_cache rfl hslot
    · exact fun _ => by decide
    · exact fun _ _ _ => by decide
    · refine fun _ _ => ⟨by decide, fun pos hge hpos hin => ?_⟩
      have hpos : pos = 2 := by omega
      rw [heq, hpos]
      rfl
    · exact fun _ h => absurd h (by decide)
  have hruns : ∃ p, Runs Pool.step (fun _ event _ => ∀ call,
      event ≠ PoolEvent.call call)
      ⟨cache grown, [.truncate ⟨1⟩ 2 3 .start], []⟩
      [.resume 0 .go] p ∧
      ∀ task ∈ p.tasks, task.isDone = true ∨ task.isCrashed = true := by
    refine ⟨_, .cons rfl (fun call h => by cases h) (.nil _), ?_⟩
    decide
  obtain ⟨p, hruns, hended⟩ := hruns
  exact ⟨p, (Cache.truncated_iff_truncatesWell hfile (by decide) (by decide)
    hruns hended).mpr hwell⟩

/-- A dirty page of a file that goes on in the next page. -/
def written : Page :=
  (Page.create ⟨⟨1⟩, 0⟩ [1, 2, 3, 4] 4 4).setDirty true

/-- Cutting the file to three bytes drops the page, and with it the bytes that
were written. -/
theorem not_truncated : ¬ ∀ (c : Cache) (id : Id) (flat : List Byte)
    (newSize : Nat) (events : List PoolEvent) (p : Pool),
    c.HoldsFile id flat → flat.length < 2 ^ 63 → newSize < 2 ^ 63 →
    Runs Pool.step (fun _ event _ => ∀ call, event ≠ .call call)
      ⟨c, [.truncate id flat.length newSize .start], []⟩ events p →
    p.Idle → c.Truncated p.cache id flat newSize := by
  intro hall
  have hfile : (cache written).HoldsFile ⟨1⟩ [1, 2, 3, 4, 5, 6] :=
    holdsFile_cache rfl ⟨rfl, rfl, by decide, by decide⟩ ⟨by decide, rfl⟩
      fun _ => by decide
  have hruns : ∃ p, Runs Pool.step (fun _ event _ => ∀ call,
      event ≠ PoolEvent.call call)
      ⟨cache written, [.truncate ⟨1⟩ 6 3 .start], []⟩
      [.resume 0 .go] p ∧
      p.Idle ∧ p.cache.slot ⟨⟨1⟩, 0⟩ = none :=
    ⟨_, .cons rfl (fun call h => by cases h) (.nil _), by decide, rfl⟩
  obtain ⟨p, hruns, hidle, hnone⟩ := hruns
  obtain ⟨addr, hslot, -⟩ := (hall _ _ _ 3 _ p hfile (by decide) (by decide)
    hruns hidle).dirty 0 0 rfl rfl (by decide)
  rw [hnone] at hslot
  cases hslot

end OnePage

end Madbfs
