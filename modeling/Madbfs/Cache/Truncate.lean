/-
`truncate` against the flat file.  The pages that are still cached after it
should hold the bytes of the resized file.  What the page loop does to a page
depends on where its index lies between the two numbers of pages; the last
page of the old file is never erased, and the last page of a smaller new file
always is.
-/
import Madbfs.Cache.Bijection
import Madbfs.Cache.Popped

namespace Madbfs

open Bytes

namespace Cache

section

variable {pageSize : Nat}

/-- A page index is below the number of pages if its first byte lies in the
file. -/
theorem lt_numPages (index size : Nat) (hpos : 0 < pageSize) :
    index < numPages size pageSize ↔ index * pageSize < size := by
  have hsplit := Nat.div_add_mod size pageSize
  have hmod := Nat.mod_lt size hpos
  rw [Nat.mul_comm] at hsplit
  unfold numPages
  constructor
  · intro hlt
    split_ifs at hlt with hzero
    · have hmul := Nat.mul_le_mul_right pageSize (Nat.succ_le_of_lt hlt)
      rw [Nat.add_zero, Nat.succ_mul] at hmul
      omega
    · have hmul := Nat.mul_le_mul_right pageSize (Nat.le_of_lt_succ hlt)
      omega
  · intro hlt
    by_contra hle
    split_ifs at hle with hzero
    · have hmul := Nat.mul_le_mul_right pageSize (Nat.not_lt.mp hle)
      rw [Nat.add_zero] at hmul
      omega
    · have hmul := Nat.mul_le_mul_right pageSize (Nat.not_lt.mp hle)
      rw [Nat.succ_mul] at hmul
      omega

theorem numPages_le (size : Nat) (hpos : 0 < pageSize) :
    numPages size pageSize ≤ size := by
  by_contra hlt
  have hmul := (lt_numPages size size hpos).mp (Nat.not_le.mp hlt)
  have hle := Nat.mul_le_mul_left size hpos
  omega

end

/-- The page loop of `truncate` erases the page. -/
def Erases (oldNum newNum index : Nat) : Prop :=
  index + 1 < oldNum ∧ newNum ≤ index + 1 ∨ oldNum = 0 ∧ index < newNum

/-- The size that the page loop gives to the last page of the old file. -/
def lastSize (oldSize newSize pageSize : Nat) : Nat :=
  if numPages oldSize pageSize = numPages newSize pageSize then
    (newSize - 1) % pageSize + 1 else pageSize

/-- Everything one round of the page loop can do. -/
inductive PageCut (c : Cache) (key : PageKey) (addr : Addr)
    (oldSize newSize : Nat) : Cache × Flow TruncatePc Unit → Prop
  | stay
      (hindex : ¬ Erases (numPages oldSize c.pageSize)
        (numPages newSize c.pageSize) key.index)
      (hlast : key.index + 1 ≠ numPages oldSize c.pageSize) :
      PageCut c key addr oldSize newSize (c, .done ())
  | erase
      (hindex : Erases (numPages oldSize c.pageSize)
        (numPages newSize c.pageSize) key.index) (hmem : addr ∈ c.lru) :
      PageCut c key addr oldSize newSize
        ((c.eraseLru addr).erasePage key, .done ())
  | grow (size : Nat)
      (hindex : ¬ Erases (numPages oldSize c.pageSize)
        (numPages newSize c.pageSize) key.index)
      (hlast : key.index + 1 ≠ numPages oldSize c.pageSize) :
      PageCut c key addr oldSize newSize
        (c.emplaceFront (Page.create key (Page.zeroBuf c.pageSize) size
          c.pageSize), .done ())
  | resize (hlast : key.index + 1 = numPages oldSize c.pageSize)
      (hmem : addr ∈ c.lru) :
      PageCut c key addr oldSize newSize
        (c.modifyPage addr fun page =>
          page.truncate (lastSize oldSize newSize c.pageSize), .done ())
  | crash (hmem : addr ∉ c.lru) :
      PageCut c key addr oldSize newSize (c, .crash)

theorem truncatePage_cut (c : Cache) (key : PageKey) (addr : Addr)
    {oldSize newSize : Nat} (hpos : 0 < c.pageSize)
    (hold : oldSize < 2 ^ 63) (hnew : newSize < 2 ^ 63)
    (hindex : key.index < 2 ^ 63) :
    PageCut c key addr oldSize newSize
      (c.truncatePage key addr oldSize newSize) := by
  have holdNum := numPages_le oldSize hpos
  have hnewNum := numPages_le newSize hpos
  have hnewPos := lt_numPages 0 newSize hpos
  -- an empty old file wraps the index of its last page
  have hlast : usub (numPages oldSize c.pageSize) 1 =
      if numPages oldSize c.pageSize = 0 then 2 ^ 64 - 1
      else numPages oldSize c.pageSize - 1 := by
    split_ifs with hzero
    · have hwrap : usub 0 1 = 0 + 2 ^ 64 - 1 := usub_of_lt (by omega) (by omega)
      rw [hzero]
      omega
    · rw [usub_of_le (by omega) (by omega)]
  have hsize : key.index + 1 = numPages oldSize c.pageSize →
      (if key.index = usub (numPages newSize c.pageSize) 1 then
        usub newSize 1 % c.pageSize + 1 else c.pageSize) =
      lastSize oldSize newSize c.pageSize := by
    intro heq
    unfold lastSize
    by_cases hzero : numPages newSize c.pageSize = 0
    · rw [hzero, usub_of_lt (by omega) (by omega), if_neg (by omega),
        if_neg (by omega)]
    · rw [usub_of_le (by omega)
        (by omega), usub_of_le (by omega) (by omega)]
      by_cases hsame : numPages oldSize c.pageSize = numPages newSize c.pageSize
      · rw [if_pos (by omega), if_pos hsame]
      · rw [if_neg (by omega), if_neg hsame]
  unfold truncatePage
  dsimp only
  rw [hlast]
  clear hlast
  by_cases hout : key.index <
      max 1 (min (numPages oldSize c.pageSize) (numPages newSize c.pageSize)) -
        1 ∨ key.index ≥
      max (numPages oldSize c.pageSize) (numPages newSize c.pageSize)
  · rw [if_pos hout]
    exact .stay (by unfold Erases; omega) (by omega)
  · rw [if_neg hout]
    by_cases hzero : numPages oldSize c.pageSize = 0
    · rw [if_pos hzero, if_pos (by omega)]
      by_cases hmem : addr ∈ c.lru
      · rw [if_pos hmem]
        exact .erase (by unfold Erases; omega) hmem
      · rw [if_neg hmem]
        exact .crash hmem
    · rw [if_neg hzero]
      by_cases hlt : key.index < numPages oldSize c.pageSize - 1
      · rw [if_pos hlt]
        by_cases hmem : addr ∈ c.lru
        · rw [if_pos hmem]
          exact .erase (by unfold Erases; omega) hmem
        · rw [if_neg hmem]
          exact .crash hmem
      · rw [if_neg hlt]
        by_cases hgt : key.index > numPages oldSize c.pageSize - 1
        · rw [if_pos hgt]
          exact .grow _ (by unfold Erases; omega) (by omega)
        · rw [if_neg hgt]
          by_cases hmem : addr ∈ c.lru
          · rw [if_pos hmem, hsize (by omega)]
            exact .resize (by omega) hmem
          · rw [if_neg hmem]
            exact .crash hmem

/-- A page whose slot is taken changes no slot. -/
theorem slot_emplaceFront_taken {c : Cache} {page : Page} {addr : Addr}
    (hslot : c.slot page.key = some addr) (key : PageKey) :
    (c.emplaceFront page).slot key = c.slot key := by
  obtain ⟨entry, hentry, hpage⟩ := lookup_of_slot hslot
  unfold slot
  rw [lookup_emplaceFront]
  split_ifs with hid
  · rw [hid, hentry]
    simp only [Option.map_some, Option.bind_some, emplaceIndex, hpage]
  · rfl

/-- Where the page loop of `truncate` stands: what has become of the cache
`c` once the pages of `done` are processed. -/
structure Truncating (c : Cache) (id : Id) (oldSize newSize : Nat)
    (done : List Nat) (c' : Cache) : Prop where
  pageSize : c'.pageSize = c.pageSize
  nextAddr : c.nextAddr ≤ c'.nextAddr
  slot_erased : ∀ index ∈ done, Erases (numPages oldSize c.pageSize)
    (numPages newSize c.pageSize) index → c'.slot ⟨id, index⟩ = none
  slot_same : ∀ index, ¬ (index ∈ done ∧ Erases
    (numPages oldSize c.pageSize) (numPages newSize c.pageSize) index) →
    c'.slot ⟨id, index⟩ = c.slot ⟨id, index⟩
  heap_resized : ∀ index ∈ done, ∀ addr, c.slot ⟨id, index⟩ = some addr →
    index + 1 = numPages oldSize c.pageSize → c'.heap addr =
      (c.heap addr).truncate (lastSize oldSize newSize c.pageSize)
  heap_same : ∀ index addr, c.slot ⟨id, index⟩ = some addr →
    ¬ (index ∈ done ∧ index + 1 = numPages oldSize c.pageSize) →
    c'.heap addr = c.heap addr
  mem : ∀ index addr, c.slot ⟨id, index⟩ = some addr → addr ∈ c.lru →
    ¬ (index ∈ done ∧ Erases (numPages oldSize c.pageSize)
      (numPages newSize c.pageSize) index) → addr ∈ c'.lru
  mem_of : ∀ addr < c.nextAddr, addr ∈ c'.lru → addr ∈ c.lru

/-- The slots of a file point to different pages that exist. -/
def Keyed (c : Cache) (id : Id) : Prop :=
  ∀ index addr, c.slot ⟨id, index⟩ = some addr →
    (c.heap addr).key = ⟨id, index⟩ ∧ addr < c.nextAddr

section

variable {c c' : Cache} {id : Id} {oldSize newSize : Nat} {done : List Nat}

theorem truncating_refl (c : Cache) (id : Id) (oldSize newSize : Nat) :
    Truncating c id oldSize newSize [] c where
  pageSize := rfl
  nextAddr := Nat.le_refl _
  slot_erased := by
    intro index hmem
    cases hmem
  slot_same _ _ := rfl
  heap_resized := by
    intro index hmem
    cases hmem
  heap_same _ _ _ _ := rfl
  mem _ _ _ h _ := h
  mem_of _ _ h := h

theorem Keyed.index_eq (hkeyed : c.Keyed id) {left right : Nat} {addr : Addr}
    (hleft : c.slot ⟨id, left⟩ = some addr)
    (hright : c.slot ⟨id, right⟩ = some addr) : left = right := by
  have hkey := (hkeyed left addr hleft).1.symm.trans
    (hkeyed right addr hright).1
  exact congrArg PageKey.index hkey

/-- A round that neither erases nor resizes its page. -/
theorem Truncating.pass (htruncating : Truncating c id oldSize newSize done c')
    {index : Nat}
    (herase : ¬ Erases (numPages oldSize c.pageSize)
      (numPages newSize c.pageSize) index)
    (hlast : index + 1 ≠ numPages oldSize c.pageSize) :
    Truncating c id oldSize newSize (index :: done) c' := by
  have hiff : ∀ {P : Nat → Prop} {index' : Nat}, ¬ P index →
      (index' ∈ index :: done ∧ P index' ↔ index' ∈ done ∧ P index') := by
    intro P index' hnot
    rw [List.mem_cons]
    constructor
    · rintro ⟨rfl | hmem, h⟩
      · exact absurd h hnot
      · exact ⟨hmem, h⟩
    · rintro ⟨hmem, h⟩
      exact ⟨.inr hmem, h⟩
  refine ⟨htruncating.pageSize, htruncating.nextAddr, ?_, ?_, ?_, ?_, ?_,
    htruncating.mem_of⟩
  · intro index' hmem h
    exact htruncating.slot_erased index' ((hiff herase).mp ⟨hmem, h⟩).1 h
  · intro index' hnot
    exact htruncating.slot_same index' fun h => hnot ((hiff herase).mpr h)
  · intro index' hmem addr hslot h
    exact htruncating.heap_resized index'
      ((hiff (P := fun k => k + 1 = _) hlast).mp ⟨hmem, h⟩).1 addr hslot h
  · intro index' addr hslot hnot
    exact htruncating.heap_same index' addr hslot fun h =>
      hnot ((hiff (P := fun k => k + 1 = _) hlast).mpr h)
  · intro index' addr hslot hmem hnot
    exact htruncating.mem index' addr hslot hmem fun h =>
      hnot ((hiff herase).mpr h)

/-- A round that creates a page whose slot is taken. -/
theorem Truncating.grow (htruncating : Truncating c id oldSize newSize done c')
    (hkeyed : c.Keyed id) {page : Page} {addr : Addr}
    (hslot : c'.slot page.key = some addr) :
    Truncating c id oldSize newSize done (c'.emplaceFront page) := by
  have hslots := slot_emplaceFront_taken hslot
  have hnext := htruncating.nextAddr
  have hheap : ∀ addr' < c.nextAddr,
      (c'.emplaceFront page).heap addr' = c'.heap addr' := by
    intro addr' hlt
    rw [emplaceFront_heap,
      Function.update_of_ne (Nat.ne_of_lt (Nat.lt_of_lt_of_le hlt hnext))]
  obtain ⟨hpageSize, -, herased, hsame, hresized, hkept, hmem, hmemOf⟩ :=
    htruncating
  refine ⟨?_, ?_, ?_, ?_, ?_, ?_, ?_, ?_⟩
  · rw [emplaceFront_pageSize]
    exact hpageSize
  · rw [emplaceFront_nextAddr]
    exact Nat.le_succ_of_le hnext
  · intro index hin h
    rw [hslots]
    exact herased index hin h
  · intro index hnot
    rw [hslots]
    exact hsame index hnot
  · intro index hin addr' hslot' h
    rw [hheap addr' (hkeyed index addr' hslot').2]
    exact hresized index hin addr' hslot' h
  · intro index addr' hslot' hnot
    rw [hheap addr' (hkeyed index addr' hslot').2]
    exact hkept index addr' hslot' hnot
  · intro index addr' hslot' hin hnot
    rw [emplaceFront_lru]
    exact List.mem_cons_of_mem _ (hmem index addr' hslot' hin hnot)
  · intro addr' hlt hin
    rw [emplaceFront_lru, List.mem_cons] at hin
    rcases hin with rfl | hin
    · exact absurd (Nat.lt_of_lt_of_le hlt hnext) (Nat.lt_irrefl _)
    · exact hmemOf addr' hlt hin

/-- A round that erases its page. -/
theorem Truncating.erase
    (htruncating : Truncating c id oldSize newSize done c')
    (hkeyed : c.Keyed id) {index : Nat} {addr : Addr}
    (hslot : c.slot ⟨id, index⟩ = some addr)
    (herase : Erases (numPages oldSize c.pageSize)
      (numPages newSize c.pageSize) index) :
    Truncating c id oldSize newSize (index :: done)
      ((c'.eraseLru addr).erasePage ⟨id, index⟩) := by
  have hslots : ∀ index', ((c'.eraseLru addr).erasePage ⟨id, index⟩).slot
      ⟨id, index'⟩ = if index' = index then none else c'.slot ⟨id, index'⟩ := by
    intro index'
    rw [slot_erasePage]
    by_cases heq : index' = index
    · rw [if_pos (by rw [heq]), if_pos heq]
    · rw [if_neg (by simpa using heq), if_neg heq]
      rfl
  have hlast : index + 1 ≠ numPages oldSize c.pageSize := by
    unfold Erases at herase
    omega
  obtain ⟨hpageSize, hnext, herased, hsame, hresized, hkept, hmem, hmemOf⟩ :=
    htruncating
  refine ⟨?_, ?_, ?_, ?_, ?_, ?_, ?_, ?_⟩
  · rw [erasePage_pageSize]
    exact hpageSize
  · rw [erasePage_nextAddr]
    exact hnext
  · intro index' hin h
    rw [hslots]
    split_ifs with heq
    · rfl
    · exact herased index' ((List.mem_cons.mp hin).resolve_left heq) h
  · intro index' hnot
    rw [hslots]
    split_ifs with heq
    · exact absurd ⟨by simp [heq], heq ▸ herase⟩ hnot
    · exact hsame index' fun h => hnot ⟨List.mem_cons_of_mem _ h.1, h.2⟩
  · intro index' hin addr' hslot' h
    rw [erasePage_heap]
    refine hresized index' ((List.mem_cons.mp hin).resolve_left ?_) addr'
      hslot' h
    rintro rfl
    exact hlast h
  · intro index' addr' hslot' hnot
    rw [erasePage_heap]
    exact hkept index' addr' hslot' fun h =>
      hnot ⟨List.mem_cons_of_mem _ h.1, h.2⟩
  · intro index' addr' hslot' hin hnot
    have hne : addr' ≠ addr := by
      rintro rfl
      obtain rfl := hkeyed.index_eq hslot hslot'
      exact hnot ⟨List.mem_cons_self, herase⟩
    rw [erasePage_lru]
    exact (List.mem_erase_of_ne hne).mpr (hmem index' addr' hslot' hin
      fun h => hnot ⟨List.mem_cons_of_mem _ h.1, h.2⟩)
  · intro addr' hlt hin
    rw [erasePage_lru] at hin
    exact hmemOf addr' hlt (List.mem_of_mem_erase hin)

/-- A round that resizes its page. -/
theorem Truncating.resize
    (htruncating : Truncating c id oldSize newSize done c')
    (hkeyed : c.Keyed id) {index : Nat} {addr : Addr}
    (hslot : c.slot ⟨id, index⟩ = some addr) (hnot : index ∉ done)
    (hlast : index + 1 = numPages oldSize c.pageSize) :
    Truncating c id oldSize newSize (index :: done)
      (c'.modifyPage addr fun page =>
        page.truncate (lastSize oldSize newSize c.pageSize)) := by
  have herase : ¬ Erases (numPages oldSize c.pageSize)
      (numPages newSize c.pageSize) index := by
    unfold Erases
    omega
  have hother : ∀ index' addr', c.slot ⟨id, index'⟩ = some addr' →
      index' ≠ index → addr' ≠ addr := by
    rintro index' addr' hslot' hne rfl
    exact hne (hkeyed.index_eq hslot' hslot)
  obtain ⟨hpageSize, hnext, herased, hsame, hresized, hkept, hmem, hmemOf⟩ :=
    htruncating
  refine ⟨hpageSize, hnext, ?_, ?_, ?_, ?_, ?_, hmemOf⟩
  · intro index' hin h
    refine herased index' ((List.mem_cons.mp hin).resolve_left ?_) h
    rintro rfl
    exact herase h
  · intro index' h
    exact hsame index' fun hin => h ⟨List.mem_cons_of_mem _ hin.1, hin.2⟩
  · intro index' hin addr' hslot' h
    have heq : index' = index := by omega
    subst heq
    obtain rfl := Option.some.inj (hslot.symm.trans hslot')
    change Function.update c'.heap addr _ addr = _
    rw [Function.update_self, hkept index' addr hslot fun h => hnot h.1]
  · intro index' addr' hslot' h
    have hne : index' ≠ index := by
      rintro rfl
      exact h ⟨List.mem_cons_self, hlast⟩
    change Function.update c'.heap addr _ addr' = _
    rw [Function.update_of_ne (hother index' addr' hslot' hne)]
    exact hkept index' addr' hslot' fun hin =>
      h ⟨List.mem_cons_of_mem _ hin.1, hin.2⟩
  · intro index' addr' hslot' hin h
    exact hmem index' addr' hslot' hin fun hin' =>
      h ⟨List.mem_cons_of_mem _ hin'.1, hin'.2⟩

/-- The page loop.  It stops only at a slot whose page has left the list. -/
theorem truncateLoop_truncating (hkeyed : c.Keyed id) (hpos : 0 < c.pageSize)
    (hold : oldSize < 2 ^ 63) (hnew : newSize < 2 ^ 63) (indices : List Nat)
    (hindices : ∀ index ∈ indices, index < 2 ^ 63)
    (hnodup : (indices ++ done).Nodup)
    (hslots : ∀ index ∈ indices, ∃ addr, c.slot ⟨id, index⟩ = some addr)
    (htruncating : Truncating c id oldSize newSize done c') :
    match truncateLoop id oldSize newSize indices c' with
    | (_, .await _) => False
    | (c', .done _) =>
        Truncating c id oldSize newSize (indices.reverse ++ done) c'
    | (_, .crash) => ∃ index addr, c.slot ⟨id, index⟩ = some addr ∧
        addr ∉ c.lru := by
  induction indices generalizing c' done with
  | nil => exact htruncating
  | cons index rest ih =>
      have hnot : index ∉ done := by
        intro hin
        exact (List.nodup_cons.mp hnodup).1 (List.mem_append_right _ hin)
      obtain ⟨addr, hslot⟩ := hslots index List.mem_cons_self
      have hslot' : c'.slot ⟨id, index⟩ = some addr := by
        rw [htruncating.slot_same index fun h => hnot h.1]
        exact hslot
      have hnext : ∀ c'', Truncating c id oldSize newSize (index :: done) c'' →
          match truncateLoop id oldSize newSize rest c'' with
          | (_, .await _) => False
          | (c', .done _) => Truncating c id oldSize newSize
              ((index :: rest).reverse ++ done) c'
          | (_, .crash) => ∃ index addr, c.slot ⟨id, index⟩ = some addr ∧
              addr ∉ c.lru := by
        intro c'' h
        rw [List.reverse_cons, List.append_assoc]
        refine ih (fun index h => hindices index (List.mem_cons_of_mem _ h)) ?_
          (fun index h => hslots index (List.mem_cons_of_mem _ h)) h
        exact (List.perm_middle.nodup_iff).mpr hnodup
      have hcut := truncatePage_cut c' ⟨id, index⟩ addr
        (htruncating.pageSize ▸ hpos) hold hnew
        (hindices index List.mem_cons_self)
      unfold truncateLoop
      rw [hslot']
      dsimp only
      generalize c'.truncatePage ⟨id, index⟩ addr oldSize newSize = x at hcut
      cases hcut with
      | stay hindex hlast =>
          rw [htruncating.pageSize] at hindex hlast
          exact hnext _ (htruncating.pass hindex hlast)
      | erase hindex hmem =>
          rw [htruncating.pageSize] at hindex
          exact hnext _ (htruncating.erase hkeyed hslot hindex)
      | grow size hindex hlast =>
          rw [htruncating.pageSize] at hindex hlast
          exact hnext _ ((htruncating.grow hkeyed hslot').pass hindex hlast)
      | resize hlast hmem =>
          rw [htruncating.pageSize] at hlast ⊢
          exact hnext _ (htruncating.resize hkeyed hslot hnot hlast)
      | crash hmem =>
          refine ⟨index, addr, hslot, fun hin => hmem ?_⟩
          exact htruncating.mem index addr hslot hin fun h => hnot h.1

end

/-- The page holds exactly the bytes of the file that lie in its range. -/
structure Holds (page : Page) (flat : List Byte) (pageSize index : Nat) :
    Prop where
  size_eq : page.size = min ((index + 1) * pageSize) flat.length -
    index * pageSize
  buf_eq : page.buf = slice flat (index * pageSize) pageSize

/-- Every cached page of the file holds its bytes, and a dirty page holds at
least one. -/
structure HoldsFile (c : Cache) (id : Id) (flat : List Byte) : Prop where
  layout : Layout c 0
  pageSize_pos : 0 < c.pageSize
  wf : ∀ index addr, c.slot ⟨id, index⟩ = some addr →
    (c.heap addr).WF c.pageSize ∧ index < 2 ^ 63
  holds : ∀ index addr, c.slot ⟨id, index⟩ = some addr →
    Holds (c.heap addr) flat c.pageSize index
  dirty : ∀ index addr, c.slot ⟨id, index⟩ = some addr →
    (c.heap addr).dirty = true → 0 < (c.heap addr).size

/-- What `truncate` should leave of a cache `c` that holds the file. -/
structure Truncated (c c' : Cache) (id : Id) (flat : List Byte)
    (newSize : Nat) : Prop where
  holds : ∀ index addr, c'.slot ⟨id, index⟩ = some addr →
    Holds (c'.heap addr) (resize flat newSize) c.pageSize index
  below : ∀ index addr, c'.slot ⟨id, index⟩ = some addr →
    index * c.pageSize < newSize
  dirty : ∀ index addr, c.slot ⟨id, index⟩ = some addr →
    (c.heap addr).dirty = true →
    index * c.pageSize < min flat.length newSize →
    ∃ addr', c'.slot ⟨id, index⟩ = some addr' ∧ addr' ∈ c'.lru ∧
      (c'.heap addr').dirty = true

/-- How many pages `truncate` asks the eviction to take. -/
def truncateEvicts (c : Cache) (oldSize newSize : Nat) : Nat :=
  if numPages newSize c.pageSize > numPages oldSize c.pageSize
  then c.truncateExcess oldSize newSize else 0

/-- The pages that the eviction in `truncate` leaves in the list. -/
def kept (c : Cache) (oldSize newSize : Nat) : List Addr :=
  c.lru.take (c.lru.length - c.truncateEvicts oldSize newSize)

/-- The eviction takes neither the first page of the file nor a dirty one, and
the page loop meets none of the pages that it treats wrongly: a dirty page
that is the last of a smaller new file, the last page of the old file if the
new file ends before it or the bytes past the old end are not zero, and a page
past the old end, unless the old file is empty. -/
structure TruncatesWell (c : Cache) (id : Id) (oldSize newSize : Nat) :
    Prop where
  first : ∀ entry index addr, c.lookup id = some entry →
    firstPage entry = some (index, addr) → addr ∈ c.kept oldSize newSize
  dirty : ∀ index addr, c.slot ⟨id, index⟩ = some addr →
    (c.heap addr).dirty = true → addr ∈ c.kept oldSize newSize
  shrunk : ∀ index addr, c.slot ⟨id, index⟩ = some addr →
    addr ∈ c.kept oldSize newSize →
    index + 1 < numPages oldSize c.pageSize →
    index + 1 = numPages newSize c.pageSize → (c.heap addr).dirty = false
  last : ∀ index addr, c.slot ⟨id, index⟩ = some addr →
    addr ∈ c.kept oldSize newSize →
    index + 1 = numPages oldSize c.pageSize →
    numPages oldSize c.pageSize ≤ numPages newSize c.pageSize ∧
      ∀ pos, oldSize ≤ index * c.pageSize + pos → pos < c.pageSize →
        index * c.pageSize + pos < newSize →
        valueAt (c.heap addr).data pos = 0
  past : ∀ index addr, c.slot ⟨id, index⟩ = some addr →
    addr ∈ c.kept oldSize newSize → numPages oldSize c.pageSize ≤ index →
    numPages oldSize c.pageSize = 0 ∧ index < numPages newSize c.pageSize

section

variable {page : Page} {flat : List Byte} {pageSize index : Nat}

theorem Holds.valueAt_eq (hholds : Holds page flat pageSize index) {pos : Nat}
    (hpos : pos < page.size) :
    valueAt page.data pos = valueAt flat (index * pageSize + pos) := by
  have hsize := hholds.size_eq
  have hlt : pos < pageSize := by
    rw [Nat.succ_mul] at hsize
    omega
  have hbuf := congrArg (valueAt · pos) hholds.buf_eq
  simp only [valueAt_slice, if_pos hlt] at hbuf
  rw [← hbuf]
  simp [valueAt, Page.buf, hpos]

theorem holds_of_valueAt (hlength : page.data.length = pageSize)
    (hsize : page.size = min ((index + 1) * pageSize) flat.length -
      index * pageSize)
    (hat : ∀ pos < page.size,
      valueAt page.data pos = valueAt flat (index * pageSize + pos)) :
    Holds page flat pageSize index := by
  refine ⟨hsize, ext_valueAt ?_ ?_⟩
  · rw [Page.buf, List.length_take, length_slice, hlength, hsize,
      Nat.succ_mul]
    omega
  · intro pos
    rw [valueAt_slice]
    by_cases hpos : pos < page.size
    · have hlt : pos < pageSize := by
        rw [Nat.succ_mul] at hsize
        omega
      rw [if_pos hlt, ← hat pos hpos]
      simp [valueAt, Page.buf, hpos]
    · have hzero : valueAt page.buf pos = 0 := by
        refine valueAt_of_length_le ?_
        rw [Page.buf, List.length_take]
        omega
      rw [hzero]
      split_ifs with hlt
      · refine (valueAt_of_length_le ?_).symm
        rw [Nat.succ_mul] at hsize
        omega
      · rfl

end

section

variable {c c₁ c' : Cache} {id : Id} {flat : List Byte} {newSize : Nat}

theorem HoldsFile.keyed (hfile : c.HoldsFile id flat)
    (hpopped : Popped c (c₁, 0)) : c₁.Keyed id := by
  intro index addr hslot
  obtain ⟨hlive, hkey⟩ := hfile.layout.live_of_slot _ _
    (hpopped.slot_of _ _ hslot)
  have hlt := hfile.layout.lt_next addr hlive
  refine ⟨(hpopped.key addr).trans hkey, ?_⟩
  rw [show c₁.nextAddr = c.nextAddr from hpopped.nextAddr]
  exact hlt

/-- A page that stays in the list keeps its slot. -/
theorem Popped.slot_of_mem (hfile : c.HoldsFile id flat)
    (hpopped : Popped c (c₁, 0)) {index : Nat} {addr : Addr}
    (hslot : c.slot ⟨id, index⟩ = some addr) (hmem : addr ∈ c₁.lru) :
    c₁.slot ⟨id, index⟩ = some addr := by
  have h := hpopped.slot addr (mem_live_of_mem_lru hmem)
  rw [(hfile.layout.mem_lru hslot).2] at h
  exact h

/-- A clean page that leaves the list leaves its slot. -/
theorem Popped.slot_none (hfile : c.HoldsFile id flat)
    (hpopped : Popped c (c₁, 0)) {index : Nat} {addr : Addr}
    (hslot : c.slot ⟨id, index⟩ = some addr) (hmem : addr ∉ c₁.lru)
    (hclean : (c.heap addr).dirty = false) :
    c₁.slot ⟨id, index⟩ = none := by
  have hnot : addr ∉ c₁.live 0 := by
    simpa [mem_live] using hmem
  have h := hpopped.gone addr (hfile.layout.mem_lru hslot).1 hnot hclean
  rw [(hfile.layout.mem_lru hslot).2] at h
  exact h

theorem slot_of_mem_indices {entry : LookupEntry} {index : Nat}
    (hentry : c.lookup id = some entry) (hmem : index ∈ entry.indices) :
    ∃ addr, c.slot ⟨id, index⟩ = some addr := by
  obtain ⟨addr, hpage⟩ := Option.isSome_iff_exists.mp
    (LookupEntry.mem_indices.mp hmem)
  refine ⟨addr, ?_⟩
  simp only [slot, hentry, Option.bind_some, hpage]

/-- The first page has the smallest index. -/
theorem firstPage_le {entry : LookupEntry} {first : Nat × Addr} {index : Nat}
    (hfirst : firstPage entry = some first) (hmem : index ∈ entry.indices) :
    first.1 ≤ index := by
  obtain ⟨head, hhead, hpage⟩ := Option.bind_eq_some_iff.mp hfirst
  obtain ⟨addr, -, rfl⟩ := Option.map_eq_some_iff.mp hpage
  have hsorted := entry.indices_sorted
  cases hindices : entry.indices with
  | nil =>
      rw [hindices] at hmem
      cases hmem
  | cons i rest =>
      rw [hindices] at hhead hmem hsorted
      obtain rfl := Option.some.inj hhead
      rcases List.mem_cons.mp hmem with rfl | h
      · exact Nat.le_refl _
      · exact Nat.le_of_lt (List.rel_of_pairwise_cons hsorted h)

theorem firstPage_none {entry : LookupEntry}
    (hfirst : firstPage entry = none) : entry.indices = [] := by
  cases hindices : entry.indices with
  | nil => rfl
  | cons i rest =>
      exfalso
      have hmem : i ∈ entry.indices := by
        rw [hindices]
        exact List.mem_cons_self
      obtain ⟨addr, hpage⟩ := Option.isSome_iff_exists.mp
        (LookupEntry.mem_indices.mp hmem)
      simp [firstPage, hindices, hpage] at hfirst

theorem slot_firstPage {entry : LookupEntry} {index : Nat} {addr : Addr}
    (hentry : c.lookup id = some entry)
    (hfirst : firstPage entry = some (index, addr)) :
    c.slot ⟨id, index⟩ = some addr := by
  obtain ⟨head, hhead, hpage⟩ := Option.bind_eq_some_iff.mp hfirst
  obtain ⟨addr', hlookup, heq⟩ := Option.map_eq_some_iff.mp hpage
  obtain ⟨rfl, rfl⟩ := Prod.mk.inj heq
  simp only [slot, hentry, Option.bind_some, hlookup]

/-- The page loop has been through all pages of the file that the eviction has
left. -/
structure CutFrom (c₁ : Cache) (id : Id) (oldSize newSize : Nat)
    (first : Option (Nat × Addr)) (c' : Cache) : Prop where
  truncating : ∃ done, Truncating c₁ id oldSize newSize done c' ∧
    ∀ index addr, c₁.slot ⟨id, index⟩ = some addr → index ∈ done
  first : ∀ index addr, first = some (index, addr) →
    c₁.slot ⟨id, index⟩ = some addr

/-- `truncate` after the eviction: it goes through all pages, or it meets a
page that the eviction should have left. -/
theorem truncatePages_cut (hfile : c.HoldsFile id flat)
    (hold : flat.length < 2 ^ 63) (hnew : newSize < 2 ^ 63)
    (hpopped : Popped c (c₁, 0))
    (hlru : c₁.lru = c.kept flat.length newSize) {entry : LookupEntry}
    (hentry : c.lookup id = some entry) :
    match c₁.truncatePages id flat.length newSize (firstPage entry) with
    | (_, .await _) => False
    | (c', .done _) =>
        CutFrom c₁ id flat.length newSize (firstPage entry) c'
    | (_, .crash) => ¬ c.TruncatesWell id flat.length newSize := by
  have hkeyed := hfile.keyed hpopped
  cases hfirst : firstPage entry with
  | none =>
      refine ⟨⟨[], truncating_refl c₁ id _ _, ?_⟩, fun _ _ h => by cases h⟩
      intro index addr hslot
      have hmem := mem_indices_of_slot hentry (hpopped.slot_of _ _ hslot)
      rw [firstPage_none hfirst] at hmem
      exact hmem
  | some first =>
      obtain ⟨index, addr⟩ := first
      unfold truncatePages
      dsimp only
      by_cases hslot : c₁.slot ⟨id, index⟩ = some addr
      · rw [if_pos hslot]
        obtain ⟨entry₁, hentry₁, -⟩ := lookup_of_slot hslot
        dsimp only at hentry₁
        rw [hentry₁]
        dsimp only
        have hall : ∀ index' addr', c₁.slot ⟨id, index'⟩ = some addr' →
            index' ∈ entry₁.indices.filter (index ≤ ·) := by
          intro index' addr' hslot'
          refine List.mem_filter.mpr ⟨mem_indices_of_slot hentry₁ hslot', ?_⟩
          exact decide_eq_true (firstPage_le hfirst
            (mem_indices_of_slot hentry (hpopped.slot_of _ _ hslot')))
        have hslots : ∀ index' ∈ entry₁.indices.filter (index ≤ ·),
            ∃ addr', c₁.slot ⟨id, index'⟩ = some addr' := by
          intro index' hmem
          exact slot_of_mem_indices hentry₁ (List.mem_of_mem_filter hmem)
        have hloop := truncateLoop_truncating hkeyed
          (by
            rw [show c₁.pageSize = c.pageSize from hpopped.pageSize]
            exact hfile.pageSize_pos) hold hnew
          (entry₁.indices.filter (index ≤ ·))
          (by
            intro index' hmem
            obtain ⟨addr', hslot'⟩ := hslots index' hmem
            exact (hfile.wf index' addr' (hpopped.slot_of _ _ hslot')).2)
          (by
            rw [List.append_nil]
            exact (entry₁.indices_sorted.imp Nat.ne_of_lt).filter _)
          hslots (truncating_refl c₁ id _ _)
        generalize truncateLoop id flat.length newSize _ c₁ = x at hloop
        obtain ⟨c', _ | _ | _⟩ := x
        · exact hloop
        · refine ⟨⟨_, hloop, ?_⟩, ?_⟩
          · intro index' addr' hslot'
            rw [List.append_nil, List.mem_reverse]
            exact hall index' addr' hslot'
          · intro index' addr' heq
            obtain ⟨rfl, rfl⟩ := Prod.mk.inj (Option.some.inj heq)
            exact hslot
        · -- a page that is not listed and keeps its slot is dirty
          intro hwell
          obtain ⟨index', addr', hslot', hnot⟩ := hloop
          have hslot₀ := hpopped.slot_of _ _ hslot'
          cases hdirty : (c.heap addr').dirty with
          | true =>
              have hin := hwell.dirty index' addr' hslot₀ hdirty
              rw [← hlru] at hin
              exact hnot hin
          | false =>
              rw [hpopped.slot_none hfile hslot₀ hnot hdirty] at hslot'
              cases hslot'
      · rw [if_neg hslot]
        intro hwell
        have hin := hwell.first entry index addr hentry hfirst
        rw [← hlru] at hin
        exact hslot (hpopped.slot_of_mem hfile (slot_firstPage hentry hfirst)
          hin)

end

/-- The states of a `truncate` that runs alone. -/
inductive TruncateRun (c : Cache) (id : Id) (oldSize newSize : Nat) :
    Pool → Prop
  | start : TruncateRun c id oldSize newSize
      ⟨c, [.truncate id oldSize newSize .start], []⟩
  | evicting (c₁ : Cache) (entry : LookupEntry) (pc : EvictPc)
      (hentry : c.lookup id = some entry)
      (hpopped : Popped c (c₁, {pc.page}))
      (hlength : c₁.lru.length + c.truncateEvicts oldSize newSize =
        c.lru.length + pc.rest)
      (hdirty : ∀ page rest, pc = .opening page rest →
        (c.heap page).dirty = true) :
      TruncateRun c id oldSize newSize
        ⟨c₁, [.truncate id oldSize newSize (.evicting (firstPage entry) pc)],
          []⟩
  | missing (hentry : c.lookup id = none) :
      TruncateRun c id oldSize newSize ⟨c, [.finished (.ok ())], []⟩
  | done (c₁ c' : Cache) (entry : LookupEntry)
      (hentry : c.lookup id = some entry) (hpopped : Popped c (c₁, 0))
      (hlru : c₁.lru = c.kept oldSize newSize)
      (hcut : CutFrom c₁ id oldSize newSize (firstPage entry) c') :
      TruncateRun c id oldSize newSize ⟨c', [.finished (.ok ())], []⟩
  | crashed (c' : Cache) (hwell : ¬ c.TruncatesWell id oldSize newSize) :
      TruncateRun c id oldSize newSize ⟨c', [.crashed], []⟩

section

variable {c c₁ c' : Cache} {id : Id} {flat : List Byte} {newSize : Nat}

theorem Popped.kept_eq {oldSize : Nat} (hpopped : Popped c (c₁, 0))
    (hlength : c₁.lru.length =
      c.lru.length - c.truncateEvicts oldSize newSize) :
    c₁.lru = c.kept oldSize newSize := by
  rw [kept, ← hlength]
  exact List.prefix_iff_eq_take.mp hpopped.lru

/-- The eviction in `truncate` is over or suspended again. -/
theorem truncateRun_evict (hfile : c.HoldsFile id flat)
    (hold : flat.length < 2 ^ 63) (hnew : newSize < 2 ^ 63)
    {entry : LookupEntry} (hentry : c.lookup id = some entry)
    {x : Cache × Flow EvictPc Unit}
    (hx : Evicting c (c.truncateEvicts flat.length newSize) x)
    (hcrash : x.2 ≠ .crash) :
    TruncateRun c id flat.length newSize
      ⟨(Task.ofFlow (.truncate id flat.length newSize)
        (fun _ => .finished (.ok ()))
        (Flow.andThen x (.evicting (firstPage entry)) fun c _ =>
          c.truncatePages id flat.length newSize (firstPage entry))).1,
      [(Task.ofFlow (.truncate id flat.length newSize)
        (fun _ => .finished (.ok ()))
        (Flow.andThen x (.evicting (firstPage entry)) fun c _ =>
          c.truncatePages id flat.length newSize (firstPage entry))).2],
      []⟩ := by
  obtain ⟨c₁, pc | _ | _⟩ := x
  · exact .evicting c₁ entry pc hentry hx.1 hx.2.1 hx.2.2
  · have hlru := hx.1.kept_eq hx.2
    have hcut := truncatePages_cut hfile hold hnew hx.1 hlru hentry
    simp only [Flow.andThen]
    generalize c₁.truncatePages id flat.length newSize (firstPage entry) = y
      at hcut
    obtain ⟨c', _ | _ | _⟩ := y
    · exact hcut.elim
    · exact .done c₁ c' entry hentry hx.1 hlru hcut
    · exact .crashed c' hcut
  · exact absurd rfl hcrash

theorem TruncateRun.resume (hfile : c.HoldsFile id flat)
    (hold : flat.length < 2 ^ 63) (hnew : newSize < 2 ^ 63) {p p' : Pool}
    (hrun : TruncateRun c id flat.length newSize p) {i : Nat} {reply : Reply}
    (hresume : p.resume i reply = some p') :
    TruncateRun c id flat.length newSize p' := by
  cases hrun with
  | start =>
      obtain ⟨c', task', hstep, rfl⟩ := Pool.resume_alone hresume
      obtain ⟨x, hx, hof⟩ := Option.map_eq_some_iff.mp hstep
      cases reply with
      | go =>
          obtain rfl := Option.some.inj hx
          unfold truncateStart at hof
          cases hentry : c.lookup id with
          | none =>
              rw [hentry] at hof
              obtain ⟨rfl, rfl⟩ := Prod.mk.inj hof
              exact .missing hentry
          | some entry =>
              rw [hentry] at hof
              have hrun := truncateRun_evict hfile hold hnew hentry
                (evict_evicting hfile.layout _)
                (evict_ne_crash (c.truncateEvicts flat.length newSize) c)
              dsimp only at hof
              rw [← truncateEvicts] at hof
              rw [hof] at hrun
              exact hrun
      | _ => cases hx
  | evicting c₁ entry pc hentry hpopped hlength hdirty =>
      obtain ⟨c', task', hstep, rfl⟩ := Pool.resume_alone hresume
      obtain ⟨x, hx, hof⟩ := Option.map_eq_some_iff.mp hstep
      obtain ⟨y, hy, rfl⟩ := Option.map_eq_some_iff.mp hx
      have hrun := truncateRun_evict hfile hold hnew hentry
        (evictResume_evicting hy hpopped hlength hdirty)
        (evictResume_ne_crash hy)
      rw [hof] at hrun
      exact hrun
  | missing hentry =>
      obtain ⟨_, _, hstep, -⟩ := Pool.resume_alone hresume
      cases hstep
  | done c₁ c' entry hentry hpopped hlru hcut =>
      obtain ⟨_, _, hstep, -⟩ := Pool.resume_alone hresume
      cases hstep
  | crashed c' hwell =>
      obtain ⟨_, _, hstep, -⟩ := Pool.resume_alone hresume
      cases hstep

end

end Cache

end Madbfs
