/-
The pages of the cache, and how a byte range is split over them.  A page owns
a buffer of one page size of bytes, of which the first `size` are valid.
-/
import Madbfs.Bytes
import Madbfs.Common

namespace Madbfs

open Bytes

/-- `PageKey`: a page of a file in the cache. -/
structure PageKey where
  id : Id
  index : Nat
deriving Repr, DecidableEq, Inhabited

/-- `Page`.  `data` is the whole buffer; `size` and `pageSize` are `u32`
members. -/
structure Page where
  key : PageKey
  data : List Byte
  size : Nat
  pageSize : Nat
  dirty : Bool
deriving Repr, DecidableEq, Inhabited

namespace Page

/-- The constructor: `size` and `page_size` are narrowed to `u32`. -/
def create (key : PageKey) (buf : List Byte) (size pageSize : Nat) : Page where
  key := key
  data := buf
  size := u32 size
  pageSize := u32 pageSize
  dirty := false

/-- `std::make_unique<char[]>(page_size)` is value-initialised. -/
def zeroBuf (pageSize : Nat) : List Byte :=
  List.replicate pageSize 0

/-- `Page::read`.  The subtraction `m_size - offset` is done in `usize` and
wraps for an offset past the valid size. -/
def read (page : Page) (len offset : Nat) : List Byte :=
  slice page.data offset (min (usub page.size offset) len)

/-- `Page::write`, with the number of bytes written. -/
def write (page : Page) (input : List Byte) (offset : Nat) : Page × Nat :=
  if offset ≥ page.pageSize then (page, 0)
  else
    let stop := min (u32 (offset + input.length)) page.pageSize
    ({ page with
        data := overlay page.data offset (input.take (stop - offset))
        size := max stop page.size }, stop - offset)

/-- `Page::truncate`. -/
def truncate (page : Page) (size : Nat) : Page :=
  { page with size := min (u32 size) page.pageSize }

def setDirty (page : Page) (set : Bool) : Page :=
  { page with dirty := set }

/-- `Page::buf`: the valid bytes. -/
def buf (page : Page) : List Byte :=
  page.data.take page.size

/-- The buffer has exactly the page size, which fits its `u32` member, and
the valid size stays within it. -/
structure WF (page : Page) (pageSize : Nat) : Prop where
  pageSize_eq : page.pageSize = pageSize
  length_data : page.data.length = pageSize
  size_le : page.size ≤ pageSize
  pageSize_lt : pageSize < 2 ^ 32

/-- The bytes of the buffer past the valid size are zero. -/
def ZeroTail (page : Page) : Prop :=
  ∀ pos, page.size ≤ pos → valueAt page.data pos = 0

section

variable {page : Page} {pageSize : Nat}

theorem valueAt_zeroBuf (pageSize pos : Nat) :
    valueAt (zeroBuf pageSize) pos = 0 := by
  simp only [valueAt, zeroBuf, List.getD_eq_getElem?_getD,
    List.getElem?_replicate]
  split_ifs <;> rfl

theorem write_key (page : Page) (input : List Byte) (offset : Nat) :
    (page.write input offset).1.key = page.key := by
  unfold write
  split <;> rfl

theorem size_le_write (page : Page) (input : List Byte) (offset : Nat) :
    page.size ≤ (page.write input offset).1.size := by
  unfold write
  split
  · exact Nat.le_refl _
  · exact Nat.le_max_right _ _

theorem WF.write (hpage : page.WF pageSize) (input : List Byte)
    (offset : Nat) : (page.write input offset).1.WF pageSize := by
  have hlength := hpage.length_data
  have hsize := hpage.size_le
  have heq := hpage.pageSize_eq
  unfold Page.write
  split
  · exact hpage
  · next hoffset =>
      refine ⟨heq, ?_, ?_, hpage.pageSize_lt⟩
      · have hle : offset + (input.take (min (u32 (offset + input.length))
            page.pageSize - offset)).length ≤ page.data.length := by
          rw [List.length_take]
          omega
        exact (length_overlay_of_le hle).trans hlength
      · change max _ _ ≤ pageSize
        omega

theorem ZeroTail.write (hpage : page.ZeroTail) (input : List Byte)
    (offset : Nat) : (page.write input offset).1.ZeroTail := by
  unfold Page.write
  split
  · exact hpage
  · intro pos hpos
    change max _ _ ≤ pos at hpos
    rw [valueAt_overlay, List.length_take, if_neg (by omega)]
    exact hpage pos (by omega)

/-- A write inside the page, without the narrowing and the clamping. -/
theorem write_eq (hpage : page.WF pageSize) {input : List Byte} {offset : Nat}
    (hoffset : offset < pageSize)
    (hle : offset + input.length ≤ pageSize) :
    page.write input offset = ({ page with
      data := overlay page.data offset input
      size := max (offset + input.length) page.size }, input.length) := by
  have hlt := hpage.pageSize_lt
  have heq := hpage.pageSize_eq
  have hnarrow : u32 (offset + input.length) = offset + input.length :=
    u32_of_lt (by omega)
  have hstop : min (offset + input.length) page.pageSize =
      offset + input.length := by omega
  unfold Page.write
  rw [if_neg (by omega), hnarrow, hstop]
  simp only [Nat.add_sub_cancel_left, List.take_length]

end

end Page

end Madbfs
