/-
Flat files as byte strings.  A file is a list with a zero element; a position
past the end reads as zero.  Writing at an offset overlays a range and fills
the gap before it, a slice is what a positional read returns.  Everything is
determined by the length and by the value read at each position, and the
lemmas below are stated in those two terms.
-/
import Mathlib.Data.List.GetD
import Mathlib.Data.UInt
import Mathlib.Tactic.SplitIfs

namespace Madbfs

namespace Bytes

universe u

variable {α : Type u} [Zero α]

/-- The value at a position; past the end it is zero. -/
def valueAt (file : List α) (pos : Nat) : α :=
  file.getD pos 0

/-- A positional write.  The gap between the old end and the offset is filled
with zeros; an empty write changes nothing, not even the length. -/
def overlay (file : List α) (off : Nat) (bytes : List α) : List α :=
  if bytes.length = 0 then file
  else file.take off ++ List.replicate (off - file.length) 0 ++ bytes ++
    file.drop (off + bytes.length)

/-- A positional read of at most `len` values. -/
def slice (file : List α) (off len : Nat) : List α :=
  (file.drop off).take len

/-- Cut a file to `size`, or extend it with zeros. -/
def resize (file : List α) (size : Nat) : List α :=
  file.take size ++ List.replicate (size - file.length) 0

theorem valueAt_of_length_le {file : List α} {pos : Nat}
    (hpos : file.length ≤ pos) : valueAt file pos = 0 :=
  List.getD_eq_default _ _ hpos

theorem ext_valueAt {left right : List α} (hlength : left.length = right.length)
    (hat : ∀ pos, valueAt left pos = valueAt right pos) : left = right := by
  apply List.ext_getElem hlength
  intro pos hleft hright
  have hpos := hat pos
  simpa [valueAt, List.getD_eq_getElem, hleft, hright] using hpos

@[simp] theorem overlay_nil (file : List α) (off : Nat) :
    overlay file off [] = file := by
  simp [overlay]

theorem length_overlay (file : List α) (off : Nat) {bytes : List α}
    (hbytes : 0 < bytes.length) :
    (overlay file off bytes).length =
      max file.length (off + bytes.length) := by
  simp only [overlay, Nat.pos_iff_ne_zero.mp hbytes, ↓reduceIte,
    List.length_append, List.length_take, List.length_replicate,
    List.length_drop]
  omega

theorem length_overlay_of_le {file : List α} {off : Nat} {bytes : List α}
    (hle : off + bytes.length ≤ file.length) :
    (overlay file off bytes).length = file.length := by
  rcases Nat.eq_zero_or_pos bytes.length with hzero | hpos
  · simp [overlay, hzero]
  · rw [length_overlay file off hpos]
    omega

/-- A written position reads the written value, any other position keeps what
it held. -/
theorem valueAt_overlay (file : List α) (off : Nat) (bytes : List α) (pos : Nat) :
    valueAt (overlay file off bytes) pos =
      if off ≤ pos ∧ pos < off + bytes.length then valueAt bytes (pos - off)
      else valueAt file pos := by
  rcases Nat.eq_zero_or_pos bytes.length with hzero | hpos
  · have hout : ¬ (off ≤ pos ∧ pos < off + bytes.length) := by omega
    rw [if_neg hout]
    simp [overlay, hzero]
  · simp only [valueAt, overlay, Nat.pos_iff_ne_zero.mp hpos, ↓reduceIte,
      List.getD_eq_getElem?_getD, List.getElem?_append, List.length_append,
      List.length_take, List.length_replicate, List.getElem?_take,
      List.getElem?_replicate, List.getElem?_drop]
    by_cases hbefore : pos < off
    · have hout : ¬ (off ≤ pos ∧ pos < off + bytes.length) := by omega
      rw [if_neg hout]
      by_cases hin : pos < file.length
      · have h1 : pos < min off file.length := by omega
        have h2 : pos < min off file.length + (off - file.length) := by omega
        have h3 : pos < min off file.length + (off - file.length) +
            bytes.length := by omega
        simp [h1, h2, h3, hbefore]
      · have h1 : ¬ pos < min off file.length := by omega
        have h2 : pos < min off file.length + (off - file.length) := by omega
        have h3 : pos < min off file.length + (off - file.length) +
            bytes.length := by omega
        have h4 : pos - min off file.length < off - file.length := by omega
        have h5 : file.length ≤ pos := by omega
        simp [h1, h2, h3, h4, h5]
    · by_cases hin : pos < off + bytes.length
      · have hcond : off ≤ pos ∧ pos < off + bytes.length := by omega
        have h2 : ¬ pos < min off file.length + (off - file.length) := by omega
        have h3 : pos < min off file.length + (off - file.length) +
            bytes.length := by omega
        have h4 : pos - (min off file.length + (off - file.length)) =
            pos - off := by omega
        rw [if_pos hcond]
        simp [h2, h3, h4]
      · have hout : ¬ (off ≤ pos ∧ pos < off + bytes.length) := by omega
        have h3 : ¬ pos < min off file.length + (off - file.length) +
            bytes.length := by omega
        have h4 : off + bytes.length +
            (pos - (min off file.length + (off - file.length) +
              bytes.length)) = pos := by omega
        rw [if_neg hout]
        simp [h3, h4]

theorem getElem?_of_lt {file : List α} {pos : Nat}
    (hlt : pos < file.length) : file[pos]? = some (valueAt file pos) := by
  rw [List.getElem?_eq_getElem hlt, valueAt, List.getD_eq_getElem _ _ hlt]

/-- A byte that is written is read back. -/
theorem getElem?_overlay_inside {file bytes : List α} {off pos : Nat}
    (hle : off ≤ pos) (hlt : pos < off + bytes.length) :
    (overlay file off bytes)[pos]? = some (valueAt bytes (pos - off)) := by
  have hbytes : 0 < bytes.length := by omega
  have hlength := length_overlay file off hbytes
  rw [getElem?_of_lt (by omega), valueAt_overlay, if_pos ⟨hle, hlt⟩]

/-- A byte that is not written over is kept. -/
theorem getElem?_overlay_outside {file bytes : List α} {off pos : Nat}
    {value : α} (hvalue : file[pos]? = some value)
    (hout : ¬ (off ≤ pos ∧ pos < off + bytes.length)) :
    (overlay file off bytes)[pos]? = some value := by
  obtain ⟨hlt, -⟩ := List.getElem?_eq_some_iff.mp hvalue
  rw [getElem?_of_lt hlt] at hvalue
  by_cases hpos : 0 < bytes.length
  · have hlength := length_overlay file off hpos
    rw [getElem?_of_lt (by omega), valueAt_overlay, if_neg hout]
    exact hvalue
  · obtain rfl := List.length_eq_zero_iff.mp (Nat.eq_zero_of_not_pos hpos)
    rw [overlay_nil, getElem?_of_lt hlt]
    exact hvalue

omit [Zero α] in
@[simp] theorem length_slice (file : List α) (off len : Nat) :
    (slice file off len).length = min len (file.length - off) := by
  simp [slice]

theorem valueAt_slice (file : List α) (off len pos : Nat) :
    valueAt (slice file off len) pos =
      if pos < len then valueAt file (off + pos) else 0 := by
  simp only [valueAt, slice, List.getD_eq_getElem?_getD, List.getElem?_take,
    List.getElem?_drop]
  split_ifs <;> simp

/-- Two writes in a row are one. -/
theorem overlay_append (file : List α) (off : Nat) (left right : List α) :
    overlay (overlay file off left) (off + left.length) right =
      overlay file off (left ++ right) := by
  rcases Nat.eq_zero_or_pos left.length with hleft | hleft
  · rw [List.eq_nil_of_length_eq_zero hleft]
    simp
  rcases Nat.eq_zero_or_pos right.length with hright | hright
  · rw [List.eq_nil_of_length_eq_zero hright]
    simp
  apply ext_valueAt
  · rw [length_overlay _ _ hright, length_overlay _ _ hleft,
      length_overlay _ _ (by rw [List.length_append]; omega),
      List.length_append]
    omega
  · intro pos
    simp only [valueAt_overlay, List.length_append]
    rcases Nat.lt_or_ge pos off with hbefore | hafter
    · rw [if_neg (by omega), if_neg (by omega), if_neg (by omega)]
    rcases Nat.lt_or_ge pos (off + left.length) with hin | hout
    · rw [if_neg (by omega), if_pos ⟨hafter, hin⟩, if_pos (by omega)]
      exact (List.getD_append _ _ _ _ (by omega)).symm
    · by_cases hend : pos < off + left.length + right.length
      · rw [if_pos ⟨hout, hend⟩, if_pos (by omega), valueAt, valueAt,
          List.getD_append_right _ _ _ _ (by omega), Nat.sub_sub]
      · rw [if_neg (by omega), if_neg (by omega), if_neg (by omega)]

omit [Zero α] in
theorem slice_append (file : List α) (off len more : Nat) :
    slice file off len ++ slice file (off + len) more =
      slice file off (len + more) := by
  rw [slice, slice, slice, List.take_add, List.drop_drop]

omit [Zero α] in
/-- A slice does not change when the list grows. -/
theorem slice_append_of_le {file : List α} {off len : Nat} (more : List α)
    (hle : off + len ≤ file.length) :
    slice (file ++ more) off len = slice file off len := by
  rw [slice, slice, List.drop_append_of_le_length (by omega),
    List.take_append_of_le_length (by rw [List.length_drop]; omega)]

section SameSlice

variable {left right : List α} {off len : Nat}

theorem valueAt_of_slice_eq (hslice : slice left off len = slice right off len)
    {pos : Nat} (hpos : pos < len) :
    valueAt left (off + pos) = valueAt right (off + pos) := by
  have hvalue := congrArg (fun bytes => valueAt bytes pos) hslice
  simp only [valueAt_slice, hpos, ↓reduceIte] at hvalue
  exact hvalue

omit [Zero α] in
/-- What ends in the part that two files have in common is in both. -/
theorem le_length_of_slice_eq
    (hslice : slice left off len = slice right off len) {n : Nat}
    (hpos : 0 < n) (hn : n ≤ len) (hle : off + n ≤ left.length) :
    off + n ≤ right.length := by
  have hlength := congrArg List.length hslice
  rw [length_slice, length_slice] at hlength
  omega

end SameSlice

theorem slice_eq_of_valueAt {file bytes : List α} {off : Nat}
    (hle : off + bytes.length ≤ file.length)
    (hat : ∀ pos < bytes.length, valueAt bytes pos = valueAt file (off + pos)) :
    bytes = slice file off bytes.length := by
  apply ext_valueAt
  · rw [length_slice]
    omega
  · intro pos
    rw [valueAt_slice]
    split_ifs with hpos
    · exact hat pos hpos
    · exact valueAt_of_length_le (by omega)

@[simp] theorem length_resize (file : List α) (size : Nat) :
    (resize file size).length = size := by
  simp only [resize, List.length_append, List.length_take,
    List.length_replicate]
  omega

theorem valueAt_resize (file : List α) (size pos : Nat) :
    valueAt (resize file size) pos = if pos < size then valueAt file pos else 0 := by
  by_cases hpos : pos < size
  · rw [if_pos hpos]
    by_cases hin : pos < file.length
    · have h1 : pos < min size file.length := by omega
      simp [valueAt, resize, List.getElem?_append, h1,
        List.getElem?_eq_getElem hin]
    · have h1 : ¬ pos < min size file.length := by omega
      have h2 : pos - min size file.length < size - file.length := by omega
      have h3 : file.length ≤ pos := by omega
      simp [valueAt, resize, List.getElem?_append, h1, h2, h3]
  · rw [if_neg hpos]
    exact valueAt_of_length_le (by rw [length_resize]; omega)

end Bytes

end Madbfs
