/-
Intervals that lie one behind the other.  A part is given by its start and its
size; parts tile the range from `start` to `stop` when each begins where the one
before it ends.  Then every position of the range is in a part, and in only one
of them, and the slices of a list at the parts give the range back.
-/
import Mathlib.Data.List.Basic
import Mathlib.Data.List.Range

namespace Madbfs

universe u

/-- The parts lie one behind the other, from `start` to `stop`. -/
def Tiles : Nat → List (Nat × Nat) → Nat → Prop
  | start, [], stop => start = stop
  | start, part :: rest, stop =>
      part.1 = start ∧ Tiles (start + part.2) rest stop

/-- The position is in the part. -/
def Inside (part : Nat × Nat) (pos : Nat) : Prop :=
  part.1 ≤ pos ∧ pos < part.1 + part.2

namespace Tiles

variable {start stop pos : Nat} {part : Nat × Nat} {parts : List (Nat × Nat)}

theorem start_le (h : Tiles start parts stop) : start ≤ stop := by
  induction parts generalizing start with
  | nil => exact Nat.le_of_eq h
  | cons part rest ih =>
      have hrest := ih h.2
      omega

theorem start_le_of_mem (h : Tiles start parts stop) (hpart : part ∈ parts) :
    start ≤ part.1 := by
  induction parts generalizing start with
  | nil => cases hpart
  | cons first rest ih =>
      rcases List.mem_cons.mp hpart with rfl | hrest
      · exact Nat.le_of_eq h.1.symm
      · have hle := ih h.2 hrest
        omega

theorem inside_iff (h : Tiles start parts stop) (pos : Nat) :
    (∃ part ∈ parts, Inside part pos) ↔ start ≤ pos ∧ pos < stop := by
  induction parts generalizing start with
  | nil =>
      have heq : start = stop := h
      simp only [List.not_mem_nil, false_and, exists_false, false_iff]
      omega
  | cons part rest ih =>
      have hle := h.2.start_le
      have hfirst := h.1
      have hrest := ih h.2
      simp only [List.mem_cons, exists_eq_or_imp]
      rw [hrest]
      unfold Inside
      omega

/-- A position is in one part at most: the others begin where it ends. -/
theorem eq_of_inside {other : Nat × Nat} (h : Tiles start parts stop)
    (hpart : part ∈ parts) (hother : other ∈ parts)
    (hin : Inside part pos) (hin' : Inside other pos) : part = other := by
  induction parts generalizing start with
  | nil => cases hpart
  | cons first rest ih =>
      have hfirst := h.1
      have hafter : ∀ next ∈ rest, first.1 + first.2 ≤ next.1 := by
        intro next hnext
        have hle := h.2.start_le_of_mem hnext
        omega
      unfold Inside at hin hin'
      rcases List.mem_cons.mp hpart with rfl | hrest
      · rcases List.mem_cons.mp hother with rfl | hrest'
        · rfl
        · have hle := hafter other hrest'
          omega
      · rcases List.mem_cons.mp hother with rfl | hrest'
        · have hle := hafter part hrest
          omega
        · exact ih h.2 hrest hrest'

theorem existsUnique_inside (h : Tiles start parts stop) (hle : start ≤ pos)
    (hlt : pos < stop) : ∃! part, part ∈ parts ∧ Inside part pos := by
  obtain ⟨part, hpart, hin⟩ := (h.inside_iff pos).mpr ⟨hle, hlt⟩
  refine ⟨part, ⟨hpart, hin⟩, ?_⟩
  rintro other ⟨hother, hin'⟩
  exact h.eq_of_inside hother hpart hin' hin

/-- The page of an index, cut to the range from `offset` to `stop`, counted from
`offset`. -/
def page (pageSize offset stop k : Nat) : Nat × Nat :=
  (max offset (k * pageSize) - offset,
    min stop (k * pageSize + pageSize) - max offset (k * pageSize))

theorem of_later_pages {pageSize offset first count : Nat}
    (hpages : ∀ k, first ≤ k → k < first + count →
      offset < k * pageSize + pageSize ∧ k * pageSize < stop)
    (hlast : stop ≤ (first + count) * pageSize)
    (hfirst : first * pageSize ≤ stop) (hoffset : offset < stop) :
    Tiles (max offset (first * pageSize) - offset)
      ((List.range' first count).map (page pageSize offset stop))
      (stop - offset) := by
  induction count generalizing first with
  | zero =>
      rw [Nat.add_zero] at hlast
      change max offset (first * pageSize) - offset = stop - offset
      omega
  | succ count ih =>
      have hnext : (first + 1) * pageSize = first * pageSize + pageSize :=
        Nat.succ_mul first pageSize
      have hhere := hpages first (Nat.le_refl first) (by omega)
      rw [List.range'_succ, List.map_cons]
      refine ⟨rfl, ?_⟩
      by_cases hcount : count = 0
      · subst hcount
        rw [Nat.zero_add, hnext] at hlast
        change _ = stop - offset
        unfold page
        dsimp only
        omega
      · have hpage := (hpages (first + 1) (by omega) (by omega)).2
        have hrest := ih (fun k hle hlt => hpages k (by omega) (by omega))
          (by rw [Nat.add_right_comm]; exact hlast) (Nat.le_of_lt hpage)
        rw [hnext] at hpage hrest
        have hstart : max offset (first * pageSize) - offset +
            (page pageSize offset stop first).2 =
            max offset (first * pageSize + pageSize) - offset := by
          unfold page
          omega
        rw [hstart]
        exact hrest

/-- The pages a range lies on, cut to it, tile it. -/
theorem of_pages {pageSize offset first count : Nat}
    (hpages : ∀ k, first ≤ k → k < first + count →
      offset < k * pageSize + pageSize ∧ k * pageSize < stop)
    (hlast : stop ≤ (first + count) * pageSize)
    (hfirst : first * pageSize ≤ offset) (hoffset : offset < stop) :
    Tiles 0 ((List.range' first count).map (page pageSize offset stop))
      (stop - offset) := by
  have htiles := of_later_pages hpages hlast (by omega) hoffset
  rw [Nat.max_eq_left hfirst, Nat.sub_self] at htiles
  exact htiles

end Tiles

end Madbfs
