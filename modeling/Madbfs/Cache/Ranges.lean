/-
How a buffer is split over pages.  The parts of `read` and `write` lie inside
their pages, cover the byte range of the call exactly, and come from different
pages.  This holds as long as the range ends below the largest file offset, so
that none of the unsigned subtractions wraps.
-/
import Madbfs.Cache.Executor
import Madbfs.Tiling

namespace Madbfs

namespace Range

/-- The part of the buffer that is copied from or to a page. -/
def part (r : Range) (pageSize : Nat) : Nat × Nat :=
  (r.bufOffset pageSize, r.localSize pageSize)

/-- The subtractions `read_at` and `write_at` make, with what each subtracts. -/
def subtractions (r : Range) (pageSize : Nat) : List (Nat × Nat) :=
  (if r.index = r.first then [(pageSize, r.localOffset pageSize)] else []) ++
  (if r.index = r.last then
    [(r.len + r.offset % pageSize, 1),
      (usub (r.len + r.offset % pageSize) 1 % pageSize + 1,
        r.localOffset pageSize)] else []) ++
  (if r.index ≥ r.first + 1 then
    [(r.index, r.first),
      ((r.index - r.first) * pageSize, r.offset % pageSize)] else [])

/-- Where the part of a page starts in the file, and where it stops. -/
def start (r : Range) (pageSize : Nat) : Nat :=
  r.index * pageSize + r.localOffset pageSize

def stop (r : Range) (pageSize : Nat) : Nat :=
  r.start pageSize + r.localSize pageSize

/-- The part of a page, in the terms of the file and of the buffer. -/
structure Fits (r : Range) (pageSize : Nat) : Prop where
  offset_lt : r.localOffset pageSize < pageSize
  size_pos : 0 < r.localSize pageSize
  stop_le_page : r.localOffset pageSize + r.localSize pageSize ≤ pageSize
  start_eq : r.offset + r.bufOffset pageSize = r.start pageSize
  stop_le : r.stop pageSize ≤ r.offset + r.len

end Range

namespace Call

section

variable {pageSize : Nat} {id : Id} {len offset : Nat}

theorem mem_ranges {r : Range} :
    r ∈ ranges pageSize id len offset ↔
      (offset / pageSize ≤ r.index ∧
        r.index < offset / pageSize + (usub (offset + len) 1 / pageSize + 1 -
          offset / pageSize)) ∧
      r = ⟨id, r.index, offset / pageSize, usub (offset + len) 1 / pageSize,
        offset, len⟩ := by
  unfold ranges
  rw [List.mem_map]
  constructor
  · rintro ⟨index, hindex, rfl⟩
    rw [List.mem_range'_1] at hindex
    exact ⟨hindex, rfl⟩
  · rintro ⟨hindex, heq⟩
    refine ⟨r.index, ?_, heq.symm⟩
    rw [List.mem_range'_1]
    exact hindex

/-- The bounds of a part in plain arithmetic.  Away from the ends of the call
it is the whole page. -/
theorem range_bounds (hpage : 0 < pageSize) (hlt : pageSize < 2 ^ 64)
    (hlen : 0 < len) (hmax : offset + len < 2 ^ 63) {r : Range}
    (hr : r ∈ ranges pageSize id len offset) :
    r.index * pageSize ≤ offset + len - 1 ∧
      offset < r.index * pageSize + pageSize ∧
      r.localOffset pageSize = max offset (r.index * pageSize) -
        r.index * pageSize ∧
      r.localSize pageSize = min (offset + len)
        (r.index * pageSize + pageSize) - max offset (r.index * pageSize) ∧
      r.bufOffset pageSize = max offset (r.index * pageSize) - offset := by
  obtain ⟨⟨hfirst, hlast⟩, heq⟩ := mem_ranges.mp hr
  generalize hk : r.index = k at hfirst hlast heq
  subst heq
  have hend : usub (offset + len) 1 = offset + len - 1 :=
    usub_of_le (by omega) (by omega)
  rw [hend] at hlast ⊢
  have hdiv := Nat.div_add_mod' offset pageSize
  have hmod := Nat.mod_lt offset hpage
  have hdiv' := Nat.div_add_mod' (offset + len - 1) pageSize
  have hmod' := Nat.mod_lt (offset + len - 1) hpage
  have hmono : offset / pageSize ≤ (offset + len - 1) / pageSize :=
    Nat.div_le_div_right (by omega)
  have hklast : k ≤ (offset + len - 1) / pageSize := by omega
  have htail : usub (len + offset % pageSize) 1 % pageSize =
      (offset + len - 1) % pageSize := by
    rw [usub_of_le (by omega) (by omega)]
    have hsplit : offset + len - 1 = len + offset % pageSize - 1 +
        offset / pageSize * pageSize := by omega
    rw [hsplit, Nat.add_mul_mod_self_right]
  have hkmul : k * pageSize ≤ (offset + len - 1) / pageSize * pageSize :=
    Nat.mul_le_mul_right _ hklast
  have hfmul : offset / pageSize * pageSize ≤ k * pageSize :=
    Nat.mul_le_mul_right _ hfirst
  have hoffset : Range.localOffset ⟨id, k, offset / pageSize,
      (offset + len - 1) / pageSize, offset, len⟩ pageSize =
      max offset (k * pageSize) - k * pageSize := by
    unfold Range.localOffset
    dsimp only
    split_ifs with heq
    · rw [heq]
      omega
    · have hlt : offset / pageSize + 1 ≤ k := by omega
      have hmul := Nat.mul_le_mul_right pageSize hlt
      rw [Nat.succ_mul] at hmul
      omega
  refine ⟨by omega, by omega, hoffset, ?_, ?_⟩
  · unfold Range.localSize
    rw [hoffset, htail]
    dsimp only
    split_ifs with hk hk'
    · subst hk
      rw [usub_of_le (by omega) (by omega)]
      omega
    · subst hk'
      have hlt : offset / pageSize + 1 ≤ (offset + len - 1) / pageSize := by
        omega
      have hmul := Nat.mul_le_mul_right pageSize hlt
      rw [Nat.succ_mul] at hmul
      rw [usub_of_le (by omega) (by omega)]
      omega
    · have hlt : offset / pageSize + 1 ≤ k := by omega
      have hmul := Nat.mul_le_mul_right pageSize hlt
      have hlt' : k + 1 ≤ (offset + len - 1) / pageSize := by omega
      have hmul' := Nat.mul_le_mul_right pageSize hlt'
      rw [Nat.succ_mul] at hmul hmul'
      omega
  · unfold Range.bufOffset
    dsimp only
    split_ifs with hge
    · have hmul := Nat.mul_le_mul_right pageSize hge
      rw [Nat.succ_mul] at hmul
      rw [Nat.sub_mul, usub_of_le (by omega) (by omega)]
      omega
    · have heq : k = offset / pageSize := by omega
      rw [heq]
      omega

theorem ranges_fits (hpage : 0 < pageSize) (hlt : pageSize < 2 ^ 64)
    (hlen : 0 < len) (hmax : offset + len < 2 ^ 63) {r : Range}
    (hr : r ∈ ranges pageSize id len offset) : r.Fits pageSize := by
  obtain ⟨hstop, hstart, hoffset, hsize, hbuf⟩ :=
    range_bounds hpage hlt hlen hmax hr
  have hdata := (mem_ranges.mp hr).2
  have hoff : r.offset = offset := by rw [hdata]
  have hrlen : r.len = len := by rw [hdata]
  refine ⟨by omega, by omega, by omega, ?_, ?_⟩
  · rw [Range.start, hoff, hbuf, hoffset]
    omega
  · rw [Range.stop, Range.start, hoff, hrlen, hoffset, hsize]
    omega

/-- In the buffer the parts are the pages, cut to the range of the call. -/
theorem part_eq_page (hpage : 0 < pageSize) (hlt : pageSize < 2 ^ 64)
    (hlen : 0 < len) (hmax : offset + len < 2 ^ 63) {r : Range}
    (hr : r ∈ ranges pageSize id len offset) :
    r.part pageSize = Tiles.page pageSize offset (offset + len) r.index := by
  obtain ⟨-, -, -, hsize, hbuf⟩ := range_bounds hpage hlt hlen hmax hr
  rw [Range.part, Tiles.page, hsize, hbuf]

theorem index_ranges (pageSize : Nat) (id : Id) (len offset : Nat) :
    (ranges pageSize id len offset).map Range.index =
      List.range' (offset / pageSize)
        (usub (offset + len) 1 / pageSize + 1 - offset / pageSize) := by
  rw [ranges, List.map_map]
  exact List.map_id _

theorem tiles_ranges (id : Id) (hpage : 0 < pageSize) (hlt : pageSize < 2 ^ 64)
    (hlen : 0 < len) (hmax : offset + len < 2 ^ 63) :
    Tiles 0 ((ranges pageSize id len offset).map (Range.part · pageSize))
      len := by
  have hpages : (ranges pageSize id len offset).map (Range.part · pageSize) =
      ((ranges pageSize id len offset).map Range.index).map
        (Tiles.page pageSize offset (offset + len)) := by
    rw [List.map_map]
    exact List.map_congr_left fun r hr => part_eq_page hpage hlt hlen hmax hr
  have hend : usub (offset + len) 1 = offset + len - 1 :=
    usub_of_le (by omega) (by omega)
  have hmono : offset / pageSize ≤ (offset + len - 1) / pageSize :=
    Nat.div_le_div_right (by omega)
  have hfirst := Nat.div_mul_le_self offset pageSize
  have hbelow : offset < offset / pageSize * pageSize + pageSize :=
    Nat.lt_div_mul_add hpage
  have hlast := Nat.div_mul_le_self (offset + len - 1) pageSize
  have hbelow' : offset + len - 1 <
      (offset + len - 1) / pageSize * pageSize + pageSize :=
    Nat.lt_div_mul_add hpage
  have htiles : Tiles 0 ((List.range' (offset / pageSize)
      ((offset + len - 1) / pageSize + 1 - offset / pageSize)).map
        (Tiles.page pageSize offset (offset + len)))
      (offset + len - offset) := by
    apply Tiles.of_pages
    · intro k hle hlt
      have hfk := Nat.mul_le_mul_right pageSize hle
      have hkl : k ≤ (offset + len - 1) / pageSize := by omega
      have hkmul := Nat.mul_le_mul_right pageSize hkl
      omega
    · have hcount : offset / pageSize +
          ((offset + len - 1) / pageSize + 1 - offset / pageSize) =
          (offset + len - 1) / pageSize + 1 := by
        omega
      rw [hcount, Nat.succ_mul]
      omega
    · exact hfirst
    · omega
  rw [hpages, index_ranges, hend]
  rw [Nat.add_sub_cancel_left] at htiles
  exact htiles

/-- None of the subtractions of a part wraps. -/
theorem subtractions_le (hpage : 0 < pageSize) (hlt : pageSize < 2 ^ 64)
    (hlen : 0 < len) (hmax : offset + len < 2 ^ 63) {r : Range}
    (hr : r ∈ ranges pageSize id len offset) :
    ∀ sub ∈ r.subtractions pageSize, sub.2 ≤ sub.1 := by
  have hfits := ranges_fits hpage hlt hlen hmax hr
  have hdata := (mem_ranges.mp hr).2
  have hmod := Nat.mod_lt offset hpage
  have hmodle := Nat.mod_le offset pageSize
  have hoff : r.offset = offset := by rw [hdata]
  have hrlen : r.len = len := by rw [hdata]
  intro sub hsub
  rw [Range.subtractions, hoff, hrlen] at hsub
  simp only [List.mem_append] at hsub
  rcases hsub with (hsub | hsub) | hsub
  · split_ifs at hsub
    · rw [List.mem_singleton.mp hsub]
      exact Nat.le_of_lt hfits.offset_lt
    · cases hsub
  · split_ifs at hsub with hlast
    · rcases List.mem_cons.mp hsub with rfl | hsub
      · dsimp only
        omega
      · rw [List.mem_singleton.mp hsub]
        dsimp only
        have hend : usub (offset + len) 1 = offset + len - 1 :=
          usub_of_le (by omega) (by omega)
        rw [Range.localOffset, hoff, usub_of_le (by omega) (by omega)]
        split_ifs with hfirst
        · -- The call stays in one page.
          have hdiv := Nat.div_add_mod' offset pageSize
          have hdiv' := Nat.div_add_mod' (offset + len - 1) pageSize
          have hsame : offset / pageSize = (offset + len - 1) / pageSize := by
            rw [hlast, hdata, hend] at hfirst
            exact hfirst.symm
          have hmod' := Nat.mod_lt (offset + len - 1) hpage
          rw [← hsame] at hdiv'
          have htail : len + offset % pageSize - 1 =
              (offset + len - 1) % pageSize := by
            omega
          rw [htail, Nat.mod_mod]
          omega
        · exact Nat.zero_le _
    · cases hsub
  · split_ifs at hsub with hge
    · rcases List.mem_cons.mp hsub with rfl | hsub
      · dsimp only
        omega
      · rw [List.mem_singleton.mp hsub]
        dsimp only
        have hmul : 1 * pageSize ≤ (r.index - r.first) * pageSize :=
          Nat.mul_le_mul_right pageSize (by omega)
        omega
    · cases hsub

/-- The parts cover the range of the call, and nothing else. -/
theorem covered_iff (id : Id) (hpage : 0 < pageSize)
    (hlt : pageSize < 2 ^ 64) (hlen : 0 < len)
    (hmax : offset + len < 2 ^ 63) (pos : Nat) :
    (offset ≤ pos ∧ pos < offset + len) ↔
      ∃ r ∈ ranges pageSize id len offset,
        r.start pageSize ≤ pos ∧ pos < r.stop pageSize := by
  constructor
  · rintro ⟨hle, hpos⟩
    have hdiv := Nat.div_add_mod' pos pageSize
    have hmod := Nat.mod_lt pos hpage
    have hend : usub (offset + len) 1 = offset + len - 1 :=
      usub_of_le (by omega) (by omega)
    have hfirst : offset / pageSize ≤ pos / pageSize :=
      Nat.div_le_div_right hle
    have hlast : pos / pageSize ≤ (offset + len - 1) / pageSize :=
      Nat.div_le_div_right (by omega)
    have hr : (⟨id, pos / pageSize, offset / pageSize,
        usub (offset + len) 1 / pageSize, offset, len⟩ : Range) ∈
        ranges pageSize id len offset := by
      refine mem_ranges.mpr ⟨⟨hfirst, ?_⟩, rfl⟩
      rw [hend]
      dsimp only
      omega
    refine ⟨_, hr, ?_⟩
    obtain ⟨hstop, hstart, hoffset, hsize, -⟩ :=
      range_bounds hpage hlt hlen hmax hr
    simp only [Range.stop, Range.start, hoffset, hsize]
    omega
  · rintro ⟨r, hr, hle, hpos⟩
    obtain ⟨hstop, hstart, hoffset, hsize, -⟩ :=
      range_bounds hpage hlt hlen hmax hr
    simp only [Range.stop, Range.start, hoffset, hsize] at hle hpos
    omega

/-- The parts end where the call ends. -/
theorem stops_le_iff (id : Id) (hpage : 0 < pageSize)
    (hlt : pageSize < 2 ^ 64) (hlen : 0 < len)
    (hmax : offset + len < 2 ^ 63) (m : Nat) :
    (∀ r ∈ ranges pageSize id len offset, r.stop pageSize ≤ m) ↔
      offset + len ≤ m := by
  constructor
  · intro hall
    obtain ⟨r, hr, -, hpos⟩ := (covered_iff id hpage hlt hlen hmax
      (offset + len - 1)).mp (by omega)
    have := hall r hr
    omega
  · intro hle r hr
    have hfits := ranges_fits hpage hlt hlen hmax hr
    have hstop := hfits.stop_le
    have hdata := (mem_ranges.mp hr).2
    have hoff : r.offset = offset := by rw [hdata]
    have hrlen : r.len = len := by rw [hdata]
    omega

/-- A call is split into parts of the pages from its first to its last: parts
that are not empty, that lie one behind the other in the buffer and cover it
exactly once, and that stand at the same place in the page and in the file. -/
theorem ranges_partition (id : Id) (hpage : 0 < pageSize)
    (hlt : pageSize < 2 ^ 64) (hlen : 0 < len)
    (hmax : offset + len < 2 ^ 63) :
    (ranges pageSize id len offset).map Range.index =
        List.range' (offset / pageSize)
          ((offset + len - 1) / pageSize + 1 - offset / pageSize) ∧
      Tiles 0 ((ranges pageSize id len offset).map (Range.part · pageSize))
        len ∧
      (∀ pos < len, ∃! r, r ∈ ranges pageSize id len offset ∧
        Inside (r.part pageSize) pos) ∧
      ∀ r ∈ ranges pageSize id len offset, 0 < r.localSize pageSize ∧
        r.localOffset pageSize + r.localSize pageSize ≤ pageSize ∧
        r.index * pageSize + r.localOffset pageSize =
          offset + r.bufOffset pageSize ∧
        ∀ sub ∈ (offset + len, 1) :: r.subtractions pageSize,
          sub.2 ≤ sub.1 := by
  have htiles := tiles_ranges id hpage hlt hlen hmax
  have hstart : ∀ r ∈ ranges pageSize id len offset,
      r.index * pageSize + r.localOffset pageSize =
        offset + r.bufOffset pageSize := by
    intro r hr
    have hoff : r.offset = offset := by rw [(mem_ranges.mp hr).2]
    rw [← hoff]
    exact (ranges_fits hpage hlt hlen hmax hr).start_eq.symm
  refine ⟨?_, htiles, ?_, ?_⟩
  · rw [index_ranges, usub_of_le (by omega) (by omega)]
  · intro pos hpos
    obtain ⟨part, ⟨hpart, hin⟩, honly⟩ :=
      htiles.existsUnique_inside (Nat.zero_le pos) hpos
    obtain ⟨r, hr, rfl⟩ := List.mem_map.mp hpart
    refine ⟨r, ⟨hr, hin⟩, ?_⟩
    rintro r' ⟨hr', hin'⟩
    have hsame := honly _ ⟨List.mem_map_of_mem hr', hin'⟩
    have hbuf : r'.bufOffset pageSize = r.bufOffset pageSize :=
      congrArg Prod.fst hsame
    have hpos' := (hstart r' hr').trans ((congrArg (offset + ·) hbuf).trans
      (hstart r hr).symm)
    have hdiv : ∀ r ∈ ranges pageSize id len offset,
        (r.index * pageSize + r.localOffset pageSize) / pageSize =
          r.index := by
      intro r hr
      rw [Nat.add_comm, Nat.add_mul_div_right _ _ hpage,
        Nat.div_eq_of_lt (ranges_fits hpage hlt hlen hmax hr).offset_lt,
        Nat.zero_add]
    have hindex : r'.index = r.index := by
      rw [← hdiv r' hr', hpos', hdiv r hr]
    rw [(mem_ranges.mp hr').2, (mem_ranges.mp hr).2, hindex]
  · intro r hr
    have hfits := ranges_fits hpage hlt hlen hmax hr
    refine ⟨hfits.size_pos, hfits.stop_le_page, hstart r hr, ?_⟩
    intro sub hsub
    rcases List.mem_cons.mp hsub with rfl | hsub
    · dsimp only
      omega
    · exact subtractions_le hpage hlt hlen hmax hr sub hsub

/-- Four bytes from position 3 on lie on three pages of two bytes. -/
theorem ranges_partition_three_pages :
    (ranges 2 ⟨1⟩ 4 3).map (Range.part · 2) = [(0, 1), (1, 2), (3, 1)] ∧
      Tiles 0 [(0, 1), (1, 2), (3, 1)] 4 := by
  have hparts : (ranges 2 ⟨1⟩ 4 3).map (Range.part · 2) =
      [(0, 1), (1, 2), (3, 1)] := by
    decide
  refine ⟨hparts, ?_⟩
  rw [← hparts]
  exact (ranges_partition ⟨1⟩ (by decide) (by decide) (by decide)
    (by decide)).2.1

theorem ranges_nodup (pageSize : Nat) (id : Id) (len offset : Nat) :
    ((ranges pageSize id len offset).map Range.key).Nodup := by
  unfold ranges
  rw [List.map_map]
  refine (List.nodup_range' ..).map ?_
  intro left right heq
  exact congrArg PageKey.index heq

end

end Call

end Madbfs
