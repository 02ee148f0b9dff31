/-
Lists cut at a separator.  The segments of a list are the maximal runs without
the separator, the empty ones left out; the spans say where each of them stands
and how long it is.  Both are carried over the places where a list is cut, so a
property of them is proved by cutting at the first separator.
-/
import Madbfs.Bytes
import Mathlib.Data.List.DropRight
import Mathlib.Data.List.Infix

namespace Madbfs

namespace Segments

open Bytes

universe u

variable {α : Type u} [DecidableEq α] (sep : α)

/-- The maximal non-empty runs without the separator, in order. -/
def segments (l : List α) : List (List α) :=
  (l.splitOn sep).filter fun run => !run.isEmpty

/-- Where the non-empty ones of some pieces stand, when the first one is at
`off` and there is one separator between two of them. -/
def placed : Nat → List (List α) → List (Nat × Nat)
  | _, [] => []
  | off, piece :: rest =>
      (if piece.isEmpty then [] else [(off, piece.length)]) ++
        placed (off + piece.length + 1) rest

/-- The offset and the length of each segment of a list that starts at
`off`. -/
def spans (off : Nat) (l : List α) : List (Nat × Nat) :=
  placed off (l.splitOn sep)

/-- Segments written out again, a separator before each. -/
def joined (segs : List (List α)) : List α :=
  segs.flatMap fun seg => sep :: seg

/-- A list without separators at its two ends. -/
structure Trimmed (l : List α) : Prop where
  head : l.head? ≠ some sep
  last : l.getLast? ≠ some sep

/-- A list without the separators at its two ends. -/
def trim (l : List α) : List α :=
  (l.dropWhile (· == sep)).rdropWhile (· == sep)

/-- What can be a segment: a run that is not empty. -/
structure IsSegment (seg : List α) : Prop where
  ne_nil : seg ≠ []
  free : sep ∉ seg

/-- A list after which a segment starts: it is empty or ends in a
separator. -/
def Opens (front : List α) : Prop :=
  front = [] ∨ ∃ before, front = before ++ [sep]

section Pieces

omit [DecidableEq α] in
theorem placed_append (off : Nat) (left right : List (List α)) :
    placed off (left ++ right) =
      placed off left ++
        placed (off + (left.map (·.length + 1)).sum) right := by
  induction left generalizing off with
  | nil => rfl
  | cons piece left ih =>
      simp only [List.cons_append, placed, ih, List.append_assoc, List.map_cons,
        List.sum_cons]
      rw [← Nat.add_assoc, Nat.add_assoc off]

theorem sum_splitOn (l : List α) :
    ((l.splitOn sep).map (·.length + 1)).sum = l.length + 1 := by
  induction l with
  | nil => simp
  | cons x l ih =>
      obtain ⟨piece, rest, hsplit⟩ :=
        List.exists_cons_of_ne_nil (List.splitOn_ne_nil sep l)
      rw [List.splitOn_cons_eq_if_modifyHead]
      rw [hsplit, List.map_cons, List.sum_cons] at ih
      split_ifs
      · rw [hsplit]
        simp only [List.map_cons, List.sum_cons, List.length_nil,
          List.length_cons]
        omega
      · rw [hsplit]
        simp only [List.modifyHead_cons, List.map_cons, List.sum_cons,
          List.length_cons]
        omega

end Pieces

variable {sep}

@[simp] theorem segments_nil : segments sep [] = [] :=
  rfl

@[simp] theorem spans_nil (off : Nat) : spans sep off [] = [] :=
  rfl

theorem segments_append_sep (left right : List α) :
    segments sep (left ++ sep :: right) =
      segments sep left ++ segments sep right := by
  simp only [segments, List.splitOn_append_cons_self, List.filter_append]

theorem spans_append_sep (off : Nat) (left right : List α) :
    spans sep off (left ++ sep :: right) =
      spans sep off left ++ spans sep (off + left.length + 1) right := by
  simp only [spans, List.splitOn_append_cons_self, placed_append, sum_splitOn,
    Nat.add_assoc]

theorem segments_of_isSegment {seg : List α} (hseg : IsSegment sep seg) :
    segments sep seg = [seg] := by
  rw [segments, List.splitOn_eq_singleton hseg.free]
  simp [hseg.ne_nil]

theorem spans_of_isSegment (off : Nat) {seg : List α}
    (hseg : IsSegment sep seg) : spans sep off seg = [(off, seg.length)] := by
  rw [spans, List.splitOn_eq_singleton hseg.free]
  simp [placed, hseg.ne_nil]

/-- Every list is a run, or a run before the first separator. -/
theorem cases_sep (sep : α) (l : List α) :
    l = [] ∨ IsSegment sep l ∨
      ∃ front rest, sep ∉ front ∧ l = front ++ sep :: rest := by
  by_cases hmem : sep ∈ l
  · obtain ⟨front, rest, hl, hfree⟩ := List.eq_append_cons_of_mem hmem
    exact .inr (.inr ⟨front, rest, hfree, hl⟩)
  · by_cases hempty : l = []
    · exact .inl hempty
    · exact .inr (.inl ⟨hempty, hmem⟩)

/-- Induction along the separators of a list. -/
theorem sep_induction (sep : α) {motive : List α → Prop} (nil : motive [])
    (segment : ∀ seg, IsSegment sep seg → motive seg)
    (step : ∀ front rest, sep ∉ front → motive rest →
      motive (front ++ sep :: rest)) (l : List α) : motive l := by
  induction hn : l.length using Nat.strong_induction_on generalizing l with
  | h n ih =>
      rcases cases_sep sep l with rfl | hseg | ⟨front, rest, hfree, rfl⟩
      · exact nil
      · exact segment l hseg
      · apply step front rest hfree
        apply ih rest.length _ rest rfl
        rw [← hn, List.length_append, List.length_cons]
        omega

omit [DecidableEq α] in
theorem isSegment_or_nil {front : List α} (hfree : sep ∉ front) :
    front = [] ∨ IsSegment sep front := by
  by_cases hempty : front = []
  · exact .inl hempty
  · exact .inr ⟨hempty, hfree⟩

theorem isSegment_of_mem {l seg : List α} (hseg : seg ∈ segments sep l) :
    IsSegment sep seg := by
  induction l using sep_induction sep with
  | nil => cases hseg
  | segment run hrun =>
      rw [segments_of_isSegment hrun, List.mem_singleton] at hseg
      rw [hseg]
      exact hrun
  | step front rest hfree ih =>
      rw [segments_append_sep, List.mem_append] at hseg
      rcases hseg with hfront | hrest
      · rcases isSegment_or_nil hfree with rfl | hrun
        · cases hfront
        · rw [segments_of_isSegment hrun, List.mem_singleton] at hfront
          rw [hfront]
          exact hrun
      · exact ih hrest

/-- What stands at the spans are the segments. -/
theorem slice_spans (sep : α) (front l back : List α) :
    (spans sep front.length l).map
        (fun span => slice (front ++ (l ++ back)) span.1 span.2) =
      segments sep l := by
  have hrun : ∀ (front seg back : List α), sep ∉ seg →
      (spans sep front.length seg).map
          (fun span => slice (front ++ (seg ++ back)) span.1 span.2) =
        segments sep seg := by
    intro front seg back hfree
    rcases isSegment_or_nil hfree with rfl | hseg
    · rfl
    · rw [spans_of_isSegment _ hseg, segments_of_isSegment hseg]
      simp [slice]
  induction l using sep_induction sep generalizing front with
  | nil => rfl
  | segment seg hseg => exact hrun front seg back hseg.free
  | step run rest hfree ih =>
      have hfirst := hrun front run (sep :: (rest ++ back)) hfree
      have hrest := ih (front ++ (run ++ [sep]))
      have hlist : front ++ (run ++ [sep]) ++ (rest ++ back) =
          front ++ (run ++ sep :: rest ++ back) := by
        simp
      have hoff : (front ++ (run ++ [sep])).length =
          front.length + run.length + 1 := by
        simp [Nat.add_assoc]
      rw [hlist, hoff] at hrest
      rw [spans_append_sep, segments_append_sep, List.map_append, hrest]
      rw [← hfirst]
      simp

theorem spans_within {off : Nat} {l : List α} {span : Nat × Nat}
    (hspan : span ∈ spans sep off l) :
    off ≤ span.1 ∧ 0 < span.2 ∧ span.1 + span.2 ≤ off + l.length := by
  have hrun : ∀ {off : Nat} {seg : List α}, sep ∉ seg →
      span ∈ spans sep off seg →
      off ≤ span.1 ∧ 0 < span.2 ∧ span.1 + span.2 ≤ off + seg.length := by
    intro off seg hfree hspan
    rcases isSegment_or_nil hfree with rfl | hseg
    · cases hspan
    · rw [spans_of_isSegment _ hseg, List.mem_singleton] at hspan
      have hpos := List.length_pos_iff.mpr hseg.ne_nil
      rw [hspan]
      simp [hpos]
  induction l using sep_induction sep generalizing off with
  | nil => cases hspan
  | segment seg hseg => exact hrun hseg.free hspan
  | step front rest hfree ih =>
      rw [spans_append_sep, List.mem_append] at hspan
      rw [List.length_append, List.length_cons]
      rcases hspan with hfront | hrest
      · obtain ⟨hle, hpos, hend⟩ := hrun hfree hfront
        omega
      · obtain ⟨hle, hpos, hend⟩ := ih hrest
        omega

/-- There is a span exactly where there is something besides separators. -/
theorem spans_eq_nil {off : Nat} {l : List α} :
    spans sep off l = [] ↔ segments sep l = [] := by
  have hview := slice_spans sep (List.replicate off sep) l []
  rw [List.length_replicate] at hview
  rw [← hview, List.map_eq_nil_iff]

section Ends

variable (sep)

theorem spans_replicate_append (off n : Nat) (l : List α) :
    spans sep off (List.replicate n sep ++ l) = spans sep (off + n) l := by
  induction n generalizing off with
  | zero => rfl
  | succ n ih =>
      have hcons : spans sep off ([] ++ sep :: (List.replicate n sep ++ l)) =
          _ := spans_append_sep off [] (List.replicate n sep ++ l)
      rw [List.nil_append, spans_nil, List.nil_append, ih] at hcons
      rw [List.replicate_succ, List.cons_append, hcons]
      congr 1
      simp only [List.length_nil]
      omega

theorem spans_append_replicate (off n : Nat) (l : List α) :
    spans sep off (l ++ List.replicate n sep) = spans sep off l := by
  cases n with
  | zero => simp
  | succ n =>
      have hseps := spans_replicate_append sep (off + l.length + 1) n []
      rw [List.append_nil, spans_nil] at hseps
      rw [List.replicate_succ, spans_append_sep, hseps, List.append_nil]

theorem exists_rdropWhile (l : List α) :
    ∃ m, l = l.rdropWhile (· == sep) ++ List.replicate m sep := by
  have hback : ∀ x ∈ l.rtakeWhile (· == sep), x = sep := by
    intro x hx
    have hp := List.mem_rtakeWhile_imp hx
    exact beq_iff_eq.mp hp
  refine ⟨(l.rtakeWhile (· == sep)).length, ?_⟩
  rw [← List.eq_replicate_of_mem hback, List.rdropWhile_append_rtakeWhile]

theorem segments_replicate_append (n : Nat) (l : List α) :
    segments sep (List.replicate n sep ++ l) = segments sep l := by
  induction n with
  | zero => rfl
  | succ n ih =>
      rw [List.replicate_succ, List.cons_append]
      exact (segments_append_sep [] (List.replicate n sep ++ l)).trans ih

/-- What is around a trimmed list. -/
theorem exists_trim (l : List α) :
    ∃ n m, l = List.replicate n sep ++ (trim sep l ++ List.replicate m sep) := by
  have hfront : ∀ x ∈ l.takeWhile (· == sep), x = sep := by
    intro x hx
    have hp := List.mem_takeWhile_imp hx
    exact beq_iff_eq.mp hp
  obtain ⟨m, hback⟩ := exists_rdropWhile sep (l.dropWhile (· == sep))
  refine ⟨(l.takeWhile (· == sep)).length, m, ?_⟩
  rw [← List.eq_replicate_of_mem hfront, trim, ← hback,
    List.takeWhile_append_dropWhile]

theorem getLast?_rdropWhile_ne (l : List α) :
    (l.rdropWhile (· == sep)).getLast? ≠ some sep := by
  intro hlast
  have hne : l.rdropWhile (· == sep) ≠ [] := by
    intro hnil
    rw [hnil] at hlast
    cases hlast
  have hnot := List.rdropWhile_last_not (· == sep) l hne
  rw [List.getLast?_eq_some_getLast hne, Option.some.injEq] at hlast
  rw [hlast] at hnot
  simp at hnot

theorem trimmed_trim (l : List α) : Trimmed sep (trim sep l) := by
  refine ⟨?_, getLast?_rdropWhile_ne sep _⟩
  intro hsome
  obtain ⟨rest, hrest⟩ :=
    List.rdropWhile_prefix (· == sep) (l := l.dropWhile (· == sep))
  have hhead : (l.dropWhile (· == sep)).head? = some sep := by
    rw [← hrest, List.head?_append]
    rw [trim] at hsome
    rw [hsome]
    rfl
  have hnot := List.head?_dropWhile_not (· == sep) l
  rw [hhead] at hnot
  simp at hnot

theorem segments_append_replicate (n : Nat) (l : List α) :
    segments sep (l ++ List.replicate n sep) = segments sep l := by
  cases n with
  | zero => simp
  | succ n =>
      have hseps := segments_replicate_append sep n []
      rw [List.append_nil, segments_nil] at hseps
      rw [List.replicate_succ, segments_append_sep, hseps, List.append_nil]

theorem segments_trim (l : List α) :
    segments sep (trim sep l) = segments sep l := by
  obtain ⟨n, m, hl⟩ := exists_trim sep l
  conv_rhs => rw [hl]
  rw [segments_replicate_append, segments_append_replicate]

variable {sep}

theorem dropWhile_pad {l : List α} (hhead : l.head? ≠ some sep) (n : Nat) :
    (List.replicate n sep ++ l).dropWhile (· == sep) = l := by
  have hseps : ∀ x ∈ List.replicate n sep, (x == sep) = true := by
    intro x hx
    exact beq_iff_eq.mpr (List.eq_of_mem_replicate hx)
  rw [List.dropWhile_append_of_pos hseps]
  exact List.dropWhile_beq_eq_self_of_head?_ne hhead

theorem rdropWhile_pad {l : List α} (hlast : l.getLast? ≠ some sep) (m : Nat) :
    (l ++ List.replicate m sep).rdropWhile (· == sep) = l := by
  rw [List.rdropWhile, List.reverse_append, List.reverse_replicate,
    dropWhile_pad (by rwa [List.head?_reverse]), List.reverse_reverse]

/-- A list with separators around it is trimmed to itself. -/
theorem trim_pad {l : List α} (htrimmed : Trimmed sep l) (n m : Nat) :
    trim sep (List.replicate n sep ++ (l ++ List.replicate m sep)) = l := by
  rw [trim]
  cases l with
  | nil =>
      have hseps : (List.replicate n sep ++ ([] ++ List.replicate m sep)) =
          List.replicate (n + m) sep ++ [] := by
        simp
      rw [hseps, dropWhile_pad (by simp)]
      rfl
  | cons x l =>
      have hhead : (x :: l ++ List.replicate m sep).head? ≠ some sep :=
        htrimmed.head
      rw [dropWhile_pad hhead, rdropWhile_pad htrimmed.last]

end Ends

section Last

omit [DecidableEq α] in
theorem IsSegment.trimmed {seg : List α} (hseg : IsSegment sep seg) :
    Trimmed sep seg := by
  refine ⟨fun hhead => ?_, fun hlast => ?_⟩
  · exact hseg.free (List.mem_of_head? hhead)
  · exact hseg.free (List.mem_of_getLast? hlast)

/-- The last segment of a list that does not end in a separator. -/
theorem exists_last_segment {l : List α} (hne : l ≠ [])
    (hlast : l.getLast? ≠ some sep) :
    ∃ front seg, l = front ++ seg ∧ IsSegment sep seg ∧ Opens sep front := by
  induction l using sep_induction sep with
  | nil => exact absurd rfl hne
  | segment seg hseg => exact ⟨[], seg, rfl, hseg, .inl rfl⟩
  | step run rest hfree ih =>
      have hrest : rest ≠ [] := by
        rintro rfl
        simp at hlast
      have hrestLast : rest.getLast? ≠ some sep := by
        intro hsome
        rw [List.getLast?_append, List.getLast?_cons, hsome] at hlast
        simp at hlast
      obtain ⟨front, seg, rfl, hseg, hfront⟩ := ih hrest hrestLast
      refine ⟨run ++ sep :: front, seg, by simp, hseg, .inr ?_⟩
      rcases hfront with rfl | ⟨before, rfl⟩
      · exact ⟨run, rfl⟩
      · exact ⟨run ++ sep :: before, by simp⟩

theorem spans_append_segment (off : Nat) {front seg : List α}
    (hfront : Opens sep front)
    (hseg : IsSegment sep seg) :
    spans sep off (front ++ seg) =
      spans sep off front ++ [(off + front.length, seg.length)] := by
  rcases hfront with rfl | ⟨before, rfl⟩
  · rw [List.nil_append, spans_of_isSegment off hseg]
    rfl
  · have hbefore : spans sep off (before ++ [sep]) = spans sep off before :=
      spans_append_replicate sep off 1 before
    rw [hbefore, List.append_assoc, List.singleton_append, spans_append_sep,
      spans_of_isSegment _ hseg, List.length_append, List.length_singleton,
      Nat.add_assoc]

theorem segments_append_segment {front seg : List α}
    (hfront : Opens sep front)
    (hseg : IsSegment sep seg) :
    segments sep (front ++ seg) = segments sep front ++ [seg] := by
  rcases hfront with rfl | ⟨before, rfl⟩
  · rw [List.nil_append, segments_of_isSegment hseg]
    rfl
  · rw [List.append_assoc, List.singleton_append, segments_append_sep,
      segments_append_sep, segments_of_isSegment hseg, segments_nil,
      List.append_nil]

/-- The last span ends with the list. -/
theorem getLast?_spans (off : Nat) {l : List α} (hne : l ≠ [])
    (hlast : l.getLast? ≠ some sep) :
    ∃ span, (spans sep off l).getLast? = some span ∧
      span.1 + span.2 = off + l.length := by
  obtain ⟨front, seg, rfl, hseg, hfront⟩ := exists_last_segment hne hlast
  refine ⟨(off + front.length, seg.length), ?_, ?_⟩
  · rw [spans_append_segment off hfront hseg, List.getLast?_concat]
  · rw [List.length_append, Nat.add_assoc]

end Last

section Joined

theorem segments_append_joined (l : List α) (segs : List (List α)) :
    segments sep (l ++ joined sep segs) =
      segments sep l ++ segments sep (joined sep segs) := by
  cases segs with
  | nil => simp [joined]
  | cons seg segs =>
      have hcons : segments sep (joined sep (seg :: segs)) =
          segments sep (seg ++ joined sep segs) :=
        segments_append_sep [] (seg ++ joined sep segs)
      have happend : l ++ joined sep (seg :: segs) =
          l ++ sep :: (seg ++ joined sep segs) :=
        rfl
      rw [happend, segments_append_sep, hcons]

/-- Segments are read back from where they were written. -/
theorem segments_joined {segs : List (List α)}
    (hsegs : ∀ seg ∈ segs, IsSegment sep seg) :
    segments sep (joined sep segs) = segs := by
  induction segs with
  | nil => rfl
  | cons seg segs ih =>
      have hcons : segments sep (joined sep (seg :: segs)) =
          segments sep (seg ++ joined sep segs) :=
        segments_append_sep [] (seg ++ joined sep segs)
      rw [hcons, segments_append_joined,
        segments_of_isSegment (hsegs seg List.mem_cons_self),
        ih fun other hother => hsegs other (List.mem_cons_of_mem seg hother)]
      rfl

omit [DecidableEq α] in
theorem joined_eq_intercalate {segs : List (List α)} (hne : segs ≠ []) :
    joined sep segs = sep :: [sep].intercalate segs := by
  induction segs with
  | nil => exact absurd rfl hne
  | cons seg segs ih =>
      cases segs with
      | nil => simp [joined]
      | cons other segs =>
          have hcons : joined sep (seg :: other :: segs) =
              sep :: seg ++ joined sep (other :: segs) :=
            rfl
          rw [hcons, ih (List.cons_ne_nil other segs),
            List.intercalate_cons_cons]
          simp

omit [DecidableEq α] in
theorem trimmed_append_joined {seg : List α} {segs : List (List α)}
    (hseg : IsSegment sep seg) (hsegs : ∀ seg ∈ segs, IsSegment sep seg) :
    Trimmed sep (seg ++ joined sep segs) := by
  refine ⟨?_, ?_⟩
  · rw [List.head?_append_of_ne_nil seg hseg.ne_nil]
    exact hseg.trimmed.head
  · induction segs generalizing seg with
    | nil =>
        rw [joined, List.flatMap_nil, List.append_nil]
        exact hseg.trimmed.last
    | cons other segs ih =>
        have hother := hsegs other List.mem_cons_self
        have hlast := ih hother fun s hs => hsegs s (List.mem_cons_of_mem other hs)
        have happend : seg ++ joined sep (other :: segs) =
            (seg ++ [sep]) ++ (other ++ joined sep segs) := by
          simp [joined]
        rw [happend, List.getLast?_append_of_ne_nil _ (by simp [hother.ne_nil])]
        exact hlast

/-- A list in which the separators stand alone is given by its segments. -/
theorem joined_segments {l : List α} (htrimmed : Trimmed sep l) (hne : l ≠ [])
    (halone : ¬ [sep, sep] <:+: l) :
    joined sep (segments sep l) = sep :: l := by
  induction l using sep_induction sep with
  | nil => exact absurd rfl hne
  | segment seg hseg =>
      rw [segments_of_isSegment hseg]
      simp [joined]
  | step front rest hfree ih =>
      have hfront : IsSegment sep front := by
        refine ⟨?_, hfree⟩
        rintro rfl
        exact htrimmed.head rfl
      have hrest : rest ≠ [] := by
        rintro rfl
        exact htrimmed.last (by simp)
      have hhead : rest.head? ≠ some sep := by
        intro hsome
        obtain ⟨more, rfl⟩ : ∃ more, rest = sep :: more :=
          ⟨rest.tail, (List.eq_cons_of_mem_head? hsome)⟩
        exact halone ⟨front, more, by simp⟩
      have hlast : rest.getLast? ≠ some sep := by
        intro hsome
        apply htrimmed.last
        rw [List.getLast?_append, List.getLast?_cons, hsome]
        rfl
      have halone' : ¬ [sep, sep] <:+: rest := by
        intro hinfix
        apply halone
        exact hinfix.trans ⟨front ++ [sep], [], by simp⟩
      have hjoined := ih ⟨hhead, hlast⟩ hrest halone'
      rw [segments_append_sep, segments_of_isSegment hfront, joined,
        List.flatMap_append, ← joined, ← joined, hjoined]
      simp [joined]

end Joined

end Segments

end Madbfs
