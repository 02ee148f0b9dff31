/-
A splitter with one character as the delimiter, and the two scans that
`split_components` has as well.  What the splitter returns, one call after the
other, are the segments of the string.
-/
import Madbfs.Segments
import Madbfs.Split

namespace Madbfs

namespace Util

open Bytes Segments

section Scan

variable {delim : Char} {str : List Char} {idx : Nat}

/-- A delimiter that is found after the skipped ones is further on. -/
theorem lt_of_findDelim_skipDelims {delim : SplitDelim} {pos : Nat}
    (hfind : findDelim delim str (skipDelims delim str idx) = some pos) :
    idx < pos := by
  obtain ⟨hle, ⟨ch, hat, hdelim⟩, -⟩ := findDelim_some hfind
  have hskip := le_skipDelims delim str idx
  have hne : skipDelims delim str idx ≠ pos := by
    intro hpos
    rw [← hpos] at hat
    rw [skipDelims_stops hat] at hdelim
    cases hdelim
  omega

theorem skipDelims_of_drop {n : Nat} {rest : List Char}
    (hdrop : str.drop idx = List.replicate n delim ++ rest)
    (hrest : rest.head? ≠ some delim) :
    skipDelims (.char delim) str idx = idx + n := by
  induction n generalizing idx with
  | zero =>
      apply skipDelims_of_stop
      intro ch hat
      rw [isDelim_char, beq_eq_false_iff_ne]
      rintro rfl
      apply hrest
      rw [← hat, ← List.head?_drop, hdrop]
      rfl
  | succ n ih =>
      rw [List.replicate_succ, List.cons_append] at hdrop
      have hat : str[idx]? = some delim := by
        rw [← List.head?_drop, hdrop]
        rfl
      have hlt : idx < str.length := (List.getElem?_eq_some_iff.mp hat).1
      have htail : str.drop (idx + 1) = List.replicate n delim ++ rest := by
        rw [← List.tail_drop, hdrop]
        rfl
      have hdelim : (str[idx]?).any (SplitDelim.char delim).isDelim := by
        rw [hat]
        exact beq_self_eq_true delim
      rw [skipDelims, if_pos ⟨hlt, hdelim⟩, ih htail]
      omega

theorem findDelim_of_segment (hdrop : delim ∉ str.drop idx) :
    findDelim (.char delim) str idx = none := by
  rw [findDelim, Option.map_eq_none_iff, List.findIdx?_eq_none_iff]
  intro x hx
  rw [isDelim_char, beq_eq_false_iff_ne]
  rintro rfl
  exact hdrop hx

theorem findDelim_of_append {run rest : List Char}
    (hdrop : str.drop idx = run ++ delim :: rest) (hfree : delim ∉ run) :
    findDelim (.char delim) str idx = some (idx + run.length) := by
  have hrun : run.findIdx? (SplitDelim.char delim).isDelim = none := by
    rw [List.findIdx?_eq_none_iff]
    intro x hx
    rw [isDelim_char, beq_eq_false_iff_ne]
    rintro rfl
    exact hfree hx
  rw [findDelim, hdrop, List.findIdx?_append, hrun, List.findIdx?_cons,
    isDelim_char, if_pos (beq_self_eq_true delim)]
  simp

/-- What is left from an index on: nothing but delimiters, or delimiters, a
segment, and what comes after it. -/
theorem scan_cases (delim : Char) (l : List Char) :
    (∃ n, l = List.replicate n delim) ∨
    ∃ n seg rest, IsSegment delim seg ∧
      (rest = [] ∨ ∃ more, rest = delim :: more) ∧
      l = List.replicate n delim ++ (seg ++ rest) := by
  induction l with
  | nil => exact .inl ⟨0, rfl⟩
  | cons c l ih =>
      by_cases hc : c = delim
      · subst hc
        rcases ih with ⟨n, rfl⟩ | ⟨n, seg, rest, hseg, hrest, rfl⟩
        · exact .inl ⟨n + 1, rfl⟩
        · exact .inr ⟨n + 1, seg, rest, hseg, hrest, rfl⟩
      · right
        by_cases hmem : delim ∈ c :: l
        · obtain ⟨seg, rest, hl, hfree⟩ := List.eq_append_cons_of_mem hmem
          have hne : seg ≠ [] := by
            rintro rfl
            exact hc (List.cons.inj hl).1
          exact ⟨0, seg, delim :: rest, ⟨hne, hfree⟩, .inr ⟨rest, rfl⟩, hl⟩
        · exact ⟨0, c :: l, [], ⟨List.cons_ne_nil c l, hmem⟩, .inl rfl,
            by simp⟩

/-- The two scans where a segment is left. -/
theorem scan_segment {n : Nat} {seg rest : List Char}
    (hseg : IsSegment delim seg)
    (hdrop : str.drop idx = List.replicate n delim ++ (seg ++ rest)) :
    skipDelims (.char delim) str idx = idx + n ∧ str.drop (idx + n) = seg ++ rest ∧
    (rest = [] → findDelim (.char delim) str (idx + n) = none) ∧
    ∀ more, rest = delim :: more →
      findDelim (.char delim) str (idx + n) = some (idx + n + seg.length) := by
  have hhead : (seg ++ rest).head? ≠ some delim := by
    rw [List.head?_append_of_ne_nil seg hseg.ne_nil]
    exact hseg.trimmed.head
  have hafter : str.drop (idx + n) = seg ++ rest := by
    rw [← List.drop_drop, hdrop, List.drop_left' (by simp)]
  refine ⟨skipDelims_of_drop hdrop hhead, hafter, ?_, ?_⟩
  · rintro rfl
    apply findDelim_of_segment
    rw [hafter, List.append_nil]
    exact hseg.free
  · rintro more rfl
    exact findDelim_of_append hafter hseg.free

/-- The two scans where there are only delimiters left. -/
theorem scan_delims {n : Nat} (hdrop : str.drop idx = List.replicate n delim) :
    skipDelims (.char delim) str idx = idx + n ∧ str.length ≤ idx + n ∧
    findDelim (.char delim) str (idx + n) = none := by
  have hlength := congrArg List.length hdrop
  rw [List.length_drop, List.length_replicate] at hlength
  have hle : str.length ≤ idx + n := by omega
  refine ⟨?_, hle, ?_⟩
  · rw [← List.append_nil (List.replicate n delim)] at hdrop
    exact skipDelims_of_drop hdrop (by simp)
  · apply findDelim_of_segment
    rw [List.drop_eq_nil_of_le hle]
    exact List.not_mem_nil

end Scan

namespace StringSplitter

/-- A call returns the first segment of what is left, if there is one. -/
theorem next_segments (str : List Char) (delim : Char) (idx : Nat) :
    (segments delim (str.drop idx) = [] ∧
      ∃ self', next ⟨str, .char delim, idx⟩ = (none, self')) ∨
    ∃ seg idx', next ⟨str, .char delim, idx⟩ = (some seg, ⟨str, .char delim, idx'⟩) ∧
      segments delim (str.drop idx) =
        seg :: segments delim (str.drop idx') := by
  by_cases hend : str.length ≤ idx
  · left
    refine ⟨?_, ⟨str, .char delim, idx⟩, ?_⟩
    · rw [List.drop_eq_nil_of_le hend, segments_nil]
    · rw [next, isEnd, if_pos (by simpa using hend)]
  · rw [next, isEnd, if_neg (by simpa using hend)]
    dsimp only
    rcases scan_cases delim (str.drop idx) with
      ⟨n, hdrop⟩ | ⟨n, seg, rest, hseg, hrest, hdrop⟩
    · left
      obtain ⟨hskip, hle, hnone⟩ := scan_delims hdrop
      rw [hskip, hnone]
      dsimp only
      rw [if_pos hle]
      refine ⟨?_, _, rfl⟩
      rw [hdrop, ← List.append_nil (List.replicate n delim),
        segments_replicate_append, segments_nil]
    · right
      obtain ⟨hskip, hafter, hnone, hsome⟩ := scan_segment hseg hdrop
      rw [hskip, hdrop, segments_replicate_append]
      rcases hrest with rfl | ⟨more, rfl⟩
      · have hlt : ¬ str.length ≤ idx + n := by
          intro hle
          rw [List.drop_eq_nil_of_le hle, List.append_nil] at hafter
          exact hseg.ne_nil hafter.symm
        rw [hnone rfl]
        dsimp only
        rw [if_neg hlt, hafter, List.append_nil]
        refine ⟨seg, str.length, rfl, ?_⟩
        rw [List.drop_length, segments_nil, segments_of_isSegment hseg]
      · rw [hsome more rfl]
        dsimp only
        refine ⟨seg, idx + n + seg.length + 1, ?_, ?_⟩
        · rw [slice, hafter, Nat.add_sub_cancel_left, List.take_left]
        · have hmore : str.drop (idx + n + seg.length + 1) = more := by
            rw [Nat.add_assoc, ← List.drop_drop, hafter,
              ← List.drop_drop, List.drop_left]
            rfl
          rw [hmore, segments_append_sep, segments_of_isSegment hseg]
          rfl

/-- The calls return the segments. -/
theorem yields_segments (str : List Char) (delim : Char) (idx : Nat) :
    Yields ⟨str, .char delim, idx⟩ (segments delim (str.drop idx)) := by
  induction hn : str.length - idx using Nat.strong_induction_on
    generalizing idx with
  | h n ih =>
      rcases next_segments str delim idx with
        ⟨hempty, self', hnone⟩ | ⟨seg, idx', hsome, hsegs⟩
      · rw [hempty]
        exact .done hnone
      · have hadvances := next_advances hsome
        dsimp only at hadvances
        rw [hsegs]
        exact .more hsome (ih _ (by omega) idx' rfl)

/-- `while_next` calls its function with the segments. -/
theorem whileNext_eq {σ : Type} (fn : σ → List Char → σ) (state : σ)
    (str : List Char) (delim : Char) (idx : Nat) :
    whileNext fn state ⟨str, .char delim, idx⟩ =
      (segments delim (str.drop idx)).foldl fn state :=
  whileNext_of_yields (yields_segments str delim idx) fn state

end StringSplitter

theorem split_eq (str : List Char) (delim : Char) :
    split str (.char delim) = segments delim str := by
  rw [split, StringSplitter.whileNext_eq, List.foldl_append_eq_append,
    List.nil_append, List.drop_zero, ← List.flatMap_def, List.flatMap_singleton']

end Util

end Madbfs
