/-
Text in which every field ends with a delimiter, and the string utilities on it.
If the fields are not empty and have no delimiter in them, a splitter returns
them one after the other, and `split_n` takes the first ones off.
-/
import Madbfs.Splitter

namespace Madbfs

namespace Util

open Bytes

/-- Every field, with a delimiter behind it. -/
def terminated (delim : Char) (fields : List (List Char)) : List Char :=
  fields.flatMap fun field => field ++ [delim]

/-- A field that splitting does not change: there is something in it, and no
delimiter. -/
def Whole (delim : Char) (field : List Char) : Prop :=
  field ≠ [] ∧ delim ∉ field

variable {delim : Char} {field before rest : List Char}
  {fields : List (List Char)}

theorem terminated_cons (delim : Char) (field : List Char)
    (fields : List (List Char)) :
    terminated delim (field :: fields) =
      field ++ delim :: terminated delim fields := by
  simp [terminated]

/-- A call in front of a field returns it. -/
theorem next_field (hwhole : Whole delim field) (before rest : List Char) :
    StringSplitter.next
        ⟨before ++ (field ++ delim :: rest), .char delim, before.length⟩ =
      (some field, ⟨before ++ (field ++ delim :: rest), .char delim,
        before.length + field.length + 1⟩) := by
  obtain ⟨hne, hfree⟩ := hwhole
  obtain ⟨first, others, rfl⟩ := List.exists_cons_of_ne_nil hne
  have hskip : skipDelims (.char delim)
      (before ++ (first :: others ++ delim :: rest)) before.length =
      before.length := by
    apply skipDelims_of_stop
    intro ch hat
    rw [List.getElem?_append_right (Nat.le_refl _), Nat.sub_self] at hat
    cases hat
    rw [isDelim_char, beq_eq_false_iff_ne]
    rintro rfl
    exact hfree List.mem_cons_self
  have hfind : findDelim (.char delim)
      (before ++ (first :: others ++ delim :: rest)) before.length =
      some (before.length + (first :: others).length) :=
    findDelim_of_append List.drop_left hfree
  rw [StringSplitter.next, StringSplitter.isEnd, if_neg (by simp)]
  dsimp only
  rw [hskip, hfind]
  simp [slice]

theorem takeNext_fields (hwhole : ∀ field ∈ fields, Whole delim field)
    (before rest : List Char) (res : List (List Char)) :
    takeNext fields.length
        ⟨before ++ (terminated delim fields ++ rest), .char delim,
          before.length⟩ res =
      (res ++ fields, ⟨before ++ (terminated delim fields ++ rest),
        .char delim, before.length + (terminated delim fields).length⟩) := by
  induction fields generalizing before res with
  | nil => simp [takeNext, terminated]
  | cons field fields ih =>
      have hnext := next_field (hwhole field List.mem_cons_self) before
        (terminated delim fields ++ rest)
      have hmore := ih (fun other hother =>
        hwhole other (List.mem_cons_of_mem _ hother))
        (before ++ field ++ [delim]) (res ++ [field])
      simp only [terminated_cons, List.append_assoc, List.cons_append,
        List.nil_append, List.length_append, List.length_cons,
        List.length_nil] at hnext hmore ⊢
      rw [takeNext, hnext]
      dsimp only
      rw [Nat.add_assoc before.length, hmore]
      simp only [Prod.mk.injEq, StringSplitter.mk.injEq, true_and]
      omega

theorem drop_skipDelims (delim : SplitDelim) (str : List Char) (idx : Nat) :
    str.drop (skipDelims delim str idx) =
      (str.drop idx).dropWhile delim.isDelim := by
  fun_induction skipDelims delim str idx with
  | case1 idx hdelim ih =>
      obtain ⟨hlt, hany⟩ := hdelim
      rw [List.getElem?_eq_getElem hlt, Option.any_some] at hany
      rw [ih, List.drop_eq_getElem_cons hlt, List.dropWhile_cons_of_pos hany]
  | case2 idx hstop =>
      by_cases hlt : idx < str.length
      · rw [List.getElem?_eq_getElem hlt, Option.any_some] at hstop
        rw [List.drop_eq_getElem_cons hlt, List.dropWhile_cons_of_neg
          fun hdelim => hstop ⟨hlt, hdelim⟩]
      · rw [List.drop_of_length_le (Nat.le_of_not_lt hlt)]
        rfl

/-- `split_n` on the fields and what is behind them. -/
theorem splitN_fields {n : Nat} {result : Vector (List Char) n}
    (hwhole : ∀ field ∈ result.toList, Whole delim field)
    (rest : List Char) :
    splitN n (terminated delim result.toList ++ rest) (.char delim) =
      some ⟨result, rest.dropWhile (SplitDelim.char delim).isDelim⟩ := by
  have htake := takeNext_fields hwhole [] rest []
  rw [Vector.length_toList, List.nil_append, List.nil_append,
    List.length_nil] at htake
  have hsome : (splitN n (terminated delim result.toList ++ rest)
      (.char delim)).isSome := by
    rw [splitN_isSome, htake, Vector.length_toList]
  obtain ⟨r, hr⟩ := Option.isSome_iff_exists.mp hsome
  obtain ⟨-, hresult, hremainder⟩ := splitN_eq_some hr
  rw [htake] at hresult hremainder
  rw [drop_skipDelims, Nat.zero_add, List.drop_left] at hremainder
  rw [hr, ← Vector.toList_inj.mp hresult, ← hremainder]

/-- A splitter yields the fields. -/
theorem yields_fields (hwhole : ∀ field ∈ fields, Whole delim field)
    (before : List Char) :
    StringSplitter.Yields
      ⟨before ++ terminated delim fields, .char delim, before.length⟩
      fields := by
  induction fields generalizing before with
  | nil =>
      apply StringSplitter.Yields.done
      rw [StringSplitter.next, StringSplitter.isEnd,
        if_pos (by simp [terminated])]
  | cons field fields ih =>
      have hnext := next_field (hwhole field List.mem_cons_self) before
        (terminated delim fields)
      have hmore := ih (fun other hother =>
        hwhole other (List.mem_cons_of_mem _ hother))
        (before ++ field ++ [delim])
      rw [terminated_cons]
      refine .more hnext ?_
      simpa [Nat.add_assoc] using hmore

theorem lstrip_cons {delim : SplitDelim} {ch : Char} (rest : List Char)
    (hplain : delim.isDelim ch = false) :
    lstrip (ch :: rest) delim = ch :: rest := by
  rw [lstrip, List.dropWhile_cons_of_neg (by simp [hplain])]

/-- Nothing is taken off from a character on that is not a delimiter. -/
theorem dropWhile_append {p : Char → Bool} {ch : Char} (left right : List Char)
    (hplain : p ch = false) :
    (left ++ ch :: right).dropWhile p = left.dropWhile p ++ ch :: right := by
  rw [List.dropWhile_append]
  split_ifs with hempty
  · rw [List.isEmpty_iff.mp hempty,
      List.dropWhile_cons_of_neg (by simp [hplain]), List.nil_append]
  · rfl

/-- What stands before a character that is not taken off stays. -/
theorem rstrip_append {delim : SplitDelim} {ch : Char} (left right : List Char)
    (hplain : delim.isDelim ch = false) :
    rstrip (left ++ ch :: right) delim =
      left ++ ch :: rstrip right delim := by
  induction right using List.reverseRecOn with
  | nil =>
      rw [rstrip, List.rdropWhile_concat_neg _ _ _ (by simp [hplain]), rstrip,
        List.rdropWhile_nil]
  | append_singleton right last ih =>
      rw [← List.cons_append, ← List.append_assoc, rstrip, rstrip,
        List.rdropWhile_concat, List.rdropWhile_concat]
      split_ifs
      · exact ih
      · simp

end Util

end Madbfs
