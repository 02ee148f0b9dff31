/-
`util/split.hpp` with any set of delimiters.  A splitter that is called again
and again returns the tokens of its string; `split_n` takes the first of them
and returns where the next one starts.
-/
import Madbfs.Bytes
import Madbfs.Tokens
import Mathlib.Data.List.DropRight

namespace Madbfs

namespace Util

open Bytes

/-- `util::SplitDelim`: one character, or any of several. -/
inductive SplitDelim where
  | char (delim : Char)
  | span (delims : List Char)
deriving Repr, DecidableEq

def SplitDelim.isDelim : SplitDelim → Char → Bool
  | .char delim, ch => ch == delim
  | .span delims, ch => delims.contains ch

theorem isDelim_char {delim : Char} (ch : Char) :
    (SplitDelim.char delim).isDelim ch = (ch == delim) :=
  rfl

/-- `util::StringSplitter`. -/
structure StringSplitter where
  str : List Char
  delim : SplitDelim
  idx : Nat := 0
deriving Repr, DecidableEq

/-- The loops that skip delimiters, in `next` and at the end of `split_n`. -/
def skipDelims (delim : SplitDelim) (str : List Char) (idx : Nat) : Nat :=
  if idx < str.length ∧ (str[idx]?).any delim.isDelim then
    skipDelims delim str (idx + 1)
  else idx
termination_by str.length - idx

/-- `sr::find_if` from an index on. -/
def findDelim (delim : SplitDelim) (str : List Char) (idx : Nat) :
    Option Nat :=
  ((str.drop idx).findIdx? delim.isDelim).map (idx + ·)

section Scan

variable {delim : SplitDelim} {str : List Char} {idx : Nat}

theorem le_skipDelims (delim : SplitDelim) (str : List Char) (idx : Nat) :
    idx ≤ skipDelims delim str idx := by
  fun_induction skipDelims delim str idx with
  | case1 idx hdelim ih => omega
  | case2 idx hstop => exact Nat.le_refl idx

theorem skipDelims_le (hle : idx ≤ str.length) :
    skipDelims delim str idx ≤ str.length := by
  fun_induction skipDelims delim str idx with
  | case1 idx hdelim ih => exact ih hdelim.1
  | case2 idx hstop => exact hle

theorem skipDelims_delims {k : Nat} {ch : Char} (hle : idx ≤ k)
    (hlt : k < skipDelims delim str idx) (hat : str[k]? = some ch) :
    delim.isDelim ch = true := by
  fun_induction skipDelims delim str idx with
  | case1 idx hdelim ih =>
      by_cases heq : k = idx
      · rw [heq] at hat
        rw [hat] at hdelim
        exact hdelim.2
      · exact ih (by omega) hlt
  | case2 idx hstop => omega

theorem skipDelims_stops {ch : Char}
    (hat : str[skipDelims delim str idx]? = some ch) :
    delim.isDelim ch = false := by
  fun_induction skipDelims delim str idx with
  | case1 idx hdelim ih => exact ih hat
  | case2 idx hstop =>
      rw [Bool.eq_false_iff]
      intro hdelim
      apply hstop
      rw [hat]
      exact ⟨(List.getElem?_eq_some_iff.mp hat).1, hdelim⟩

theorem skipDelims_of_stop (hstop : ∀ ch, str[idx]? = some ch →
    delim.isDelim ch = false) : skipDelims delim str idx = idx := by
  rw [skipDelims, if_neg]
  rintro ⟨hlt, hany⟩
  have hat := List.getElem?_eq_getElem hlt
  rw [hat, Option.any_some, hstop _ hat] at hany
  cases hany

theorem findDelim_some {pos : Nat}
    (hfind : findDelim delim str idx = some pos) :
    idx ≤ pos ∧ (∃ ch, str[pos]? = some ch ∧ delim.isDelim ch = true) ∧
      ∀ k, idx ≤ k → k < pos →
        ∃ ch, str[k]? = some ch ∧ delim.isDelim ch = false := by
  obtain ⟨len, hlen, rfl⟩ := Option.map_eq_some_iff.mp hfind
  obtain ⟨hlt, hat, hbefore⟩ := List.findIdx?_eq_some_iff_getElem.mp hlen
  rw [List.getElem_drop] at hat
  rw [List.length_drop] at hlt
  refine ⟨Nat.le_add_right _ _, ⟨_, ?_, hat⟩, ?_⟩
  · exact List.getElem?_eq_getElem (by omega)
  · intro k hle hk
    have hfree := hbefore (k - idx) (by omega)
    rw [List.getElem_drop] at hfree
    refine ⟨_, List.getElem?_eq_getElem (by omega), ?_⟩
    simpa [Nat.add_sub_cancel' hle] using hfree

theorem findDelim_none (hfind : findDelim delim str idx = none) {k : Nat}
    (hle : idx ≤ k) (hlt : k < str.length) :
    ∃ ch, str[k]? = some ch ∧ delim.isDelim ch = false := by
  rw [findDelim, Option.map_eq_none_iff, List.findIdx?_eq_none_iff] at hfind
  refine ⟨str[k], List.getElem?_eq_getElem hlt, hfind _ ?_⟩
  rw [List.mem_drop_iff_getElem]
  refine ⟨k - idx, by omega, ?_⟩
  simp [Nat.add_sub_cancel' hle]

end Scan

namespace StringSplitter

/-- `StringSplitter::is_end`. -/
def isEnd (self : StringSplitter) : Bool :=
  self.str.length ≤ self.idx

/-- `StringSplitter::next`. -/
def next (self : StringSplitter) : Option (List Char) × StringSplitter :=
  if self.isEnd then (none, self)
  else
    let idx := skipDelims self.delim self.str self.idx
    match findDelim self.delim self.str idx with
    | some pos =>
        (some (slice self.str idx (pos - idx)), { self with idx := pos + 1 })
    | none =>
        if self.str.length ≤ idx then (none, { self with idx := idx })
        else (some (self.str.drop idx), { self with idx := self.str.length })

/-- The calls of `next`, up to the first that returns nothing. -/
inductive Yields : StringSplitter → List (List Char) → Prop
  | done {self self' : StringSplitter} (hnext : self.next = (none, self')) :
      Yields self []
  | more {self self' : StringSplitter} {res : List Char}
      {rest : List (List Char)} (hnext : self.next = (some res, self'))
      (hrest : Yields self' rest) : Yields self (res :: rest)

variable {delim : SplitDelim} {str : List Char} {idx : Nat}

/-- A call when only delimiters are left. -/
theorem next_of_delims (hskip : skipDelims delim str idx = str.length) :
    ∃ self', next ⟨str, delim, idx⟩ = (none, self') := by
  rw [next]
  split_ifs with hend
  · exact ⟨_, rfl⟩
  · dsimp only
    have hfind : findDelim delim str (skipDelims delim str idx) = none := by
      rw [findDelim, hskip, List.drop_length]
      rfl
    rw [hfind]
    dsimp only
    rw [if_pos (Nat.le_of_eq hskip.symm)]
    exact ⟨_, rfl⟩

/-- A call when there is a token: it ends at the next delimiter or at the end
of the string, and the splitter then stands behind it. -/
theorem next_of_token (hskip : skipDelims delim str idx < str.length)
    (hcut : Cut delim.isDelim str (skipDelims delim str idx)) :
    ∃ len idx', next ⟨str, delim, idx⟩ =
        (some (slice str (skipDelims delim str idx) len), ⟨str, delim, idx'⟩) ∧
      idx < idx' ∧ idx' ≤ str.length ∧
      (Cut delim.isDelim str idx' ∨ idx' = str.length) ∧
      IsToken delim.isDelim str (skipDelims delim str idx) len ∧
      skipDelims delim str idx + len ≤ idx' ∧
      ∀ k ch, skipDelims delim str idx + len ≤ k → k < idx' →
        str[k]? = some ch → delim.isDelim ch = true := by
  have hle := le_skipDelims delim str idx
  have hhere : ∀ ch, str[skipDelims delim str idx]? = some ch →
      delim.isDelim ch = false :=
    fun ch => skipDelims_stops
  rw [next, isEnd, if_neg (by simp only [decide_eq_true_eq]; omega)]
  dsimp only
  generalize skipDelims delim str idx = start at *
  cases hfind : findDelim delim str start with
  | some pos =>
      obtain ⟨hpos, ⟨ch, hat, hdelim⟩, hfree⟩ := findDelim_some hfind
      have hlt : start < pos := by
        apply Nat.lt_of_le_of_ne hpos
        rintro rfl
        rw [hhere ch hat] at hdelim
        cases hdelim
      have hend : start + (pos - start) = pos := Nat.add_sub_cancel' hpos
      have honly : ∀ k ch', pos ≤ k → k < pos + 1 → str[k]? = some ch' →
          delim.isDelim ch' = true := by
        intro k ch' hk hk' hch'
        rw [Nat.le_antisymm (Nat.le_of_lt_succ hk') hk, hat] at hch'
        rw [← Option.some.inj hch']
        exact hdelim
      refine ⟨pos - start, pos + 1, rfl, by omega,
        (List.getElem?_eq_some_iff.mp hat).1, .inl ?_,
        ⟨by omega, ?_, hcut, ?_⟩, by omega, ?_⟩
      · intro k ch' hk
        exact honly k ch' (by omega) (by omega)
      · intro k hk
        exact hfree (start + k) (Nat.le_add_right _ _) (by omega)
      · intro ch' hch'
        rw [hend] at hch'
        exact honly pos ch' (Nat.le_refl _) (Nat.lt_succ_self _) hch'
      · rw [hend]
        exact honly
  | none =>
      dsimp only
      rw [if_neg (by omega)]
      have hslice : str.drop start = slice str start (str.length - start) := by
        rw [slice, List.take_of_length_le (by rw [List.length_drop])]
      have hend : start + (str.length - start) = str.length := by omega
      refine ⟨str.length - start, str.length, by rw [hslice], by omega,
        Nat.le_refl _, .inr rfl, ⟨by omega, ?_, hcut, ?_⟩, by omega, ?_⟩
      · intro k hk
        exact findDelim_none hfind (Nat.le_add_right _ _) (by omega)
      · intro ch hch
        rw [hend, List.getElem?_eq_none (Nat.le_refl _)] at hch
        cases hch
      · intro k ch hk hk'
        omega

/-- What a call does: nothing is left, or it returns the first token of what is
left and stands behind it. -/
theorem next_spec (hle : idx ≤ str.length)
    (hcut : Cut delim.isDelim str idx ∨ idx = str.length) :
    (skipDelims delim str idx = str.length ∧
      TokensFrom delim.isDelim str idx [] ∧
      ∃ self', next ⟨str, delim, idx⟩ = (none, self')) ∨
    ∃ len idx', next ⟨str, delim, idx⟩ =
        (some (slice str (skipDelims delim str idx) len), ⟨str, delim, idx'⟩) ∧
      idx < idx' ∧ idx' ≤ str.length ∧
      (Cut delim.isDelim str idx' ∨ idx' = str.length) ∧
      Cut delim.isDelim str (skipDelims delim str idx) ∧
      ∀ spans, TokensFrom delim.isDelim str idx' spans →
        TokensFrom delim.isDelim str idx
          ((skipDelims delim str idx, len) :: spans) := by
  have hskip := le_skipDelims delim str idx
  have hdelims : ∀ k ch, idx ≤ k → k < skipDelims delim str idx →
      str[k]? = some ch → delim.isDelim ch = true :=
    fun k ch => skipDelims_delims
  have hbound : skipDelims delim str idx ≤ str.length := skipDelims_le hle
  rcases Nat.lt_or_eq_of_le hbound with hlt | hend
  · right
    have hstart : Cut delim.isDelim str (skipDelims delim str idx) := by
      intro k ch hk hat
      by_cases hbefore : idx ≤ k
      · exact hdelims k ch hbefore (by omega) hat
      · rcases hcut with hcut | hcut
        · exact hcut k ch (by omega) hat
        · omega
    obtain ⟨len, idx', hnext, hidx, hle', hcut', htoken, hbehind, hdelims'⟩ :=
      next_of_token hlt hstart
    refine ⟨len, idx', hnext, hidx, hle', hcut', hstart, ?_⟩
    intro spans hspans
    have hrest := hspans.of_delims hbehind hdelims'
    exact (hrest.cons htoken).of_delims hskip hdelims
  · left
    refine ⟨hend, ?_, next_of_delims hend⟩
    exact (TokensFrom.nil (Nat.le_of_eq hend.symm)).of_delims hskip hdelims

theorem next_advances {self self' : StringSplitter} {res : List Char}
    (hnext : self.next = (some res, self')) :
    self'.str.length - self'.idx < self.str.length - self.idx := by
  have hskip := le_skipDelims self.delim self.str self.idx
  rw [next] at hnext
  split_ifs at hnext with hend
  · cases hnext
  · have hlt : self.idx < self.str.length := by
      simpa [isEnd] using hend
    dsimp only at hnext
    split at hnext
    · rename_i pos hfind
      obtain ⟨hle, ⟨ch, hat, -⟩, -⟩ := findDelim_some hfind
      have hpos := (List.getElem?_eq_some_iff.mp hat).1
      cases hnext
      dsimp only
      omega
    · split_ifs at hnext
      · cases hnext
      · cases hnext
        dsimp only
        omega

/-- `StringSplitter::while_next`, with what the function changes as a state.
The number of strings is not used. -/
def whileNext {σ : Type} (fn : σ → List Char → σ) (state : σ)
    (self : StringSplitter) : σ :=
  match _hnext : self.next with
  | (none, _) => state
  | (some res, self') => whileNext fn (fn state res) self'
termination_by self.str.length - self.idx
decreasing_by exact next_advances _hnext

theorem whileNext_of_yields {σ : Type} {self : StringSplitter}
    {toks : List (List Char)} (h : self.Yields toks)
    (fn : σ → List Char → σ) (state : σ) :
    whileNext fn state self = toks.foldl fn state := by
  induction h generalizing state with
  | @done self self' hnext =>
      rw [whileNext]
      split
      · rfl
      · next res self'' hsome =>
        rw [hnext] at hsome
        cases hsome
  | @more self self' res rest hnext hrest ih =>
      rw [whileNext]
      split
      · next self'' hnone =>
        rw [hnext] at hnone
        cases hnone
      · next res' self'' hsome =>
        rw [hnext] at hsome
        cases hsome
        rw [List.foldl_cons]
        exact ih _

/-- The tokens that a splitter finds from where it stands, with the calls that
return them. -/
theorem exists_yields (hle : idx ≤ str.length)
    (hcut : Cut delim.isDelim str idx ∨ idx = str.length) :
    ∃ spans, TokensFrom delim.isDelim str idx spans ∧
      Yields ⟨str, delim, idx⟩
        (spans.map fun span => slice str span.1 span.2) := by
  induction hn : str.length - idx using Nat.strong_induction_on
    generalizing idx with
  | h n ih =>
      rcases next_spec hle hcut with
        ⟨-, hnil, self', hnone⟩ |
        ⟨len, idx', hsome, hlt, hle', hcut', -, hcons⟩
      · exact ⟨[], hnil, .done hnone⟩
      · obtain ⟨spans, hspans, hyields⟩ :=
          ih (str.length - idx') (by omega) hle' hcut' rfl
        exact ⟨_, hcons spans hspans, .more hsome hyields⟩

end StringSplitter

/-- `util::split`. -/
def split (str : List Char) (delim : SplitDelim) : List (List Char) :=
  StringSplitter.whileNext (fun vec res => vec ++ [res]) [] ⟨str, delim, 0⟩

/-- `util::SplitResult`. -/
structure SplitResult (n : Nat) where
  result : Vector (List Char) n
  remainder : List Char

/-- The loop of `split_n`: at most `n` tokens, and the splitter after them. -/
def takeNext : Nat → StringSplitter → List (List Char) →
    List (List Char) × StringSplitter
  | 0, splitter, res => (res, splitter)
  | n + 1, splitter, res =>
      match splitter.next with
      | (some next, splitter) => takeNext n splitter (res ++ [next])
      | (none, splitter) => (res, splitter)

/-- `util::split_n`. -/
def splitN (n : Nat) (str : List Char) (delim : SplitDelim) :
    Option (SplitResult n) :=
  let (res, splitter) := takeNext n ⟨str, delim, 0⟩ []
  if h : res.length = n then
    some {
      result := ⟨res.toArray, h⟩
      remainder := str.drop (skipDelims delim str splitter.idx) }
  else none

section Exact

variable {delim : SplitDelim} {str : List Char} {idx : Nat}
  {spans : List (Nat × Nat)}

/-- The text of the tokens. -/
def texts (str : List Char) (spans : List (Nat × Nat)) : List (List Char) :=
  spans.map fun span => slice str span.1 span.2

/-- The tokens from where a splitter stands, next to the call it makes. -/
theorem tokens_cases (hle : idx ≤ str.length)
    (hcut : Cut delim.isDelim str idx ∨ idx = str.length)
    (hspans : TokensFrom delim.isDelim str idx spans) :
    (spans = [] ∧ skipDelims delim str idx = str.length ∧
      ∃ self', StringSplitter.next ⟨str, delim, idx⟩ = (none, self')) ∨
    ∃ len idx' rest, spans = (skipDelims delim str idx, len) :: rest ∧
      StringSplitter.next ⟨str, delim, idx⟩ =
        (some (slice str (skipDelims delim str idx) len), ⟨str, delim, idx'⟩) ∧
      idx' ≤ str.length ∧ (Cut delim.isDelim str idx' ∨ idx' = str.length) ∧
      Cut delim.isDelim str (skipDelims delim str idx) ∧
      TokensFrom delim.isDelim str idx' rest := by
  rcases StringSplitter.next_spec hle hcut with
    ⟨hskip, hnil, hnone⟩ | ⟨len, idx', hsome, hlt, hle', hcut', hstart, hcons⟩
  · exact .inl ⟨hspans.unique hnil, hskip, hnone⟩
  · obtain ⟨rest, hrest, -⟩ := StringSplitter.exists_yields hle' hcut'
    exact .inr ⟨len, idx', rest, hspans.unique (hcons rest hrest), hsome, hle',
      hcut', hstart, hrest⟩

theorem split_eq_texts (hspans : TokensFrom delim.isDelim str 0 spans) :
    split str delim = texts str spans := by
  obtain ⟨spans', hspans', hyields⟩ :=
    StringSplitter.exists_yields (Nat.zero_le str.length) (.inl cut_zero)
  rw [split, StringSplitter.whileNext_of_yields hyields,
    List.foldl_append_eq_append, List.nil_append, hspans.unique hspans',
    ← List.flatMap_def, List.flatMap_singleton']
  rfl

/-- The loop of `split_n` takes the first tokens that are left. -/
theorem takeNext_spec (n : Nat) (res : List (List Char))
    (hle : idx ≤ str.length)
    (hcut : Cut delim.isDelim str idx ∨ idx = str.length)
    (hspans : TokensFrom delim.isDelim str idx spans) :
    (takeNext n ⟨str, delim, idx⟩ res).1 = res ++ texts str (spans.take n) ∧
      (n ≤ spans.length →
        ∃ idx', (takeNext n ⟨str, delim, idx⟩ res).2 = ⟨str, delim, idx'⟩ ∧
          idx' ≤ str.length ∧
          (Cut delim.isDelim str idx' ∨ idx' = str.length) ∧
          TokensFrom delim.isDelim str idx' (spans.drop n)) := by
  induction n generalizing idx spans res with
  | zero =>
      refine ⟨?_, fun _ => ⟨idx, rfl, hle, hcut, hspans⟩⟩
      rw [takeNext, List.take_zero, texts, List.map_nil, List.append_nil]
  | succ n ih =>
      rcases tokens_cases hle hcut hspans with
        ⟨rfl, -, self', hnone⟩ |
        ⟨len, idx', rest, rfl, hsome, hle', hcut', -, hrest⟩
      · rw [takeNext, hnone]
        refine ⟨?_, fun h => absurd h (Nat.not_succ_le_zero n)⟩
        rw [List.take_nil, texts, List.map_nil, List.append_nil]
      · rw [takeNext, hsome]
        obtain ⟨hres, hafter⟩ := ih (res ++ [_]) hle' hcut' hrest
        refine ⟨?_, fun h => hafter (Nat.le_of_succ_le_succ h)⟩
        rw [hres, List.append_assoc]
        rfl

/-- What is left behind the skipped delimiters starts with a token, or is
empty; its tokens are those that are left. -/
theorem skipDelims_spec (hle : idx ≤ str.length)
    (hcut : Cut delim.isDelim str idx ∨ idx = str.length)
    (hspans : TokensFrom delim.isDelim str idx spans) :
    skipDelims delim str idx = (spans.head?).elim str.length Prod.fst ∧
      split (str.drop (skipDelims delim str idx)) delim = texts str spans := by
  rcases tokens_cases hle hcut hspans with
    ⟨rfl, hskip, -⟩ | ⟨len, idx', rest, rfl, -, -, -, hstart, -⟩
  · refine ⟨hskip, ?_⟩
    have hnil : TokensFrom delim.isDelim ([] : List Char) 0 [] :=
      TokensFrom.nil (Nat.le_refl 0)
    rw [hskip, List.drop_length, split_eq_texts hnil]
    rfl
  · refine ⟨rfl, ?_⟩
    have hstarts : ∀ span ∈ (skipDelims delim str idx, len) :: rest,
        skipDelims delim str idx ≤ span.1 := by
      intro span hspan
      rcases List.mem_cons.mp hspan with rfl | hspan
      · exact Nat.le_refl _
      · have hlt := (List.pairwise_cons.mp hspans.sorted).1 span hspan
        dsimp only at hlt
        omega
    have hdrop := (hspans.raise (le_skipDelims delim str idx) hstarts).drop
      hstart
    rw [split_eq_texts hdrop, texts, texts, List.map_map]
    apply List.map_congr_left
    intro span hspan
    have hle := hstarts span hspan
    rw [Function.comp, slice, slice, List.drop_drop,
      Nat.add_sub_cancel' hle]

theorem splitN_isSome (n : Nat) : (splitN n str delim).isSome ↔
    (takeNext n ⟨str, delim, 0⟩ []).1.length = n := by
  rw [splitN]
  dsimp only
  split_ifs with hlength
  · exact iff_of_true rfl hlength
  · exact iff_of_false Bool.false_ne_true hlength

theorem splitN_eq_some {n : Nat} {r : SplitResult n}
    (hr : splitN n str delim = some r) :
    (takeNext n ⟨str, delim, 0⟩ []).1.length = n ∧
      r.result.toList = (takeNext n ⟨str, delim, 0⟩ []).1 ∧
      r.remainder = str.drop (skipDelims delim str
        (takeNext n ⟨str, delim, 0⟩ []).2.idx) := by
  rw [splitN] at hr
  dsimp only at hr
  split_ifs at hr with hlength
  obtain rfl := Option.some.inj hr
  exact ⟨hlength, rfl, rfl⟩

/-- Repeated calls of `next` end and return exactly the tokens, in order.
`split_n` succeeds if there are enough of them; it returns the first ones and
what starts at the next one. -/
theorem splitting_exact (str : List Char) (delim : SplitDelim) (n : Nat) :
    ∃ spans : List (Nat × Nat),
      spans.Pairwise (fun left right => left.1 + left.2 < right.1) ∧
      (∀ start len, (start, len) ∈ spans ↔
        IsToken delim.isDelim str start len) ∧
      StringSplitter.Yields ⟨str, delim, 0⟩ (texts str spans) ∧
      split str delim = texts str spans ∧
      ((splitN n str delim).isSome ↔ n ≤ spans.length) ∧
      ∀ r, splitN n str delim = some r →
        r.result.toList = texts str (spans.take n) ∧
        r.remainder = str.drop ((spans[n]?).elim str.length Prod.fst) ∧
        split str delim = r.result.toList ++ split r.remainder delim := by
  obtain ⟨spans, hspans, hyields⟩ :=
    StringSplitter.exists_yields (Nat.zero_le str.length) (.inl cut_zero)
  obtain ⟨hres, hafter⟩ :=
    takeNext_spec n [] (Nat.zero_le str.length) (.inl cut_zero) hspans
  have hsplit := split_eq_texts hspans
  refine ⟨spans, hspans.sorted, ?_, hyields, hsplit, ?_, ?_⟩
  · intro start len
    rw [hspans.mem_iff]
    exact ⟨fun h => h.2, fun h => ⟨Nat.zero_le start, h⟩⟩
  · rw [splitN_isSome, hres, List.nil_append, texts, List.length_map,
      List.length_take]
    omega
  · intro r hr
    obtain ⟨hlength, hresult, hremainder⟩ := splitN_eq_some hr
    rw [hres, List.nil_append] at hlength hresult
    have hle : n ≤ spans.length := by
      rw [texts, List.length_map, List.length_take] at hlength
      omega
    obtain ⟨idx, hidx, hle', hcut, hrest⟩ := hafter hle
    obtain ⟨hskip, htail⟩ := skipDelims_spec hle' hcut hrest
    rw [hidx] at hremainder
    dsimp only at hremainder
    refine ⟨hresult, ?_, ?_⟩
    · rw [hremainder, hskip, List.head?_drop]
    · rw [hresult, hremainder, htail, hsplit, texts, texts, texts,
        ← List.map_append, List.take_append_drop]

end Exact

/-- `util::rstrip`. -/
def rstrip (str : List Char) (delim : SplitDelim) : List Char :=
  str.rdropWhile delim.isDelim

/-- `util::lstrip`. -/
def lstrip (str : List Char) (delim : SplitDelim) : List Char :=
  str.dropWhile delim.isDelim

/-- The delimiters of `strip` when none are given. -/
def blanks : SplitDelim :=
  .span [' ', '\t', '\n']

/-- `util::strip`. -/
def strip (str : List Char) : List Char :=
  rstrip (lstrip str blanks) blanks

end Util

end Madbfs
