/-
How a POSIX shell reads a line of plain words.  The characters are read one
after the other; quotes and backslashes are removed, blanks end a word.  There
is no result where the line is more than words or its meaning is left open: an
expansion, a pattern, an operator, or a quotation without an end.  Nothing that
is removed comes back, so a word with as many characters as a quotation has was
quoted without a special one.
-/
import Mathlib.Data.List.Basic
import Mathlib.Data.Nat.Basic
import Mathlib.Tactic.SplitIfs

namespace Madbfs

namespace Shell

def singleQuote : Char := '\x27'

def doubleQuote : Char := '\x22'

def backquote : Char := '\x60'

def backslash : Char := '\x5c'

/-- What ends a word. -/
def isBlank (ch : Char) : Bool :=
  ch == ' ' || ch == '\t'

/-- What is not a part of a word outside quotes: operators, expansions and
patterns, and the end of the line. -/
def isSpecial (ch : Char) : Bool :=
  ch == backquote || "|&;<>()$*?[\n".toList.contains ch

/-- What is special at the start of a word: a comment or a home directory. -/
def isLeading (ch : Char) : Bool :=
  ch == '#' || ch == '~'

/-- What a backslash escapes between double quotes. -/
def isEscaped (ch : Char) : Bool :=
  ch == '$' || ch == backquote || ch == doubleQuote || ch == backslash

inductive Mode where
  | plain
  | plainEscape
  | single
  | double
  | doubleEscape
  | doubleDollar
deriving Repr, DecidableEq

/-- What has been read: the words, and the word that is not at its end. -/
structure Scan where
  mode : Mode
  word : Option (List Char)
  fields : List (List Char)
deriving Repr, DecidableEq

namespace Scan

def start : Scan :=
  ⟨.plain, none, []⟩

/-- More of the word, or a new one. -/
def push (s : Scan) (chars : List Char) (mode : Mode) : Scan :=
  { s with mode := mode, word := some (s.word.getD [] ++ chars) }

def step (s : Scan) (ch : Char) : Option Scan :=
  match s.mode with
  | .plain =>
      if ch = doubleQuote then some (s.push [] .double)
      else if ch = singleQuote then some (s.push [] .single)
      else if ch = backslash then some { s with mode := .plainEscape }
      else if isBlank ch then
        some ⟨.plain, none, s.fields ++ s.word.toList⟩
      else if isSpecial ch ∨ s.word = none ∧ isLeading ch then none
      else some (s.push [ch] .plain)
  | .plainEscape =>
      if ch = '\n' then some { s with mode := .plain }
      else some (s.push [ch] .plain)
  | .single =>
      if ch = singleQuote then some { s with mode := .plain }
      else some (s.push [ch] .single)
  | .double =>
      if ch = doubleQuote then some { s with mode := .plain }
      else if ch = backquote then none
      else if ch = '$' then some { s with mode := .doubleDollar }
      else if ch = backslash then some { s with mode := .doubleEscape }
      else some (s.push [ch] .double)
  | .doubleEscape =>
      if ch = '\n' then some { s with mode := .double }
      else if isEscaped ch then some (s.push [ch] .double)
      else some (s.push [backslash, ch] .double)
  | .doubleDollar =>
      -- before anything else it is an expansion, or its meaning is left open
      if isBlank ch ∨ ch = '\n' then some (s.push ['$', ch] .double)
      else none

def finish (s : Scan) : Option (List (List Char)) :=
  if s.mode = .plain then some (s.fields ++ s.word.toList) else none

/-- The characters that have been kept. -/
def kept (s : Scan) : Nat :=
  s.fields.flatten.length + (s.word.getD []).length

/-- A backslash or a dollar between double quotes may still be kept. -/
def size (s : Scan) : Nat :=
  s.kept + if s.mode = .doubleEscape ∨ s.mode = .doubleDollar then 1 else 0

end Scan

/-- The words of a line. -/
def fields (line : List Char) : Option (List (List Char)) :=
  (line.foldlM Scan.step .start).bind Scan.finish

namespace Scan

variable {s s' : Scan} {ch : Char} {text : List Char}

@[simp] theorem kept_push (s : Scan) (chars : List Char) (mode : Mode) :
    (s.push chars mode).kept = s.kept + chars.length := by
  simp [kept, push, Nat.add_assoc]

@[simp] theorem mode_push (s : Scan) (chars : List Char) (mode : Mode) :
    (s.push chars mode).mode = mode :=
  rfl

/-- A change of the mode keeps the characters. -/
@[simp] theorem kept_mode (s : Scan) (mode : Mode) :
    kept { s with mode := mode } = s.kept :=
  rfl

@[simp] theorem kept_blank (s : Scan) :
    kept ⟨.plain, none, s.fields ++ s.word.toList⟩ = s.kept := by
  cases hword : s.word <;> simp [kept, hword]

/-- Between quotes, up to the closing one. -/
def Quoted (mode : Mode) : Prop :=
  mode = .single ∨ mode = .double ∨ mode = .doubleEscape ∨
    mode = .doubleDollar

/-- A character is kept or not, and after a quotation the closing quote is
not. -/
theorem size_step (hstep : s.step ch = some s') :
    s'.size ≤ s.size + 1 ∧
      (Quoted s.mode → Quoted s'.mode ∨ s'.mode = .plain ∧ s'.size = s.size) ∧
      (s.mode = .plain → s'.size = s.size ∨
        ch ≠ doubleQuote ∧ s'.mode = .plain) := by
  unfold step at hstep
  cases hmode : s.mode
  all_goals
    simp only [hmode] at hstep
    split_ifs at hstep <;> cases hstep <;> simp_all [size, Quoted] <;> omega

theorem size_run (hrun : text.foldlM step s = some s') :
    s'.size ≤ s.size + text.length := by
  induction text generalizing s with
  | nil =>
      cases hrun
      exact Nat.le_refl _
  | cons ch rest ih =>
      rw [List.foldlM_cons] at hrun
      obtain ⟨s₁, hstep, hrest⟩ := Option.bind_eq_some_iff.mp hrun
      have hone := (size_step hstep).1
      have hmore := ih hrest
      rw [List.length_cons]
      omega

/-- What ends outside quotes and had a quotation lost a character. -/
theorem size_run_lt (hrun : text.foldlM step s = some s')
    (hend : s'.mode = .plain)
    (hquote : Quoted s.mode ∨ s.mode = .plain ∧ doubleQuote ∈ text) :
    s'.size < s.size + text.length := by
  induction text generalizing s with
  | nil =>
      cases hrun
      rcases hquote with hquoted | ⟨-, hmem⟩
      · rw [hend] at hquoted
        simp [Quoted] at hquoted
      · cases hmem
  | cons ch rest ih =>
      rw [List.foldlM_cons] at hrun
      obtain ⟨s₁, hstep, hrest⟩ := Option.bind_eq_some_iff.mp hrun
      obtain ⟨hone, hquoted, hplain⟩ := size_step hstep
      have hmore := size_run hrest
      rw [List.length_cons]
      rcases hquote with hin | ⟨hout, hmem⟩
      · rcases hquoted hin with hstill | ⟨-, hsame⟩
        · have hlater := ih hrest (.inl hstill)
          omega
        · omega
      · rcases hplain hout with hsame | ⟨hne, hstill⟩
        · omega
        · have hlater := ih hrest (.inr ⟨hstill,
            (List.mem_cons.mp hmem).resolve_left (Ne.symm hne)⟩)
          omega

end Scan

/-- Text that keeps its meaning between double quotes: it has no double quote
and no backquote, every dollar stands before a blank or an end of line, and no
backslash escapes what comes after it. -/
def Literal : List Char → Prop
  | [] => True
  | ch :: rest =>
      ch ≠ doubleQuote ∧ ch ≠ backquote ∧
        (ch = '$' → rest.head?.any fun next => isBlank next || next == '\n') ∧
        (ch = backslash →
          rest.head?.any fun next => !isEscaped next && next != '\n') ∧
        Literal rest

instance decideLiteral : (text : List Char) → Decidable (Literal text)
  | [] => .isTrue trivial
  | ch :: rest =>
      have := decideLiteral rest
      inferInstanceAs (Decidable (ch ≠ doubleQuote ∧ ch ≠ backquote ∧
        (ch = '$' → rest.head?.any fun next => isBlank next || next == '\n') ∧
        (ch = backslash →
          rest.head?.any fun next => !isEscaped next && next != '\n') ∧
        Literal rest))

theorem Literal.cons {ch : Char} {rest : List Char}
    (hplain : isEscaped ch = false) (hrest : Literal rest) :
    Literal (ch :: rest) := by
  simp only [isEscaped, Bool.or_eq_false_iff, beq_eq_false_iff_ne] at hplain
  obtain ⟨⟨⟨hdollar, hback⟩, hquote⟩, hslash⟩ := hplain
  exact ⟨hquote, hback, fun h => absurd h hdollar, fun h => absurd h hslash,
    hrest⟩

namespace Scan

variable {s s' : Scan} {ch next : Char} {text : List Char}

/-- An ordinary character between double quotes. -/
theorem step_double (hmode : s.mode = .double) (hplain : isEscaped ch = false) :
    s.step ch = some (s.push [ch] .double) := by
  simp only [isEscaped, Bool.or_eq_false_iff, beq_eq_false_iff_ne] at hplain
  simp [step, hmode, hplain]

theorem step_dollar (hmode : s.mode = .double) :
    s.step '$' = some { s with mode := .doubleDollar } := by
  simp [step, hmode, doubleQuote, backquote]

theorem step_backslash (hmode : s.mode = .double) :
    s.step backslash = some { s with mode := .doubleEscape } := by
  simp [step, hmode, doubleQuote, backquote, backslash]

theorem step_quote (hmode : s.mode = .double) :
    s.step doubleQuote = some { s with mode := .plain } := by
  simp [step, hmode]

theorem isEscaped_of_blank (hblank : isBlank ch ∨ ch = '\n') :
    isEscaped ch = false := by
  simp only [isBlank, Bool.or_eq_true, beq_iff_eq] at hblank
  rcases hblank with (rfl | rfl) | rfl <;> decide

theorem run_literal (hliteral : Literal text) (w : List Char)
    (before : List (List Char)) :
    text.foldlM step ⟨.double, some w, before⟩ =
      some ⟨.double, some (w ++ text), before⟩ := by
  induction hlen : text.length using Nat.strong_induction_on
    generalizing text w with
  | h n ih =>
      cases text with
      | nil => simp
      | cons ch rest =>
          obtain ⟨hquote, hback, hdollar, hescape, hrest⟩ := hliteral
          rw [List.length_cons] at hlen
          -- a dollar and a backslash are read together with what follows
          by_cases hch : ch = '$'
          · obtain ⟨next, hhead, hblank⟩ :=
              (Option.any_eq_true _ _).mp (hdollar hch)
            obtain ⟨tail, rfl⟩ := List.head?_eq_some_iff.mp hhead
            simp only [Bool.or_eq_true, beq_iff_eq] at hblank
            have htail := ih tail.length
              (by rw [List.length_cons] at hlen; omega)
              hrest.2.2.2.2 (w ++ ['$', next]) rfl
            rw [hch, List.foldlM_cons, step_dollar rfl]
            simpa [step, hblank, push] using htail
          · by_cases hslash : ch = backslash
            · obtain ⟨next, hhead, hnext⟩ :=
                (Option.any_eq_true _ _).mp (hescape hslash)
              obtain ⟨tail, rfl⟩ := List.head?_eq_some_iff.mp hhead
              simp only [Bool.and_eq_true, Bool.not_eq_true',
                bne_iff_ne, ne_eq] at hnext
              have htail := ih tail.length
                (by rw [List.length_cons] at hlen; omega)
                hrest.2.2.2.2 (w ++ [backslash, next]) rfl
              rw [hslash, List.foldlM_cons, step_backslash rfl]
              simpa [step, hnext, push] using htail
            · have htail := ih rest.length (by omega) hrest (w ++ [ch]) rfl
              have hplain : isEscaped ch = false := by
                simp [isEscaped, hch, hback, hquote, hslash]
              rw [List.foldlM_cons, step_double rfl hplain]
              simpa [push] using htail

/-- A dollar that is read has a blank behind it. -/
theorem blank_of_run
    (hrun : (text ++ [doubleQuote]).foldlM step s = some s')
    (hmode : s.mode = .doubleDollar) :
    ∃ next tail, text = next :: tail ∧ (isBlank next ∨ next = '\n') ∧
      (tail ++ [doubleQuote]).foldlM step (s.push ['$', next] .double) =
        some s' := by
  cases text with
  | nil =>
      have hnone : s.step doubleQuote = none := by
        simp [step, hmode, isBlank, doubleQuote]
      rw [List.nil_append, List.foldlM_cons, hnone] at hrun
      cases hrun
  | cons next tail =>
      rw [List.cons_append, List.foldlM_cons] at hrun
      obtain ⟨s₁, hstep, hrest⟩ := Option.bind_eq_some_iff.mp hrun
      simp only [step, hmode] at hstep
      split_ifs at hstep with hblank
      cases hstep
      exact ⟨next, tail, rfl, hblank, hrest⟩

/-- A backslash that is kept escapes nothing. -/
theorem ordinary_of_run
    (hrun : (text ++ [doubleQuote]).foldlM step s = some s')
    (hmode : s.mode = .doubleEscape) (hend : s'.mode = .plain)
    (hsize : s'.size = s.size + text.length) :
    ∃ next tail, text = next :: tail ∧ isEscaped next = false ∧ next ≠ '\n' ∧
      (tail ++ [doubleQuote]).foldlM step (s.push [backslash, next] .double) =
        some s' := by
  cases text with
  | nil =>
      -- the last quote is escaped, and the quotation goes on
      have hquote : s.step doubleQuote =
          some (s.push [doubleQuote] .double) := by
        simp [step, hmode, isEscaped, doubleQuote]
      rw [List.nil_append, List.foldlM_cons, hquote] at hrun
      cases hrun
      cases hend
  | cons next tail =>
      rw [List.cons_append, List.foldlM_cons] at hrun
      obtain ⟨s₁, hstep, hrest⟩ := Option.bind_eq_some_iff.mp hrun
      have hmore := size_run hrest
      simp only [step, hmode] at hstep
      split_ifs at hstep with hline hescaped <;> cases hstep
      · simp [size, hmode] at hmore hsize
        omega
      · have hlt := size_run_lt hrest hend (.inl (.inr (.inl rfl)))
        simp [size, hmode] at hlt hsize
        omega
      · exact ⟨next, tail, rfl, by simpa using hescaped, hline, hrest⟩

/-- If a quotation ends and nothing of it is lost, it is literal. -/
theorem literal_of_run
    (hrun : (text ++ [doubleQuote]).foldlM step s = some s')
    (hmode : s.mode = .double) (hend : s'.mode = .plain)
    (hsize : s'.size = s.size + text.length) : Literal text := by
  induction hlen : text.length using Nat.strong_induction_on
    generalizing text s with
  | h n ih =>
      cases text with
      | nil => trivial
      | cons ch rest =>
          rw [List.cons_append, List.foldlM_cons] at hrun
          obtain ⟨s₁, hstep, hrest⟩ := Option.bind_eq_some_iff.mp hrun
          rw [List.length_cons] at hlen hsize
          simp only [step, hmode] at hstep
          split_ifs at hstep with hquote hback hdollar hslash <;> cases hstep
          · -- the quotation ends here, and the last quote starts another one
            have hlt := size_run_lt hrest hend (.inr ⟨rfl, by simp⟩)
            simp [size, hmode] at hlt hsize
            omega
          · obtain ⟨next, tail, rfl, hblank, htail⟩ := blank_of_run hrest rfl
            have hplain := isEscaped_of_blank hblank
            have hliteral := ih tail.length
              (by rw [List.length_cons] at hlen; omega) htail rfl
              (by rw [hsize]; simp [size, hmode]; omega) rfl
            exact ⟨hquote, hback, fun _ => by simpa using hblank,
              fun h => absurd (hdollar.symm.trans h) (by decide),
              hliteral.cons hplain⟩
          · obtain ⟨next, tail, rfl, hplain, hline, htail⟩ :=
              ordinary_of_run hrest rfl hend
                (by rw [hsize]; simp [size, hmode]; omega)
            have hliteral := ih tail.length
              (by rw [List.length_cons] at hlen; omega) htail rfl
              (by rw [hsize]; simp [size, hmode]; omega) rfl
            exact ⟨hquote, hback, fun h => absurd h hdollar,
              fun _ => by simp [hplain, hline], hliteral.cons hplain⟩
          · have hliteral := ih rest.length (by omega) hrest rfl
              (by rw [hsize]; simp [size, hmode]; omega) rfl
            exact ⟨hquote, hback, fun h => absurd h hdollar,
              fun h => absurd h hslash, hliteral⟩

end Scan

/-- What is part of a word outside quotes as it is. -/
def isPlain (ch : Char) : Bool :=
  ch != doubleQuote && ch != singleQuote && ch != backslash &&
    !isBlank ch && !isSpecial ch && !isLeading ch

namespace Scan

/-- The start of a quotation that is a part of a word. -/
theorem run_key {key : List Char} (hkey : key.all isPlain)
    (w : Option (List Char)) (before : List (List Char)) :
    (key ++ [doubleQuote]).foldlM step ⟨.plain, w, before⟩ =
      some ⟨.double, some (w.getD [] ++ key), before⟩ := by
  induction key generalizing w with
  | nil => simp [step, push]
  | cons ch rest ih =>
      rw [List.all_cons, Bool.and_eq_true] at hkey
      obtain ⟨hch, hrest⟩ := hkey
      simp only [isPlain, Bool.and_eq_true, bne_iff_ne, ne_eq,
        Bool.not_eq_true'] at hch
      have hmore := ih hrest (some (w.getD [] ++ [ch]))
      rw [List.cons_append, List.foldlM_cons]
      simpa [step, push, hch] using hmore

theorem size_of_finish {s : Scan} {words : List (List Char)}
    (hfinish : s.finish = some words) :
    s.mode = .plain ∧ s.size = words.flatten.length := by
  rw [finish] at hfinish
  split_ifs at hfinish with hmode
  cases hfinish
  refine ⟨hmode, ?_⟩
  cases hword : s.word <;> simp [size, kept, hmode, hword]

end Scan

/-- A word that is a quotation behind a key is the text of the two if and only
if the quotation is literal. -/
theorem fields_quotation_iff {key text : List Char} (hkey : key.all isPlain) :
    fields (key ++ doubleQuote :: text ++ [doubleQuote]) =
      some [key ++ text] ↔ Literal text := by
  have hstart : (key ++ doubleQuote :: text ++ [doubleQuote]).foldlM Scan.step
      .start = (text ++ [doubleQuote]).foldlM Scan.step
        ⟨.double, some key, []⟩ := by
    rw [show key ++ doubleQuote :: text ++ [doubleQuote] =
      (key ++ [doubleQuote]) ++ (text ++ [doubleQuote]) by simp,
      List.foldlM_append, Scan.start, Scan.run_key hkey]
    rfl
  rw [fields, hstart]
  constructor
  · intro hfields
    obtain ⟨s, hrun, hfinish⟩ := Option.bind_eq_some_iff.mp hfields
    obtain ⟨hplain, hsize⟩ := Scan.size_of_finish hfinish
    apply Scan.literal_of_run hrun rfl hplain
    rw [hsize]
    simp [Scan.size, Scan.kept]
  · intro hliteral
    rw [List.foldlM_append, Scan.run_literal hliteral]
    simp [Scan.step_quote, Scan.finish]

end Shell

end Madbfs
