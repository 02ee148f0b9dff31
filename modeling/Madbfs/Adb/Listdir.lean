/-
Listings of directories over adb.  `find` runs `stat` on the directory and on
what is in it; the handler reads the lines after the first, each with eight
columns and a path.  A name is returned as it is, unless it ends in a blank,
because blanks are taken off the line that it ends.
-/
import Madbfs.Adb.Command
import Madbfs.Terminated

namespace Madbfs

namespace Adb

/-- `parse_integral`, for the integral type with these bounds. -/
def parseIntegral (min max : Int) (str : Str) (base : Nat) : Option Int :=
  let minus : Bool := min < 0 ∧ str.head? = some '-'
  let digits := if minus then str.tail else str
  (Numeral.read base digits).bind fun n =>
    let value : Int := if minus then -n else n
    if min ≤ value ∧ value ≤ max then some value else none

/-- The same for an unsigned type, or zero. -/
def parseUnsigned (max : Int) (str : Str) (base : Nat) : Nat :=
  ((parseIntegral 0 max str base).getD 0).toNat

/-- `get_basename`. -/
def getBasename (path : Str) : Str :=
  if path = ['/'] then path
  else path.rtakeWhile (· ≠ '/')

/-- `parse_file_stat`. -/
def parseFileStat (parseDate : Str → Rpc.Timespec) (str : Str) :
    Option (Str × Rpc.Stat) :=
  (Util.splitN 8 str (.char '|')).map fun res =>
    let column (k : Fin 8) := res.result.get k
    (getBasename res.remainder, {
      size := .ofInt ((parseIntegral (-0x8000000000000000) 0x7fffffffffffffff
        (column 2) 10).getD 0)
      links := .ofNat (parseUnsigned 0xffffffffffffffff (column 1) 10)
      mtime := parseDate (column 6)
      atime := parseDate (column 5)
      ctime := parseDate (column 7)
      mode := .ofNat (parseUnsigned 0xffffffff (column 0) 16)
      uid := .ofNat (parseUnsigned 0xffffffff (column 3) 10)
      gid := .ofNat (parseUnsigned 0xffffffff (column 4) 10) })

/-- The buffer of a request for a listing, and what lies where in it. -/
structure Listing where
  buf : Str
  slices : List (Rpc.Slice × Rpc.Stat)
deriving Repr, DecidableEq

/-- The loop over the lines. -/
def Listing.add (parseDate : Str → Rpc.Timespec) (listing : Listing)
    (line : Str) : Listing :=
  match parseFileStat parseDate (Util.strip line) with
  | none => listing
  | some (name, stat) => {
      buf := listing.buf ++ name
      slices := listing.slices ++
        [(⟨listing.buf.length, name.length⟩, stat)] }

/-- The names, once the buffer is complete. -/
def Listing.entries (listing : Listing) : List (Str × Rpc.Stat) :=
  listing.slices.map fun (slice, stat) =>
    (Bytes.slice listing.buf slice.offset slice.size, stat)

/-- `handle_req` for `Listdir`, after the command has run. -/
def handleListdir (parseDate : Str → Rpc.Timespec) (res : Except Errc Str) :
    Except Errc (List (Str × Rpc.Stat)) :=
  res.map fun output =>
    let lines : Util.StringSplitter := ⟨output, .char '\n', 0⟩
    -- the first line is the directory itself
    (lines.next.2.whileNext (Listing.add parseDate) ⟨[], []⟩).entries

/-- A column of what `stat` prints: a text between two bars. -/
structure Column where
  text : Str
  ne_nil : text ≠ []
  plain : ∀ ch ∈ text, ch ≠ '|' ∧ ch ≠ '\n'

theorem plain_of_isAlphanum {ch : Char} (hch : ch.isAlphanum) :
    ch ≠ '|' ∧ ch ≠ '\n' := by
  constructor <;> rintro rfl <;> cases hch

def Column.ofNat (base n : Nat) (hbase : 1 < base) (hle : base ≤ 16) :
    Column where
  text := Numeral.write base n
  ne_nil := Numeral.write_ne_nil base n
  plain := fun _ hch =>
    plain_of_isAlphanum (Numeral.isAlphanum_of_mem_write hbase hle hch)

theorem plain_showInt {value : Int} {ch : Char} (hch : ch ∈ showInt value) :
    ch ≠ '|' ∧ ch ≠ '\n' := by
  have hdigits : ∀ {n : Nat}, ch ∈ Numeral.write 10 n → ch ≠ '|' ∧ ch ≠ '\n' :=
    fun hmem => plain_of_isAlphanum
      (Numeral.isAlphanum_of_mem_write (by decide) (by decide) hmem)
  rw [showInt] at hch
  split_ifs at hch
  · rcases List.mem_cons.mp hch with rfl | hmem
    · decide
    · exact hdigits hmem
  · exact hdigits hch

theorem showInt_ne_nil (value : Int) : showInt value ≠ [] := by
  rw [showInt]
  split_ifs
  · exact List.cons_ne_nil _ _
  · exact Numeral.write_ne_nil _ _

def Column.ofInt (value : Int) : Column where
  text := showInt value
  ne_nil := showInt_ne_nil value
  plain := fun _ => plain_showInt

/-- What `stat` knows of a file.  The times are what it prints of them. -/
structure FileStat where
  mode : UInt32
  links : UInt64
  size : Int64
  uid : UInt32
  gid : UInt32
  atime : Column
  mtime : Column
  ctime : Column

/-- The fields that a line is to be decoded to. -/
def FileStat.decoded (parseDate : Str → Rpc.Timespec) (file : FileStat) :
    Rpc.Stat where
  size := file.size
  links := file.links
  mtime := parseDate file.mtime.text
  atime := parseDate file.atime.text
  ctime := parseDate file.ctime.text
  mode := file.mode
  uid := file.uid
  gid := file.gid

/-- `%f|%h|%s|%u|%g|%x|%y|%z|`. -/
def FileStat.columns (file : FileStat) : Vector Column 8 :=
  #v[.ofNat 16 file.mode.toNat (by decide) (by decide),
    .ofNat 10 file.links.toNat (by decide) (by decide),
    .ofInt file.size.toInt,
    .ofNat 10 file.uid.toNat (by decide) (by decide),
    .ofNat 10 file.gid.toNat (by decide) (by decide),
    file.atime, file.mtime, file.ctime]

/-- The line of a file, without its end. -/
def FileStat.line (file : FileStat) (path : Str) : Str :=
  Util.terminated '|' (file.columns.map Column.text).toList ++ path

/-- A file in a directory. -/
structure DirEntry extends FileStat where
  name : Str
  ne_nil : name ≠ []
  plain : ∀ ch ∈ name, ch ≠ '/' ∧ ch ≠ '\n'

/-- The path that `find` makes of a directory and a name in it. -/
def childPath (dir name : Str) : Str :=
  if dir.getLast? = some '/' then dir ++ name else dir ++ '/' :: name

/-- What the command prints: the directory, and what is in it. -/
def printed (dir : Str) (own : FileStat) (files : List DirEntry) : Str :=
  Util.terminated '\n' (own.line dir :: files.map fun file =>
    file.line (childPath dir file.name))

section Decode

variable {name : Str}

theorem isAlphanum_head_write {base n : Nat} (hbase : 1 < base)
    (hle : base ≤ 16) : ∃ ch rest, Numeral.write base n = ch :: rest ∧
      ch.isAlphanum := by
  obtain ⟨ch, rest, heq⟩ :=
    List.exists_cons_of_ne_nil (Numeral.write_ne_nil base n)
  refine ⟨ch, rest, heq, ?_⟩
  apply Numeral.isAlphanum_of_mem_write hbase hle
  rw [heq]
  exact List.mem_cons_self

/-- A number that the type has is read from its numeral. -/
theorem parseIntegral_write {min max : Int} {base n : Nat} (hbase : 1 < base)
    (hle : base ≤ 16) (hmin : min ≤ n) (hmax : n ≤ max) :
    parseIntegral min max (Numeral.write base n) base = some (n : Int) := by
  obtain ⟨ch, rest, heq, hch⟩ := isAlphanum_head_write hbase hle (n := n)
  have hhead : (Numeral.write base n).head? ≠ some '-' := by
    rw [heq]
    rintro ⟨⟩
    cases hch
  simp [parseIntegral, hhead, Numeral.read_write hbase hle, hmin, hmax]

theorem parseIntegral_showInt {min max value : Int} (hmin : min ≤ value)
    (hmax : value ≤ max) :
    parseIntegral min max (showInt value) 10 = some value := by
  rw [showInt]
  split_ifs with hneg
  · have hread := Numeral.read_write (n := value.natAbs)
      (by decide : 1 < 10) (by decide)
    simp [parseIntegral, Int.lt_of_le_of_lt hmin hneg, hread, abs_of_neg hneg,
      hmin, hmax]
  · have habs : (value.natAbs : Int) = value := by omega
    rw [parseIntegral_write (by decide) (by decide) (by omega) (by omega), habs]

theorem whole_columns (file : FileStat) :
    ∀ column ∈ (file.columns.map Column.text).toList,
      Util.Whole '|' column := by
  intro column hcolumn
  rw [Vector.toList_map] at hcolumn
  obtain ⟨c, -, rfl⟩ := List.mem_map.mp hcolumn
  exact ⟨c.ne_nil, fun hmem => (c.plain _ hmem).1 rfl⟩

theorem parseUnsigned_write {max : Int} {base n : Nat} (hbase : 1 < base)
    (hle : base ≤ 16) (hmax : n ≤ max) :
    parseUnsigned max (Numeral.write base n) base = n := by
  rw [parseUnsigned,
    parseIntegral_write hbase hle (Int.natCast_nonneg n) hmax]
  rfl

/-- The fields of a line are those of its file, whatever the path is. -/
theorem parseFileStat_line (parseDate : Str → Rpc.Timespec) (file : FileStat)
    (path : Str) :
    parseFileStat parseDate (file.line path) =
      some (getBasename (path.dropWhile (Util.SplitDelim.char '|').isDelim),
        file.decoded parseDate) := by
  have hwidth : ∀ n : UInt32, (n.toNat : Int) ≤ 0xffffffff := by
    intro n
    have hlt := n.toNat_lt
    omega
  have hlinks : (file.links.toNat : Int) ≤ 0xffffffffffffffff := by
    have hlt := file.links.toNat_lt
    omega
  have hsize : parseIntegral (-0x8000000000000000) 0x7fffffffffffffff
      (showInt file.size.toInt) 10 = some file.size.toInt := by
    apply parseIntegral_showInt
    · exact file.size.le_toInt
    · exact Int.le_sub_one_of_lt file.size.toInt_lt
  have hcolumn : ∀ k, (file.columns.map Column.text).get k =
      (file.columns.get k).text := by
    intro k
    simp [Vector.get]
  rw [parseFileStat, FileStat.line, Util.splitN_fields (whole_columns file),
    Option.map_some]
  simp only [hcolumn]
  rw [
    show (file.columns.get 0).text = Numeral.write 16 file.mode.toNat from rfl,
    show (file.columns.get 1).text = Numeral.write 10 file.links.toNat from rfl,
    show (file.columns.get 2).text = showInt file.size.toInt from rfl,
    show (file.columns.get 3).text = Numeral.write 10 file.uid.toNat from rfl,
    show (file.columns.get 4).text = Numeral.write 10 file.gid.toNat from rfl,
    show file.columns.get 5 = file.atime from rfl,
    show file.columns.get 6 = file.mtime from rfl,
    show file.columns.get 7 = file.ctime from rfl,
    hsize, parseUnsigned_write (by decide) (by decide) hlinks,
    parseUnsigned_write (by decide) (by decide) (hwidth file.mode),
    parseUnsigned_write (by decide) (by decide) (hwidth file.uid),
    parseUnsigned_write (by decide) (by decide) (hwidth file.gid)]
  simp [FileStat.decoded]

theorem exists_line_eq_cons (file : FileStat) (path : Str) :
    ∃ ch rest, file.line path = ch :: rest ∧ ch.isAlphanum := by
  obtain ⟨ch, rest, heq, hch⟩ := isAlphanum_head_write (n := file.mode.toNat)
    (by decide : 1 < 16) (by decide)
  have hline : file.line path = Numeral.write 16 file.mode.toNat ++ '|' ::
      (Util.terminated '|' (file.columns.map Column.text).toList.tail ++
        path) := by
    simp [FileStat.line, FileStat.columns, Column.ofNat, Util.terminated]
  rw [heq] at hline
  exact ⟨ch, _, hline, hch⟩

/-- What `strip` takes off a line is at the end of the name. -/
theorem strip_line (file : FileStat) (parent name : Str) :
    Util.strip (file.line (parent ++ '/' :: name)) =
      file.line (parent ++ '/' :: Util.rstrip name Util.blanks) := by
  obtain ⟨ch, rest, heq, hch⟩ :=
    exists_line_eq_cons file (parent ++ '/' :: name)
  have hplain : Util.blanks.isDelim ch = false := by
    rw [Bool.eq_false_iff]
    intro hblank
    simp only [Util.blanks, Util.SplitDelim.isDelim, List.contains_iff_mem,
      List.mem_cons, List.not_mem_nil, or_false] at hblank
    rcases hblank with rfl | rfl | rfl <;> cases hch
  rw [Util.strip, heq, Util.lstrip_cons _ hplain, ← heq, FileStat.line,
    ← List.append_assoc, Util.rstrip_append _ _ (by decide), FileStat.line,
    List.append_assoc]

theorem getBasename_append (parent : Str) (hname : '/' ∉ name)
    (hne : parent ≠ [] ∨ name ≠ []) :
    getBasename (parent ++ '/' :: name) = name := by
  have hroot : parent ++ '/' :: name ≠ ['/'] := by
    intro heq
    cases parent <;> simp_all
  have htake : ∀ ch ∈ name.reverse, decide (ch ≠ '/') = true := by
    intro ch hch
    rw [decide_eq_true_eq]
    rintro rfl
    exact hname (List.mem_reverse.mp hch)
  rw [getBasename, if_neg hroot, List.rtakeWhile, List.reverse_append,
    List.reverse_cons, List.append_assoc, List.takeWhile_append_of_pos htake]
  simp

/-- The name that is decoded for a file. -/
def decodedName (dir name : Str) : Str :=
  getBasename ((childPath dir (Util.rstrip name Util.blanks)).dropWhile
    (Util.SplitDelim.char '|').isDelim)

theorem exists_childPath (dir : Str) :
    ∃ parent, ∀ name, childPath dir name = parent ++ '/' :: name := by
  by_cases hlast : dir.getLast? = some '/'
  · obtain ⟨parent, rfl⟩ := List.getLast?_eq_some_iff.mp hlast
    exact ⟨parent, fun name => by simp [childPath]⟩
  · exact ⟨dir, fun name => by simp [childPath, hlast]⟩

/-- The line of a file in a directory is decoded to its fields, and to a name
without the blanks at its end. -/
theorem parseFileStat_strip (parseDate : Str → Rpc.Timespec) (file : FileStat)
    (dir name : Str) :
    parseFileStat parseDate (Util.strip (file.line (childPath dir name))) =
      some (decodedName dir name, file.decoded parseDate) := by
  obtain ⟨parent, hparent⟩ := exists_childPath dir
  rw [decodedName, hparent, strip_line, parseFileStat_line, hparent]

theorem rstrip_eq_iff (file : DirEntry) :
    Util.rstrip file.name Util.blanks = file.name ↔
      ∀ ch ∈ file.name.getLast?, ch ≠ ' ' ∧ ch ≠ '\t' := by
  have hlast := List.getLast?_eq_some_getLast file.ne_nil
  have hline := (file.plain _ (List.getLast_mem file.ne_nil)).2
  rw [Util.rstrip, List.rdropWhile_eq_self_iff, hlast]
  simp [file.ne_nil, Util.blanks, Util.SplitDelim.isDelim, hline]

theorem decodedName_eq_iff (file : DirEntry) (dir : Str) :
    decodedName dir file.name = file.name ↔
      ∀ ch ∈ file.name.getLast?, ch ≠ ' ' ∧ ch ≠ '\t' := by
  obtain ⟨parent, hparent⟩ := exists_childPath dir
  have hslash : '/' ∉ Util.rstrip file.name Util.blanks := fun hmem =>
    (file.plain _ ((List.rdropWhile_prefix _ _).subset hmem)).1 rfl
  rw [← rstrip_eq_iff, decodedName, hparent,
    Util.dropWhile_append _ _ (by decide)]
  generalize parent.dropWhile _ = parent'
  by_cases hnil : Util.rstrip file.name Util.blanks = []
  · -- the blanks were all of the name, and it is lost
    rw [hnil]
    apply iff_of_false
    · cases parent' with
      | nil =>
          intro hroot
          apply (file.plain '/' _).1 rfl
          rw [← hroot]
          exact List.mem_singleton_self _
      | cons ch rest =>
          rw [getBasename_append _ List.not_mem_nil
            (.inl (List.cons_ne_nil _ _))]
          exact file.ne_nil.symm
    · exact file.ne_nil.symm
  · rw [getBasename_append parent' hslash (.inr hnil)]

end Decode

section Loop

variable (parseDate : Str → Rpc.Timespec) {listing : Listing} {line : Str}
  {lines : List Str}

/-- What has been put into the buffer stays where it is. -/
def Listing.Bounded (listing : Listing) : Prop :=
  ∀ part ∈ listing.slices,
    part.1.offset + part.1.size ≤ listing.buf.length

theorem Listing.add_spec (hbounded : listing.Bounded) (line : Str) :
    (listing.add parseDate line).Bounded ∧
      (listing.add parseDate line).entries = listing.entries ++
        (parseFileStat parseDate (Util.strip line)).toList := by
  rw [Listing.add]
  cases parseFileStat parseDate (Util.strip line) with
  | none => exact ⟨hbounded, (List.append_nil _).symm⟩
  | some parsed =>
      obtain ⟨name, stat⟩ := parsed
      dsimp only
      constructor
      · intro part hpart
        rw [List.length_append]
        rcases List.mem_append.mp hpart with hold | hnew
        · have hle := hbounded part hold
          omega
        · rw [List.mem_singleton.mp hnew]
      · rw [entries, entries, List.map_append]
        congr 1
        · apply List.map_congr_left
          intro part hpart
          have hle := hbounded part hpart
          simp only [Prod.mk.injEq, and_true]
          rw [Bytes.slice_append_of_le _ hle]
        · simp [Bytes.slice]

/-- The names of all lines are kept next to their fields. -/
theorem Listing.entries_foldl (hbounded : listing.Bounded) (lines : List Str) :
    (lines.foldl (Listing.add parseDate) listing).entries =
      listing.entries ++
        lines.filterMap fun line =>
          parseFileStat parseDate (Util.strip line) := by
  induction lines generalizing listing with
  | nil => simp
  | cons line lines ih =>
      obtain ⟨hmore, hentries⟩ := add_spec parseDate hbounded line
      rw [List.foldl_cons, ih hmore, hentries, List.append_assoc,
        List.filterMap_cons]
      cases parseFileStat parseDate (Util.strip line) <;> rfl

theorem handleListdir_lines (hwhole : ∀ line ∈ lines, Util.Whole '\n' line)
    (hfirst : Util.Whole '\n' line) :
    handleListdir parseDate (.ok (Util.terminated '\n' (line :: lines))) =
      .ok (lines.filterMap fun line =>
        parseFileStat parseDate (Util.strip line)) := by
  have hnext := Util.next_field hfirst [] (Util.terminated '\n' lines)
  rw [List.nil_append, List.length_nil, Nat.zero_add] at hnext
  have hyields := Util.yields_fields hwhole (line ++ ['\n'])
  rw [List.append_assoc, List.length_append, List.singleton_append,
    List.length_singleton] at hyields
  have hempty : Listing.Bounded ⟨[], []⟩ :=
    fun _ hpart => absurd hpart List.not_mem_nil
  have hentries := Listing.entries_foldl parseDate hempty lines
  rw [handleListdir, Except.map, Util.terminated_cons]
  dsimp only
  rw [hnext]
  dsimp only
  rw [Util.StringSplitter.whileNext_of_yields hyields, hentries]
  rfl

end Loop

section Printed

variable {dir : Str}

theorem whole_line (file : FileStat) {path : Str} (hpath : '\n' ∉ path) :
    Util.Whole '\n' (file.line path) := by
  obtain ⟨ch, rest, heq, -⟩ := exists_line_eq_cons file path
  refine ⟨by simp [heq], fun hmem => ?_⟩
  rcases List.mem_append.mp hmem with hcolumns | hin
  · obtain ⟨text, htext, hch⟩ := List.mem_flatMap.mp hcolumns
    rw [Vector.toList_map] at htext
    obtain ⟨column, -, rfl⟩ := List.mem_map.mp htext
    rcases List.mem_append.mp hch with hcolumn | hbar
    · exact (column.plain _ hcolumn).2 rfl
    · simp at hbar
  · exact hpath hin

theorem whole_child (hdir : '\n' ∉ dir) (file : DirEntry) :
    Util.Whole '\n' (file.line (childPath dir file.name)) := by
  apply whole_line
  have hname : '\n' ∉ file.name := fun hmem => (file.plain _ hmem).2 rfl
  rw [childPath]
  split_ifs <;> simp [hdir, hname]

/-- What is decoded of a listing. -/
theorem handleListdir_printed (parseDate : Str → Rpc.Timespec)
    (hdir : '\n' ∉ dir) (own : FileStat) (files : List DirEntry) :
    handleListdir parseDate (.ok (printed dir own files)) =
      .ok (files.map fun file =>
        (decodedName dir file.name, file.decoded parseDate)) := by
  rw [printed, handleListdir_lines parseDate _ (whole_line own hdir),
    List.filterMap_map]
  · simp only [Function.comp_def, parseFileStat_strip]
    rw [← List.filterMap_eq_map]
    rfl
  · intro line hline
    obtain ⟨file, -, rfl⟩ := List.mem_map.mp hline
    exact whole_child hdir file

end Printed

/-- A listing is decoded exactly if no name in it ends in a blank. -/
theorem listdir_exact_iff (parseDate : Str → Rpc.Timespec) {dir : Str}
    (hdir : '\n' ∉ dir) (own : FileStat) (files : List DirEntry) :
    handleListdir parseDate (.ok (printed dir own files)) =
        .ok (files.map fun file => (file.name, file.decoded parseDate)) ↔
      ∀ file ∈ files, ∀ ch ∈ file.name.getLast?, ch ≠ ' ' ∧ ch ≠ '\t' := by
  rw [handleListdir_printed parseDate hdir, Except.ok.injEq,
    List.map_inj_left]
  simp only [Prod.mk.injEq, and_true, decodedName_eq_iff]

/-- A time as it is printed. -/
def someDate : Column where
  text := "2025-06-04 12:09:05.450071907 +0700".toList
  ne_nil := by decide
  plain := by simp

/-- A regular file that anybody may read. -/
def someFile : FileStat :=
  ⟨0x81a4, 1, 5, 0, 0, someDate, someDate, someDate⟩

/-- Blanks, tabs and bars inside a name, and blanks in front of it. -/
def oddNames : List DirEntry :=
  [⟨someFile, " a|b".toList, by decide, by simp⟩,
    ⟨someFile, "||\tc".toList, by decide, by simp⟩]

theorem listdir_exact_iff_odd :
    handleListdir (fun _ => default)
        (.ok (printed "/sdcard".toList someFile oddNames)) =
      .ok (oddNames.map fun file =>
        (file.name, file.decoded fun _ => default)) :=
  (listdir_exact_iff (fun _ => default) (by decide) someFile oddNames).mpr
    (by simp [oddNames])

def trailingBlank : DirEntry :=
  ⟨someFile, "a ".toList, by decide, by simp⟩

/-- A blank at the end of a name is lost. -/
theorem trailing_blank_is_lost :
    handleListdir (fun _ => default)
        (.ok (printed "/sdcard".toList someFile [trailingBlank])) =
      .ok [("a".toList, someFile.decoded fun _ => default)] ∧
    trailingBlank.name ≠ "a".toList := by
  refine ⟨?_, by decide⟩
  rw [handleListdir_printed _ (by decide)]
  rfl

end Adb

end Madbfs
