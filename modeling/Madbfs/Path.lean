/-
Paths.  The filesystem is called with paths that were split into components;
the path of a node is built back as a string, from its name and those of its
parents, and split again.
-/
import Madbfs.Common
import Madbfs.Segments

namespace Madbfs

/-- The file names `PathBuf::extend` accepts. -/
@[reducible] def ValidName (name : Name) : Prop :=
  name ≠ "" ∧ '/' ∉ name.toList ∧ name ≠ "." ∧ name ≠ ".."

namespace Path

/-- `Path::filename`. -/
def filename (path : Path) : Name :=
  path.getLast?.getD "/"

/-- `Path::parent_path`. -/
def parentPath (path : Path) : Path :=
  path.dropLast

theorem parentPath_filename {path : Path} (hne : path ≠ []) :
    parentPath path ++ [filename path] = path := by
  unfold parentPath filename
  rw [List.getLast?_eq_some_getLast hne]
  exact List.dropLast_append_getLast hne

/-- `PathBuf::extend`; the path stays as it is if the name is refused. -/
def extend (path : Path) (name : Name) : Path :=
  if ValidName name then path ++ [name] else path

/-- The loop of `split_components`: the runs of characters between slashes,
of which there may be several in a row. -/
def components (chars : List Char) : Path :=
  ((chars.splitOn '/').filter fun run => !run.isEmpty).map String.ofList

/-- `path::create_buf`. -/
def createBuf (chars : List Char) : Option Path :=
  if chars.head? = some '/' then some (components chars) else none

/-- The loop of `Node::build_path`: the names of a node and its parents, all
reversed. -/
def assemble (name : Name) (parents : List Name) : List Char :=
  parents.foldl (fun path parent => path ++ '/' :: parent.toList.reverse)
    name.toList.reverse

/-- The end of `Node::build_path`.  The name of the root is a slash of its
own. -/
def finishPath (path : List Char) : Option Path :=
  let stripped :=
    if 2 < path.length ∧ path[path.length - 1]? = some '/' ∧
        path[path.length - 2]? = some '/' then path.dropLast else path
  createBuf stripped.reverse

theorem assemble_reverse (name : Name) (parents : List Name) :
    (assemble name parents).reverse =
      (parents.reverse.flatMap fun parent => parent.toList ++ ['/']) ++
        name.toList := by
  unfold assemble
  induction parents using List.reverseRecOn with
  | nil => simp
  | append_singleton parents parent ih =>
      rw [List.foldl_concat, List.reverse_append, List.reverse_cons,
        List.reverse_reverse, ih]
      simp

theorem ValidName.isSegment {name : Name} (hname : ValidName name) :
    Segments.IsSegment '/' name.toList :=
  ⟨fun h => hname.1 (String.toList_eq_nil_iff.mp h), hname.2.1⟩

/-- Names with a slash before each are split into the names. -/
theorem components_flatMap {names : List Name}
    (hnames : ∀ n ∈ names, ValidName n) :
    components (names.flatMap fun n => '/' :: n.toList) = names := by
  have hsegs : ∀ seg ∈ names.map String.toList, Segments.IsSegment '/' seg := by
    intro seg hseg
    obtain ⟨n, hn, rfl⟩ := List.mem_map.mp hseg
    exact ValidName.isSegment (hnames n hn)
  have hjoined : (names.flatMap fun n => '/' :: n.toList) =
      Segments.joined '/' (names.map String.toList) := by
    rw [Segments.joined, List.flatMap_map]
  have hread := Segments.segments_joined hsegs
  rw [← hjoined] at hread
  rw [components, ← Segments.segments, hread, List.map_map]
  simp

theorem createBuf_flatMap {names : List Name} (hne : names ≠ [])
    (hnames : ∀ n ∈ names, ValidName n) :
    createBuf (names.flatMap fun n => '/' :: n.toList) = some names := by
  cases names with
  | nil => exact absurd rfl hne
  | cons n rest =>
      unfold createBuf
      rw [components_flatMap hnames]
      rfl

theorem assemble_root_reverse (above : List Name) (name : Name) :
    (assemble name (above.reverse ++ ["/"])).reverse =
      '/' :: (above ++ [name]).flatMap fun n => '/' :: n.toList := by
  have hshift : (above.flatMap fun n => n.toList ++ ['/']) ++ name.toList =
      ((above ++ [name]).flatMap fun n => '/' :: n.toList).tail := by
    induction above with
    | nil => simp
    | cons n above ih =>
        rw [List.flatMap_cons, List.append_assoc, ih]
        cases above <;> simp
  rw [assemble_reverse, List.reverse_append, List.reverse_reverse,
    List.reverse_singleton, List.flatMap_append, List.append_assoc, hshift]
  cases above <;> simp

/-- Of two slashes at its end, the reversed path loses one. -/
theorem finishPath_reverse (c : Char) (rest : List Char) :
    finishPath ('/' :: '/' :: c :: rest).reverse =
      createBuf ('/' :: c :: rest) := by
  have hlast : ('/' :: '/' :: c :: rest).reverse =
      (rest.reverse ++ [c, '/']) ++ ['/'] := by
    simp
  have hcond : 2 < ((rest.reverse ++ [c, '/']) ++ ['/']).length ∧
      ((rest.reverse ++ [c, '/']) ++ ['/'])[
        ((rest.reverse ++ [c, '/']) ++ ['/']).length - 1]? = some '/' ∧
      ((rest.reverse ++ [c, '/']) ++ ['/'])[
        ((rest.reverse ++ [c, '/']) ++ ['/']).length - 2]? = some '/' := by
    simp
  unfold finishPath
  rw [hlast, if_pos hcond, List.dropLast_concat]
  simp

/-- The string of a node below the root is split into the names on the way to
it. -/
theorem finishPath_assemble {above : List Name} {name : Name}
    (hnames : ∀ n ∈ above ++ [name], ValidName n) :
    finishPath (assemble name (above.reverse ++ ["/"])) =
      some (above ++ [name]) := by
  have hrev := assemble_root_reverse above name
  have hsplit := createBuf_flatMap (by simp) hnames
  obtain ⟨first, rest, hfirst⟩ : ∃ first rest, above ++ [name] =
      first :: rest := by
    cases above <;> exact ⟨_, _, rfl⟩
  obtain ⟨c, more, hchars⟩ := List.exists_cons_of_ne_nil fun h =>
    (hnames first (hfirst ▸ List.mem_cons_self)).1
      (String.toList_eq_nil_iff.mp h)
  rw [hfirst, List.flatMap_cons, hchars] at hrev hsplit
  rw [List.cons_append, List.cons_append] at hrev hsplit
  rw [← List.reverse_reverse (assemble name _), hrev, finishPath_reverse,
    hsplit, hfirst]

theorem finishPath_root : finishPath (assemble "/" []) = some [] := by
  decide

end Path

end Madbfs
