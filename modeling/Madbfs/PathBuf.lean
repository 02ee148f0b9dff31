/-
Paths as the code has them: a string, and the offset and the size of each
component in it.  The string is kept as it was given but for the slashes at its
two ends, so it can have several slashes between two components.  Every path
that the interface can build is the one that its own string is parsed to, and
its components are those of the component-level paths.
-/
import Madbfs.Path
import Madbfs.Rpc.Message
import Madbfs.Splitter

namespace Madbfs

open Bytes Segments Util
open Rpc (Slice)

/-- `Slice::to_str`. -/
def Rpc.Slice.toStr (self : Slice) (str : List Char) : List Char :=
  slice str self.offset self.size

/-- `Slice::keep_slice`. -/
def Rpc.Slice.keepSlice (self : Slice) (str : List Char) : List Char :=
  (str.take (self.offset + self.size)).drop self.offset

theorem Rpc.Slice.keepSlice_eq (self : Slice) (str : List Char) :
    self.keepSlice str = self.toStr str := by
  rw [keepSlice, toStr, slice, List.drop_take, Nat.add_sub_cancel_left]

/-- `path::PathBuf`, and `path::Path`, which has the same two fields but does
not own them.  Default constructed it points to the root. -/
structure PathBuf where
  str : List Char := ['/']
  components : List Slice := []
deriving Repr, DecidableEq

/-- `path::SemiPath`. -/
structure SemiPath where
  components : List Slice := []
  path : PathBuf := {}
deriving Repr, DecidableEq

namespace PathBuf

section Members

variable (self : PathBuf)

def isRoot : Bool :=
  self.components.isEmpty

def filename : List Char :=
  match self.components.getLast? with
  | none => ['/']
  | some back => back.toStr self.str

def iter : List (List Char) :=
  self.components.map fun component => component.toStr self.str

/-- `Path::parent` and `PathBuf::parent`. -/
def parent : List Char :=
  if self.isRoot ∨ self.components.length = 1 then ['/']
  else
    let parent := self.components.getD (self.components.length - 2) default
    self.str.take (parent.offset + parent.size)

/-- `Path::parent_path` and `PathBuf::parent_path`. -/
def parentPath : PathBuf :=
  if self.isRoot then self
  else ⟨self.parent, self.components.take (self.components.length - 1)⟩

/-- `Path::owned`. -/
def owned : PathBuf :=
  ⟨self.str, self.components⟩

/-- The names that `rename` and `extend` do not take. -/
def refuses (name : List Char) : Bool :=
  name.isEmpty || name.contains '/' || name == ['.'] || name == ['.', '.']

/-- `PathBuf::rename`, and the path after it. -/
def rename (name : List Char) : Bool × PathBuf :=
  if refuses name then (false, self)
  else
    match self.components.getLast? with
    | none => (false, self)
    | some back =>
        (true,
          { str := self.str.take back.offset ++ name ++
              self.str.drop (back.offset + back.size)
            components := self.components.dropLast ++
              [{ back with size := name.length }] })

/-- `PathBuf::extend`, and the path after it. -/
def extend (name : List Char) : Bool × PathBuf :=
  if refuses name then (false, self)
  else
    let str := if self.isRoot then self.str else self.str ++ ['/']
    (true,
      { str := str ++ name
        components := self.components ++ [⟨str.length, name.length⟩] })

end Members

/-- The first loop of `split_components`. -/
def stripSuffix (path : List Char) : List Char :=
  if 1 < path.length ∧ path.getLast? = some '/' then stripSuffix path.dropLast
  else path
termination_by path.length
decreasing_by
  rw [List.length_dropLast]
  omega

/-- The second loop, which counts the slashes it removes. -/
def stripPrefix (path : List Char) (offset : Nat) : List Char × Nat :=
  if 2 < path.length ∧ path[0]? = some '/' ∧ path[1]? = some '/' then
    stripPrefix path.tail (offset + 1)
  else (path, offset)
termination_by path.length
decreasing_by
  rw [List.length_tail]
  omega

/-- The loop over the components. -/
def splitLoop (path : List Char) (index : Nat) : List Slice :=
  if index < path.length then
    let current := skipDelims (.char '/') path index
    match _hfind : findDelim (.char '/') path current with
    | none => [⟨current, path.length - current⟩]
    | some next => ⟨current, next - current⟩ :: splitLoop path next
  else []
termination_by path.length - index
decreasing_by
  have hlt := lt_of_findDelim_skipDelims _hfind
  omega

/-- `split_components`: what it returns, and the buffer after it. -/
def splitComponents (compsBuf : List Slice) (path : List Char) :
    Option Slice × List Slice :=
  if path.head? ≠ some '/' then (none, compsBuf)
  else
    let (path, offsetPrefix) := stripPrefix (stripSuffix path) 0
    if path = ['/'] then (some ⟨0, 0⟩, [])
    else (some ⟨offsetPrefix, path.length⟩, splitLoop path 1)

/-- `path::create`. -/
def create (path : List Char) : Option SemiPath :=
  match splitComponents [] path with
  | (none, _) => none
  | (some slice, comps) =>
      if comps.isEmpty then some {}
      else some ⟨comps, ⟨slice.toStr path, comps⟩⟩

/-- `path::create_buf`. -/
def createBuf (pathStr : List Char) : Option PathBuf :=
  match splitComponents [] pathStr with
  | (none, _) => none
  | (some slice, comps) =>
      if comps.isEmpty then some ⟨['/'], comps⟩
      else some ⟨slice.keepSlice pathStr, comps⟩

/-- `path::create_with`, and the buffer after it. -/
def createWith (compsBuf : List Slice) (path : List Char) :
    Option PathBuf × List Slice :=
  match splitComponents compsBuf path with
  | (none, comps) => (none, comps)
  | (some slice, comps) =>
      if comps.isEmpty then (some {}, comps)
      else (some ⟨slice.toStr path, comps⟩, comps)

/-- The components of a string that starts at an offset. -/
def slices (off : Nat) (body : List Char) : List Slice :=
  (spans '/' off body).map fun span => ⟨span.1, span.2⟩

/-- The path of a string without slashes at its ends. -/
def ofBody (body : List Char) : PathBuf :=
  ⟨'/' :: body, slices 1 body⟩

section Loops

theorem stripSuffix_append {path : List Char} (hne : path ≠ []) (m : Nat) :
    stripSuffix (path ++ List.replicate m '/') = stripSuffix path := by
  induction m with
  | zero => simp
  | succ m ih =>
      have hpos := List.length_pos_iff.mpr hne
      have hconcat : path ++ List.replicate (m + 1) '/' =
          (path ++ List.replicate m '/') ++ ['/'] := by
        rw [List.append_assoc, List.replicate_succ']
      have hcond : 1 < ((path ++ List.replicate m '/') ++ ['/']).length ∧
          ((path ++ List.replicate m '/') ++ ['/']).getLast? = some '/' := by
        refine ⟨?_, List.getLast?_concat⟩
        simp only [List.length_append, List.length_singleton]
        omega
      rw [hconcat, stripSuffix, if_pos hcond, List.dropLast_concat, ih]

theorem stripSuffix_of_last {path : List Char}
    (hlast : path.getLast? ≠ some '/') : stripSuffix path = path := by
  rw [stripSuffix, if_neg fun h => hlast h.2]

theorem stripPrefix_replicate {c : Char} (hc : c ≠ '/') (rest : List Char)
    (n offset : Nat) :
    stripPrefix (List.replicate (n + 1) '/' ++ c :: rest) offset =
      ('/' :: c :: rest, offset + n) := by
  induction n generalizing offset with
  | zero =>
      rw [stripPrefix, if_neg]
      · rfl
      · rintro ⟨-, -, hat⟩
        exact hc (Option.some.inj hat)
  | succ n ih =>
      have hcond : 2 < (List.replicate (n + 2) '/' ++ c :: rest).length ∧
          (List.replicate (n + 2) '/' ++ c :: rest)[0]? = some '/' ∧
          (List.replicate (n + 2) '/' ++ c :: rest)[1]? = some '/' := by
        refine ⟨?_, rfl, rfl⟩
        simp only [List.length_append, List.length_replicate, List.length_cons]
        omega
      rw [stripPrefix, if_pos hcond, List.replicate_succ, List.cons_append,
        List.tail_cons, ih, Nat.add_assoc, Nat.add_comm 1]

theorem slices_cons (off : Nat) (rest : List Char) :
    slices off ('/' :: rest) = slices (off + 1) rest := by
  have hspans : spans '/' off ([] ++ '/' :: rest) = _ :=
    spans_append_sep off [] rest
  rw [slices, ← List.nil_append ('/' :: rest), hspans]
  rfl

/-- The loop finds the components of what is left. -/
theorem splitLoop_eq {path : List Char} (hlast : path.getLast? ≠ some '/')
    (index : Nat) : splitLoop path index = slices index (path.drop index) := by
  induction hn : path.length - index using Nat.strong_induction_on
    generalizing index with
  | h n ih =>
      by_cases hlt : index < path.length
      · rcases scan_cases '/' (path.drop index) with
          ⟨k, hdrop⟩ | ⟨k, seg, rest, hseg, hrest, hdrop⟩
        · exfalso
          have hne : path.drop index ≠ [] := by
            rw [ne_eq, List.drop_eq_nil_iff]
            omega
          apply hlast
          rw [← List.take_append_drop index path,
            List.getLast?_append_of_ne_nil _ hne, hdrop]
          cases k with
          | zero => exact absurd hdrop hne
          | succ k => rw [List.replicate_succ', List.getLast?_concat]
        · obtain ⟨hskip, hafter, hnone, hsome⟩ := scan_segment hseg hdrop
          have hlength := congrArg List.length hafter
          rw [List.length_drop, List.length_append] at hlength
          have hpos := List.length_pos_iff.mpr hseg.ne_nil
          rw [splitLoop, if_pos hlt, hdrop, slices, spans_replicate_append]
          dsimp only
          rw [hskip]
          rcases hrest with rfl | ⟨more, rfl⟩
          · rw [List.append_nil, spans_of_isSegment _ hseg]
            split
            · rw [hlength]
              simp
            · rename_i next hfind
              rw [hnone rfl] at hfind
              cases hfind
          · rw [spans_append_sep, spans_of_isSegment _ hseg]
            split
            · rename_i hfind
              rw [hsome more rfl] at hfind
              cases hfind
            · rename_i next hfind
              rw [hsome more rfl, Option.some.injEq] at hfind
              subst hfind
              have hmore : path.drop (index + k + seg.length) = '/' :: more := by
                rw [← List.drop_drop, hafter, List.drop_left]
              rw [ih _ (by omega) _ rfl, hmore, slices_cons]
              simp [slices]
      · rw [splitLoop, if_neg hlt, List.drop_eq_nil_of_le (by omega)]
        rfl

end Loops

section Parse

/-- A string that starts with a slash: only slashes, or slashes around what is
kept of it. -/
theorem trim_cases {s : List Char} (hhead : s.head? = some '/') :
    (trim '/' s = [] ∧ ∃ m, s = '/' :: List.replicate m '/') ∨
    ∃ n m c rest, trim '/' s = c :: rest ∧ c ≠ '/' ∧
      s = List.replicate (n + 1) '/' ++ c :: rest ++ List.replicate m '/' := by
  obtain ⟨n, m, hs⟩ := exists_trim '/' s
  have htrimmed := trimmed_trim '/' s
  cases htrim : trim '/' s with
  | nil =>
      left
      refine ⟨rfl, ?_⟩
      rw [htrim, List.nil_append, List.replicate_append_replicate] at hs
      cases hk : n + m with
      | zero =>
          rw [hs, hk] at hhead
          cases hhead
      | succ k => exact ⟨k, by rw [hs, hk, List.replicate_succ]⟩
  | cons c rest =>
      right
      rw [htrim] at hs htrimmed
      have hc : c ≠ '/' := by
        rintro rfl
        exact htrimmed.head rfl
      cases n with
      | zero =>
          rw [hs] at hhead
          exact absurd (Option.some.inj hhead) hc
      | succ n =>
          refine ⟨n, m, c, rest, rfl, hc, ?_⟩
          rw [List.append_assoc]
          exact hs

/-- What `split_components` finds in a string that starts with a slash. -/
theorem splitComponents_eq (compsBuf : List Slice) {s : List Char}
    (hhead : s.head? = some '/') :
    ∃ slice, splitComponents compsBuf s = (some slice, slices 1 (trim '/' s)) ∧
      (trim '/' s ≠ [] → slice.toStr s = '/' :: trim '/' s) := by
  have hlast := (trimmed_trim '/' s).last
  rw [splitComponents, if_neg (not_not_intro hhead)]
  rcases trim_cases hhead with ⟨htrim, m, hs⟩ | ⟨n, m, c, rest, htrim, hc, hs⟩
  · have hstrip : stripSuffix s = ['/'] := by
      rw [hs, ← List.singleton_append, stripSuffix_append (by simp), stripSuffix,
        if_neg (by simp)]
    have hprefix : stripPrefix ['/'] 0 = (['/'], 0) := by
      rw [stripPrefix, if_neg (by simp)]
    rw [hstrip, hprefix, htrim]
    exact ⟨⟨0, 0⟩, rfl, fun h => absurd rfl h⟩
  · rw [htrim] at hlast
    have hne : List.replicate (n + 1) '/' ++ c :: rest ≠ [] := by
      simp
    have hlast' : (List.replicate (n + 1) '/' ++ c :: rest).getLast? ≠
        some '/' := by
      rw [List.getLast?_append_of_ne_nil _ (List.cons_ne_nil c rest)]
      exact hlast
    have hlast'' : ('/' :: c :: rest).getLast? ≠ some '/' := by
      rw [List.getLast?_cons_cons]
      exact hlast
    have hstrip : stripSuffix s = List.replicate (n + 1) '/' ++ c :: rest := by
      rw [hs, stripSuffix_append hne, stripSuffix_of_last hlast']
    have hprefix : List.replicate (n + 1) '/' ++ c :: rest =
        List.replicate n '/' ++ '/' :: c :: rest := by
      rw [List.replicate_succ', List.append_assoc]
      rfl
    rw [hstrip, stripPrefix_replicate hc, htrim]
    dsimp only
    rw [if_neg (by simp), splitLoop_eq hlast'']
    refine ⟨_, rfl, fun _ => ?_⟩
    rw [hs, hprefix, Slice.toStr, slice]
    simp

theorem ofBody_nil : ofBody [] = {} :=
  rfl

theorem slices_eq_nil {off : Nat} {body : List Char}
    (htrimmed : Trimmed '/' body) : slices off body = [] ↔ body = [] := by
  rw [slices, List.map_eq_nil_iff]
  constructor
  · intro hnil
    by_contra hne
    obtain ⟨span, hspan, -⟩ := getLast?_spans off hne htrimmed.last
    rw [hnil] at hspan
    cases hspan
  · rintro rfl
    rfl

/-- The root, or a path with components, as the three functions below tell
them apart. -/
theorem splitComponents_cases (compsBuf : List Slice) {s : List Char}
    (hhead : s.head? = some '/') :
    ∃ slice, (splitComponents compsBuf s = (some slice, []) ∧
        ofBody (trim '/' s) = {}) ∨
      (splitComponents compsBuf s =
          (some slice, (ofBody (trim '/' s)).components) ∧
        (ofBody (trim '/' s)).components.isEmpty = false ∧
        slice.toStr s = (ofBody (trim '/' s)).str) := by
  obtain ⟨slice, hsplit, hkept⟩ := splitComponents_eq compsBuf hhead
  refine ⟨slice, ?_⟩
  by_cases hempty : trim '/' s = []
  · left
    rw [hsplit, hempty]
    exact ⟨rfl, ofBody_nil⟩
  · right
    have hsome : slices 1 (trim '/' s) ≠ [] :=
      fun h => hempty ((slices_eq_nil (trimmed_trim '/' s)).mp h)
    exact ⟨hsplit, by simpa [ofBody] using hsome, hkept hempty⟩

/-- `create` on any string. -/
theorem create_eq (s : List Char) :
    create s =
      if s.head? = some '/' then
        some ⟨(ofBody (trim '/' s)).components, ofBody (trim '/' s)⟩
      else none := by
  split_ifs with hhead
  · obtain ⟨slice, ⟨hsplit, hroot⟩ | ⟨hsplit, hsome, hstr⟩⟩ :=
      splitComponents_cases [] hhead
    · rw [create, hsplit, hroot]
      rfl
    · rw [create, hsplit]
      dsimp only
      rw [hsome, hstr]
      rfl
  · rw [create, splitComponents, if_pos hhead]

/-- `create_buf` on any string. -/
theorem createBuf_eq (s : List Char) :
    createBuf s =
      if s.head? = some '/' then some (ofBody (trim '/' s)) else none := by
  split_ifs with hhead
  · obtain ⟨slice, ⟨hsplit, hroot⟩ | ⟨hsplit, hsome, hstr⟩⟩ :=
      splitComponents_cases [] hhead
    · rw [createBuf, hsplit, hroot]
      rfl
    · rw [createBuf, hsplit]
      dsimp only
      rw [hsome, slice.keepSlice_eq, hstr]
      rfl
  · rw [createBuf, splitComponents, if_pos hhead]

/-- `create_with` on any string. -/
theorem createWith_eq (compsBuf : List Slice) (s : List Char) :
    createWith compsBuf s =
      if s.head? = some '/' then
        (some (ofBody (trim '/' s)), (ofBody (trim '/' s)).components)
      else (none, compsBuf) := by
  split_ifs with hhead
  · obtain ⟨slice, ⟨hsplit, hroot⟩ | ⟨hsplit, hsome, hstr⟩⟩ :=
      splitComponents_cases compsBuf hhead
    · rw [createWith, hsplit, hroot]
      rfl
    · rw [createWith, hsplit]
      dsimp only
      rw [hsome, hstr]
      rfl
  · rw [createWith, splitComponents, if_pos hhead]

theorem iter_ofBody (body : List Char) :
    (ofBody body).iter = segments '/' body := by
  have hview := slice_spans '/' ['/'] body []
  rw [List.append_nil] at hview
  rw [iter, ofBody, slices, List.map_map, ← hview]
  rfl

/-- The three entry points give one path: the string without the slashes at
its ends but for the first, the runs between the slashes as its components, and
every slice within the string. -/
theorem parse_exact (s : List Char) (buf : List Slice) :
    (s.head? = some '/' →
      ∃ path : PathBuf,
        create s = some ⟨path.components, path⟩ ∧
        createBuf s = some path ∧
        createWith buf s = (some path, path.components) ∧
        path.str = '/' :: (s.dropWhile (· == '/')).rdropWhile (· == '/') ∧
        path.iter = (s.splitOn '/').filter (fun run => !run.isEmpty) ∧
        ∀ slice ∈ path.components, slice.offset + slice.size ≤ path.str.length) ∧
    (s.head? ≠ some '/' →
      create s = none ∧ createBuf s = none ∧
      createWith buf s = (none, buf)) := by
  rw [create_eq, createBuf_eq, createWith_eq]
  constructor
  · intro hhead
    rw [if_pos hhead, if_pos hhead, if_pos hhead]
    refine ⟨ofBody (trim '/' s), rfl, rfl, rfl, rfl, ?_, ?_⟩
    · rw [iter_ofBody, segments_trim]
      rfl
    · intro slice hslice
      obtain ⟨span, hspan, rfl⟩ := List.mem_map.mp hslice
      obtain ⟨-, -, hend⟩ := spans_within hspan
      simp only [ofBody, List.length_cons]
      omega
  · intro hhead
    rw [if_neg hhead, if_neg hhead, if_neg hhead]
    exact ⟨rfl, rfl, rfl⟩

theorem parse_exact_slashes :
    ∃ path : PathBuf, createBuf "//a//b/".toList = some path ∧
      path.str = "/a//b".toList ∧ path.iter = [['a'], ['b']] := by
  obtain ⟨path, -, hbuf, -, hstr, hiter, -⟩ :=
    (parse_exact "//a//b/".toList []).1 rfl
  exact ⟨path, hbuf, hstr, hiter⟩

end Parse

section Edits

/-- The names that `rename` and `extend` take can be components. -/
theorem isSegment_of_not_refuses {name : List Char}
    (hname : refuses name = false) : IsSegment '/' name := by
  simp only [refuses, Bool.or_eq_false_iff] at hname
  obtain ⟨⟨⟨hempty, hslash⟩, -⟩, -⟩ := hname
  exact ⟨by simpa using hempty, by simpa using hslash⟩

theorem isRoot_ofBody {body : List Char} (htrimmed : Trimmed '/' body) :
    (ofBody body).isRoot = true ↔ body = [] := by
  rw [isRoot, List.isEmpty_iff]
  exact slices_eq_nil htrimmed

theorem trimmed_append {front seg : List Char} (hseg : IsSegment '/' seg)
    (hhead : front.head? ≠ some '/') : Trimmed '/' (front ++ seg) := by
  refine ⟨?_, ?_⟩
  · cases front with
    | nil => exact hseg.trimmed.head
    | cons c front => exact hhead
  · rw [List.getLast?_append_of_ne_nil front hseg.ne_nil]
    exact hseg.trimmed.last

section Last

variable {front seg : List Char} (hfront : Opens '/' front)
  (hseg : IsSegment '/' seg)

include hfront hseg

theorem components_append :
    (ofBody (front ++ seg)).components =
      slices 1 front ++ [⟨1 + front.length, seg.length⟩] := by
  rw [ofBody, slices, spans_append_segment 1 hfront hseg, List.map_append]
  rfl

theorem filename_append : (ofBody (front ++ seg)).filename = seg := by
  rw [filename, components_append hfront hseg, List.getLast?_concat]
  simp [Slice.toStr, slice, ofBody, Nat.add_comm 1]

theorem rename_append {name : List Char} (hname : refuses name = false) :
    (ofBody (front ++ seg)).rename name = (true, ofBody (front ++ name)) := by
  have hcomponents := components_append hfront (isSegment_of_not_refuses hname)
  have hpath : ofBody (front ++ name) =
      ⟨'/' :: (front ++ name), (ofBody (front ++ name)).components⟩ :=
    rfl
  rw [rename, hname, components_append hfront hseg, List.getLast?_concat,
    List.dropLast_concat, hpath, hcomponents]
  simp [ofBody, Nat.add_comm 1, Nat.add_right_comm _ 1]

/-- The parent ends where the component before the last one does. -/
theorem parentPath_append :
    (ofBody (front ++ seg)).parentPath =
      ofBody (front.rdropWhile (· == '/')) := by
  obtain ⟨m, hback⟩ := exists_rdropWhile '/' front
  have hlast := getLast?_rdropWhile_ne '/' front
  have hslices : slices 1 front =
      slices 1 (front.rdropWhile (· == '/')) := by
    conv_lhs => rw [slices, hback, spans_append_replicate]
    rfl
  have hcomponents := components_append hfront hseg
  rw [hslices] at hcomponents
  have hstr : (ofBody (front ++ seg)).str = '/' ::
      (front.rdropWhile (· == '/') ++ (List.replicate m '/' ++ seg)) := by
    rw [← List.append_assoc, ← hback]
    rfl
  have hnot : (ofBody (front ++ seg)).isRoot = false := by
    rw [isRoot, hcomponents]
    simp
  rw [parentPath, hnot, parent, hnot, hcomponents, hstr]
  by_cases hempty : front.rdropWhile (· == '/') = []
  · rw [hempty]
    rfl
  · obtain ⟨span, hspan, hend⟩ := getLast?_spans 1 hempty hlast
    obtain ⟨before, hbefore⟩ : ∃ before,
        slices 1 (front.rdropWhile (· == '/')) =
          before ++ [⟨span.1, span.2⟩] := by
      obtain ⟨before, hbefore⟩ := List.getLast?_eq_some_iff.mp hspan
      refine ⟨before.map fun span => ⟨span.1, span.2⟩, ?_⟩
      rw [slices, hbefore, List.map_append]
      rfl
    have hend' : span.1 + span.2 =
        (front.rdropWhile (· == '/')).length + 1 := by
      omega
    have hkept : ofBody (front.rdropWhile (· == '/')) =
        ⟨'/' :: front.rdropWhile (· == '/'),
          before ++ [⟨span.1, span.2⟩]⟩ := by
      rw [ofBody, hbefore]
    rw [hkept, hbefore, ← List.dropLast_eq_take, List.dropLast_concat]
    simp [hend']

end Last

/-- What a component is appended to. -/
def opened (body : List Char) : List Char :=
  if body = [] then [] else body ++ ['/']

theorem opens_opened (body : List Char) : Opens '/' (opened body) := by
  rw [opened]
  split_ifs
  · exact .inl rfl
  · exact .inr ⟨body, rfl⟩

theorem head?_opened {body : List Char} (htrimmed : Trimmed '/' body) :
    (opened body).head? ≠ some '/' := by
  rw [opened]
  cases body with
  | nil => simp
  | cons c body => exact htrimmed.head

theorem rdropWhile_opened {body : List Char} (htrimmed : Trimmed '/' body) :
    (opened body).rdropWhile (· == '/') = body := by
  rw [opened]
  split_ifs with hempty
  · rw [hempty]
    rfl
  · exact rdropWhile_pad htrimmed.last 1

theorem extend_ofBody {body name : List Char} (htrimmed : Trimmed '/' body)
    (hname : refuses name = false) :
    (ofBody body).extend name = (true, ofBody (opened body ++ name)) := by
  have hcomponents := components_append (opens_opened body)
    (isSegment_of_not_refuses hname)
  have hpath : ofBody (opened body ++ name) =
      ⟨'/' :: (opened body ++ name), (ofBody (opened body ++ name)).components⟩ :=
    rfl
  have hslices : slices 1 (opened body) = slices 1 body := by
    rw [opened]
    split_ifs with hempty
    · rw [hempty]
    · rw [slices, slices]
      exact congrArg _ (spans_append_replicate '/' 1 1 body)
  rw [extend, hname, hpath, hcomponents, hslices, opened]
  by_cases hempty : body = []
  · subst hempty
    rfl
  · have hnot : (ofBody body).isRoot = false := by
      rw [Bool.eq_false_iff]
      exact fun h => hempty ((isRoot_ofBody htrimmed).mp h)
    rw [hnot, if_neg hempty]
    simp [ofBody, Nat.add_comm 1]

/-- The paths that the interface can build. -/
inductive Built : PathBuf → Prop where
  | createBuf {s : List Char} {path : PathBuf} :
      createBuf s = some path → Built path
  | extend {path : PathBuf} (name : List Char) :
      Built path → Built (path.extend name).2
  | rename {path : PathBuf} (name : List Char) :
      Built path → Built (path.rename name).2
  | parentPath {path : PathBuf} : Built path → Built path.parentPath.owned

theorem trimmed_rdropWhile {front : List Char}
    (hhead : front.head? ≠ some '/') :
    Trimmed '/' (front.rdropWhile (· == '/')) := by
  refine ⟨fun hsome => hhead ?_, getLast?_rdropWhile_ne '/' front⟩
  obtain ⟨m, hback⟩ := exists_rdropWhile '/' front
  rw [hback, List.head?_append, hsome]
  rfl

/-- The root, or a path with a last component. -/
theorem body_cases {body : List Char} (htrimmed : Trimmed '/' body) :
    body = [] ∨ ∃ front seg, body = front ++ seg ∧ Opens '/' front ∧
      IsSegment '/' seg ∧ front.head? ≠ some '/' := by
  by_cases hempty : body = []
  · exact .inl hempty
  · obtain ⟨front, seg, rfl, hseg, hfront⟩ :=
      exists_last_segment hempty htrimmed.last
    refine .inr ⟨front, seg, rfl, hfront, hseg, fun hhead => ?_⟩
    apply htrimmed.head
    rw [List.head?_append, hhead]
    rfl

/-- Every edit leaves a path that is spelled without slashes at its end. -/
theorem Built.exists_body {path : PathBuf} (hbuilt : Built path) :
    ∃ body, Trimmed '/' body ∧ path = ofBody body := by
  induction hbuilt with
  | @createBuf s path hcreate =>
      rw [createBuf_eq] at hcreate
      split_ifs at hcreate
      cases hcreate
      exact ⟨_, trimmed_trim '/' s, rfl⟩
  | @extend path name hbuilt ih =>
      obtain ⟨body, htrimmed, rfl⟩ := ih
      cases hname : refuses name with
      | true =>
          rw [PathBuf.extend, hname]
          exact ⟨body, htrimmed, rfl⟩
      | false =>
          rw [extend_ofBody htrimmed hname]
          exact ⟨_, trimmed_append (isSegment_of_not_refuses hname)
            (head?_opened htrimmed), rfl⟩
  | @rename path name hbuilt ih =>
      obtain ⟨body, htrimmed, rfl⟩ := ih
      cases hname : refuses name with
      | true =>
          rw [PathBuf.rename, hname]
          exact ⟨body, htrimmed, rfl⟩
      | false =>
          rcases body_cases htrimmed with
            rfl | ⟨front, seg, rfl, hfront, hseg, hhead⟩
          · rw [PathBuf.rename, hname]
            exact ⟨[], htrimmed, rfl⟩
          · rw [rename_append hfront hseg hname]
            exact ⟨_, trimmed_append (isSegment_of_not_refuses hname) hhead,
              rfl⟩
  | @parentPath path hbuilt ih =>
      obtain ⟨body, htrimmed, rfl⟩ := ih
      rcases body_cases htrimmed with
        rfl | ⟨front, seg, rfl, hfront, hseg, hhead⟩
      · exact ⟨[], htrimmed, rfl⟩
      · rw [owned, parentPath_append hfront hseg]
        exact ⟨_, trimmed_rdropWhile hhead, rfl⟩

/-- A path spelled so is the one its string is parsed to. -/
theorem createBuf_ofBody {body : List Char} (htrimmed : Trimmed '/' body) :
    createBuf (ofBody body).str = some (ofBody body) := by
  have htrim : trim '/' ('/' :: body) = body := by
    have hpad := trim_pad htrimmed 1 0
    rw [List.replicate_zero, List.append_nil] at hpad
    exact hpad
  have hstr : (ofBody body).str = '/' :: body := rfl
  rw [hstr, createBuf_eq, if_pos List.head?_cons, htrim]

theorem extend_false {path : PathBuf} {name : List Char}
    (hfalse : (path.extend name).1 = false) : (path.extend name).2 = path := by
  rw [extend] at hfalse ⊢
  split_ifs at hfalse ⊢
  rfl

theorem rename_false {path : PathBuf} {name : List Char}
    (hfalse : (path.rename name).1 = false) : (path.rename name).2 = path := by
  rw [rename] at hfalse ⊢
  split_ifs at hfalse ⊢
  · rfl
  · cases hlast : path.components.getLast? with
    | none => rfl
    | some back =>
        rw [hlast] at hfalse
        cases hfalse

/-- Only a name that is not refused extends a path, and it is appended. -/
theorem extend_true {body name : List Char} (htrimmed : Trimmed '/' body)
    (htrue : ((ofBody body).extend name).1 = true) :
    ((ofBody body).extend name).2.filename = name ∧
    ((ofBody body).extend name).2.parentPath = ofBody body := by
  cases hname : refuses name with
  | true =>
      rw [extend, hname] at htrue
      cases htrue
  | false =>
      have hopens := opens_opened body
      have hseg := isSegment_of_not_refuses hname
      rw [extend_ofBody htrimmed hname]
      refine ⟨filename_append hopens hseg, ?_⟩
      rw [parentPath_append hopens hseg, rdropWhile_opened htrimmed]

/-- A renamed path has the parent it had. -/
theorem rename_true {body name : List Char} (htrimmed : Trimmed '/' body)
    (htrue : ((ofBody body).rename name).1 = true) :
    ((ofBody body).rename name).2.filename = name ∧
    ((ofBody body).rename name).2.parentPath = (ofBody body).parentPath := by
  cases hname : refuses name with
  | true =>
      rw [rename, hname] at htrue
      cases htrue
  | false =>
      rcases body_cases htrimmed with
        rfl | ⟨front, seg, rfl, hfront, hseg, hhead⟩
      · rw [rename, hname] at htrue
        cases htrue
      · have hnew := isSegment_of_not_refuses hname
        rw [rename_append hfront hseg hname]
        refine ⟨filename_append hfront hnew, ?_⟩
        rw [parentPath_append hfront hnew, parentPath_append hfront hseg]

theorem iter_parentPath {body : List Char} (htrimmed : Trimmed '/' body) :
    (ofBody body).parentPath.iter = (ofBody body).iter.dropLast := by
  rcases body_cases htrimmed with rfl | ⟨front, seg, rfl, hfront, hseg, hhead⟩
  · rfl
  · obtain ⟨m, hback⟩ := exists_rdropWhile '/' front
    have hkept : segments '/' front =
        segments '/' (front.rdropWhile (· == '/')) := by
      conv_lhs => rw [hback, segments_append_replicate]
    rw [parentPath_append hfront hseg, iter_ofBody, iter_ofBody,
      segments_append_segment hfront hseg, List.dropLast_concat, hkept]

/-- Whatever the edits, a path is the one its string is parsed to, and an edit
that succeeds changes the last component only. -/
theorem edits_keep_representation {path : PathBuf} (hbuilt : Built path)
    (name : List Char) :
    createBuf path.str = some path ∧
    ((path.extend name).1 = true →
      (path.extend name).2.filename = name ∧
      (path.extend name).2.parentPath = path) ∧
    ((path.rename name).1 = true →
      (path.rename name).2.filename = name ∧
      (path.rename name).2.parentPath = path.parentPath) ∧
    ((path.extend name).1 = false → (path.extend name).2 = path) ∧
    ((path.rename name).1 = false → (path.rename name).2 = path) ∧
    path.parentPath.iter = path.iter.dropLast := by
  obtain ⟨body, htrimmed, rfl⟩ := hbuilt.exists_body
  exact ⟨createBuf_ofBody htrimmed, extend_true htrimmed, rename_true htrimmed,
    extend_false, rename_false, iter_parentPath htrimmed⟩

/-- A path with two slashes in the middle. -/
theorem edits_keep_representation_double :
    Built ⟨"/a//b".toList, [⟨1, 1⟩, ⟨4, 1⟩]⟩ ∧
    (rename ⟨"/a//b".toList, [⟨1, 1⟩, ⟨4, 1⟩]⟩ ['c']).2.parentPath =
      ⟨"/a".toList, [⟨1, 1⟩]⟩ := by
  have hbuilt : Built ⟨"/a//b".toList, [⟨1, 1⟩, ⟨4, 1⟩]⟩ := by
    apply Built.createBuf (s := "/a//b".toList)
    rw [createBuf_eq]
    rfl
  obtain ⟨-, -, hrename, -⟩ := edits_keep_representation hbuilt ['c']
  exact ⟨hbuilt, (hrename rfl).2⟩

end Edits

section Names

/-- A path as the file tree has it. -/
def names (self : PathBuf) : Path :=
  self.iter.map String.ofList

/-- The file tree parses paths into the same components. -/
theorem names_createBuf (s : List Char) :
    (createBuf s).map names = Path.createBuf s := by
  rw [createBuf_eq, Path.createBuf]
  split_ifs
  · rw [Option.map_some, names, iter_ofBody, segments_trim]
    rfl
  · rfl

variable {path : PathBuf}

theorem names_extend (hbuilt : Built path) (name : Name) :
    (path.extend name.toList).2.names = Path.extend path.names name := by
  have hvalid : refuses name.toList = false ↔ ValidName name := by
    have hslash : name.toList.contains '/' = false ↔ '/' ∉ name.toList := by
      rw [Bool.eq_false_iff, ne_eq, List.contains_iff_mem]
    have hempty : name.toList.isEmpty = false ↔ name ≠ "" := by
      rw [Bool.eq_false_iff, ne_eq, List.isEmpty_iff,
        String.toList_eq_nil_iff]
    have heq : ∀ other : String,
        (name.toList == other.toList) = false ↔ name ≠ other := by
      intro other
      rw [beq_eq_false_iff_ne, ne_eq, String.toList_inj]
    simp only [refuses, Bool.or_eq_false_iff, hempty, hslash, ValidName,
      and_assoc]
    rw [← heq ".", ← heq ".."]
    rfl
  obtain ⟨body, htrimmed, rfl⟩ := hbuilt.exists_body
  rw [Path.extend]
  split_ifs with hname
  · have hseg := isSegment_of_not_refuses (hvalid.mpr hname)
    have hopened : segments '/' (opened body) = segments '/' body := by
      rw [opened]
      split_ifs with hempty
      · rw [hempty]
      · exact segments_append_replicate '/' 1 body
    rw [extend_ofBody htrimmed (hvalid.mpr hname), names, names, iter_ofBody,
      iter_ofBody, segments_append_segment (opens_opened body) hseg, hopened]
    simp
  · have hrefused : refuses name.toList = true := by
      rw [← Bool.not_eq_false]
      exact fun h => hname (hvalid.mp h)
    rw [extend, hrefused]
    rfl

theorem names_filename (hbuilt : Built path) :
    String.ofList path.filename = Path.filename path.names := by
  obtain ⟨body, htrimmed, rfl⟩ := hbuilt.exists_body
  rcases body_cases htrimmed with rfl | ⟨front, seg, rfl, hfront, hseg, -⟩
  · rfl
  · rw [filename_append hfront hseg, names, iter_ofBody,
      segments_append_segment hfront hseg, Path.filename]
    simp

theorem names_parentPath (hbuilt : Built path) :
    path.parentPath.names = Path.parentPath path.names := by
  obtain ⟨body, htrimmed, rfl⟩ := hbuilt.exists_body
  rw [names, iter_parentPath htrimmed, List.map_dropLast]
  rfl

end Names

end PathBuf

end Madbfs
