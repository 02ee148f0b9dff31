/-
A node in three views: its label, the children it lists, and the rest of it.
Most changes touch one of the views only.
-/
import Madbfs.Tree.Caching

namespace Madbfs

namespace FileTree

variable {s s' : FileTree} {n m dir : Id} {name : Name} {node : Node}

/-- What a node has besides its place and its children. -/
def core (s : FileTree) (n : Id) : Option (Stat × Option Nat × File) :=
  (s.nodes n).map fun node =>
    (node.stat, node.expiration, node.file.setChildren [])

theorem setChildren_children (file : File) :
    (file.setChildren []).setChildren file.children = file := by
  cases file <;> rfl

theorem setChildren_idem (file : File) (list list' : List (Name × Id)) :
    (file.setChildren list).setChildren list' = file.setChildren list' := by
  cases file <;> rfl

theorem core_eq (hnode : s.nodes n = some node) : s.core n =
    some (node.stat, node.expiration, node.file.setChildren []) := by
  rw [core, hnode]
  rfl

/-- A node that kept its children and its core has at most another place. -/
theorem node_of_views {parent : Option Id} (hnode : s.nodes n = some node)
    (hlabel : s'.label n = some (name, parent)) (hcore : s'.core n = s.core n)
    (hchildren : s'.children n = s.children n) :
    s'.nodes n = some { node with name := name, parent := parent } := by
  obtain ⟨node', hnode', rfl, rfl⟩ := label_eq_some.mp hlabel
  rw [core_eq hnode', core_eq hnode] at hcore
  simp only [Option.some.injEq, Prod.mk.injEq] at hcore
  obtain ⟨hstat, hexpiration, hfile⟩ := hcore
  rw [children_of_nodes hnode', children_of_nodes hnode] at hchildren
  have hfile' : node'.file = node.file := by
    rw [← setChildren_children node'.file, hfile, hchildren,
      setChildren_children]
  rw [hnode', ← hstat, ← hexpiration, ← hfile']

/-- A node that kept all three views is as it was. -/
theorem nodes_eq_of_views (hlabel : s'.label n = s.label n)
    (hcore : s'.core n = s.core n)
    (hchildren : s'.children n = s.children n) : s'.nodes n = s.nodes n := by
  cases hnode : s.nodes n with
  | none =>
      rw [label, label, hnode] at hlabel
      exact Option.map_eq_none_iff.mp hlabel
  | some node =>
      rw [label_eq hnode] at hlabel
      exact node_of_views hnode hlabel hcore hchildren

theorem core_modify {f : Node → Node}
    (hf : ∀ node, (f node).stat = node.stat ∧
      (f node).expiration = node.expiration ∧
      (f node).file.setChildren [] = node.file.setChildren []) :
    (s.modify m f).core n = s.core n := by
  unfold core
  rw [nodes_modify]
  split_ifs with hn
  · subst hn
    cases s.nodes n with
    | none => rfl
    | some node => simp [hf node]
  · rfl

theorem core_detach : (s.apply (.detach dir name)).core n = s.core n :=
  core_modify fun node => ⟨rfl, rfl, setChildren_idem node.file _ _⟩

theorem core_attach : (s.apply (.attach dir m)).core n = s.core n := by
  rw [apply, attach]
  split
  · rfl
  · exact core_modify fun node => ⟨rfl, rfl, setChildren_idem node.file _ _⟩

theorem core_setName : (s.apply (.setName m name)).core n = s.core n :=
  core_modify fun _ => ⟨rfl, rfl, rfl⟩

theorem core_setParent {parent : Id} :
    (s.apply (.setParent m parent)).core n = s.core n :=
  core_modify fun _ => ⟨rfl, rfl, rfl⟩

theorem handles_attach : (s.apply (.attach dir n)).handles = s.handles := by
  simp only [apply, attach]
  split <;> rfl

/-- Without such a child there is nothing to take out. -/
theorem detach_of_not_mem (hname : name ∉ (s.children dir).map Prod.fst) :
    s.apply (.detach dir name) = s := by
  have hnodes : ∀ m, (s.apply (.detach dir name)).nodes m = s.nodes m := by
    intro m
    refine nodes_eq_of_views label_detach core_detach ?_
    rw [children_detach]
    split_ifs with hm
    · rw [hm, List.filter_eq_self]
      intro e he
      simp only [ne_eq, decide_not, Bool.not_eq_true', decide_eq_false_iff_not]
      intro heq
      exact hname (List.mem_map.mpr ⟨e, he, heq⟩)
    · rfl
  have heq : (s.apply (.detach dir name)).nodes = s.nodes := funext hnodes
  calc s.apply (.detach dir name)
      = { s with nodes := (s.apply (.detach dir name)).nodes } := rfl
    _ = s := by rw [heq]

end FileTree

namespace Fs

open Program FileTree

variable {s s' : FileTree} {n dir : Id} {path : Path}

theorem directory_run (hdir : s.isDir n) :
    directory n s = some (.ok (s.children n), s) := by
  obtain ⟨node, hnode, hfile⟩ := isDir_iff.mp hdir
  rw [children_of_nodes hnode]
  cases hvalue : node.file with
  | directory children synced => exact directory_apply hnode hvalue
  | _ =>
      rw [hvalue] at hfile
      cases hfile

theorem directory_cases {r : Except Errc (List (Name × Id))}
    (hrun : directory n s = some (r, s')) :
    s.isDir n ∧ r = .ok (s.children n) ∧ s' = s := by
  have hdir : s.isDir n := by
    obtain ⟨node, hnode, hrest⟩ := bind_deref_cases hrun
    refine isDir_iff.mpr ⟨node, hnode, ?_⟩
    cases hfile : node.file with
    | directory children synced => rfl
    | _ =>
        rw [hfile] at hrest
        cases hrest
  rw [directory_run hdir] at hrun
  cases hrun
  exact ⟨hdir, rfl, rfl⟩

theorem extract_cases {name : Name} {r : Except Errc (Option Id)}
    (hrun : extract n name s = some (r, s')) :
    s.isDir n ∧ r = .ok ((s.children n).lookup name) ∧
      ((s.children n).lookup name = none → s' = s) := by
  rcases bind_cases hrun with ⟨e, hdirectory, -⟩ | ⟨list, t, hdirectory, hrest⟩
  · cases (directory_cases hdirectory).2.1
  obtain ⟨hdir, hlist, rfl⟩ := directory_cases hdirectory
  cases hlist
  refine ⟨hdir, ?_⟩
  cases hlookup : (t.children n).lookup name with
  | none =>
      rw [hlookup] at hrest
      cases hrest
      exact ⟨rfl, fun _ => rfl⟩
  | some c =>
      rw [hlookup] at hrest
      cases hrest
      exact ⟨rfl, fun h => by cases h⟩

/-- What `Directory::insert` does. -/
theorem insert_cases {node : Node} {overwrite : Bool}
    {r : Except Errc (Option Id)}
    (hnode : s.nodes n = some node)
    (hrun : insert dir n overwrite s = some (r, s')) :
    s.isDir dir ∧
      (((s.children dir).lookup node.name = none ∧ r = .ok none ∧
        s' = s.apply (.attach dir n)) ∨
      ∃ old, (s.children dir).lookup node.name = some old ∧
        (overwrite = true ∧ r = .ok (some old) ∧
          s' = (s.apply (.detach dir node.name)).apply (.attach dir n) ∨
        overwrite = false ∧ r = .error Errc.fileExists ∧
          s' = s.apply (.destroy (s.walk n)))) := by
  rcases bind_cases hrun with ⟨e, hdirectory, -⟩ | ⟨list, t, hdirectory, hrest⟩
  · cases (directory_cases hdirectory).2.1
  obtain ⟨hdir, hlist, rfl⟩ := directory_cases hdirectory
  cases hlist
  refine ⟨hdir, ?_⟩
  rw [bind_of_ok (deref_apply hnode)] at hrest
  cases hlookup : (t.children dir).lookup node.name with
  | none =>
      rw [hlookup] at hrest
      cases hrest
      exact .inl ⟨rfl, rfl, rfl⟩
  | some old =>
      rw [hlookup] at hrest
      refine .inr ⟨old, rfl, ?_⟩
      cases overwrite with
      | true =>
          cases hrest
          exact .inl ⟨rfl, rfl, rfl⟩
      | false =>
          cases hrest
          exact .inr ⟨rfl, rfl, rfl⟩

theorem cacheRename_run (hcache : s.Caching) (n : Id) (path : Path) :
    ∃ s', cacheRename n path s = some (.ok (), s') ∧
      s' = { s with cache := s'.cache } ∧ s'.Caching := by
  unfold cacheRename
  rw [bind_of_ok (state_apply s)]
  cases hc : s.cache with
  | none => exact ⟨s, rfl, rfl, hcache⟩
  | some c =>
      refine ⟨s.apply (.cache (c.rename n path)), rfl, rfl, fun c' hc' => ?_⟩
      cases hc'
      exact (hcache c hc).modifyEntry n fun _ => rfl

/-- A node is moved: it gets a new label, and nothing else changes. -/
theorem moveTo_run {node : Node} (hcache : s.Caching)
    (hnode : s.nodes n = some node) (dir : Id) (path : Path) :
    ∃ s', moveTo n dir path s = some (.ok (), s') ∧ s'.Caching ∧
      s'.handles = s.handles ∧ s'.root = s.root ∧
      (∀ m, s'.children m = s.children m) ∧ (∀ m, s'.core m = s.core m) ∧
      ∀ m, s'.label m =
        if m = n then some (path.filename, some dir) else s.label m := by
  obtain ⟨s₁, hrun, hs₁, hcache₁⟩ := cacheRename_run hcache n path
  have hlabel₁ : ∀ m, s₁.label m = s.label m := fun m => by rw [hs₁]; rfl
  have hcore₁ : ∀ m, s₁.core m = s.core m := fun m => by rw [hs₁]; rfl
  have hchildren₁ : ∀ m, s₁.children m = s.children m := fun m => by
    rw [hs₁]
    rfl
  unfold moveTo
  rw [bind_of_ok hrun, bind_of_ok (edit_apply _ _), edit_apply]
  refine ⟨_, rfl, hcache₁, ?_, ?_, fun m => ?_, fun m => ?_, fun m => ?_⟩
  · change s₁.handles = s.handles
    rw [hs₁]
  · change s₁.root = s.root
    rw [hs₁]
  · rw [children_setParent, children_setName, hchildren₁]
  · rw [core_setParent, core_setName, hcore₁]
  · rw [label_setParent]
    split_ifs with hm
    · rw [label_setName, if_pos rfl, hlabel₁, label_eq hnode]
      rfl
    · rw [label_setName, if_neg hm, hlabel₁]

end Fs

end Madbfs
