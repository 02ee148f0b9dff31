/-
The shape of the file tree: a directory lists its children under their names,
and every child that is listed points back to its directory.  This is said of
all nodes of the heap.  A node that an operation has in its hands is listed
nowhere.
-/
import Madbfs.Tree.Operations

namespace Madbfs

/-- What the tree is made of: the place of a node and the children it lists. -/
def Node.shape (node : Node) :
    Option Id × Name × List (Name × Id) × Bool :=
  (node.parent, node.name, node.file.children, node.file.isDirectory)

namespace FileTree

variable {s s' : FileTree} {n m dir : Id} {name : Name}

theorem nodes_modify (s : FileTree) (n m : Id) (f : Node → Node) :
    (s.modify n f).nodes m =
      if m = n then (s.nodes n).map f else s.nodes m := by
  exact Function.update_apply s.nodes n _ m

theorem nodes_modify_self {node : Node} {f : Node → Node}
    (hnode : s.nodes n = some node) :
    (s.modify n f).nodes n = some (f node) := by
  rw [nodes_modify, if_pos rfl, hnode]
  rfl

theorem children_of_nodes {node : Node} (hnode : s.nodes n = some node) :
    s.children n = node.file.children := by
  rw [children, hnode]

theorem children_congr (hsame : s'.nodes n = s.nodes n) :
    s'.children n = s.children n := by
  rw [children, hsame]
  rfl

theorem mem_children {e : Name × Id} : e ∈ s.children n ↔
    ∃ node, s.nodes n = some node ∧ e ∈ node.file.children := by
  unfold children
  cases s.nodes n with
  | none => simp
  | some node => simp

@[simp] theorem root_apply (s : FileTree) (e : Edit) :
    (s.apply e).root = s.root := by
  cases e <;> try rfl
  simp only [apply, attach]
  split <;> rfl

/-- No directory lists the node. -/
def Unlisted (s : FileTree) (n : Id) : Prop :=
  ∀ dir name, (name, n) ∉ s.children dir

structure WellFormed (s : FileTree) : Prop where
  root : ∃ node, s.nodes s.root = some node ∧ node.file.isDirectory ∧
    node.name = "/" ∧ node.parent = none
  listed : ∀ {dir name n}, (name, n) ∈ s.children dir →
    ∃ node, s.nodes n = some node ∧ node.name = name ∧
      node.parent = some dir ∧ ValidName name
  unique : ∀ dir, ((s.children dir).map Prod.fst).Nodup
  known : ∀ {n node}, s.nodes n = some node → n.inner ≤ s.nextId

/-- The two trees have the same shape. -/
structure SameShape (s s' : FileTree) : Prop where
  root : s'.root = s.root
  nextId : s'.nextId = s.nextId
  nodes : ∀ n, (s'.nodes n).map Node.shape = (s.nodes n).map Node.shape

theorem SameShape.node (h : SameShape s s') {node' : Node}
    (hnode' : s'.nodes n = some node') :
    ∃ node, s.nodes n = some node ∧ node'.shape = node.shape := by
  have hshape := h.nodes n
  rw [hnode'] at hshape
  obtain ⟨node, hnode, heq⟩ := Option.map_eq_some_iff.mp hshape.symm
  exact ⟨node, hnode, heq.symm⟩

theorem SameShape.symm (h : SameShape s s') : SameShape s' s :=
  ⟨h.root.symm, h.nextId.symm, fun n => (h.nodes n).symm⟩

theorem SameShape.refl (s : FileTree) : SameShape s s :=
  ⟨rfl, rfl, fun _ => rfl⟩

theorem SameShape.trans {t : FileTree} (hleft : SameShape s s')
    (hright : SameShape s' t) : SameShape s t :=
  ⟨hright.root.trans hleft.root, hright.nextId.trans hleft.nextId,
    fun n => (hright.nodes n).trans (hleft.nodes n)⟩

theorem SameShape.children (h : SameShape s s') (n : Id) :
    s'.children n = s.children n := by
  have hshape := h.nodes n
  unfold FileTree.children
  cases hs : s.nodes n with
  | none =>
      rw [hs] at hshape
      rw [Option.map_eq_none_iff.mp hshape]
  | some node =>
      obtain ⟨node', hnode', heq⟩ := h.symm.node hs
      rw [hnode']
      exact congrArg (fun shape => shape.2.2.1) heq.symm

theorem WellFormed.congr (h : s.WellFormed) (hshape : SameShape s s') :
    s'.WellFormed where
  root := by
    obtain ⟨node, hnode, hdir, hname, hparent⟩ := h.root
    obtain ⟨node', hnode', heq⟩ := hshape.symm.node hnode
    rw [hshape.root]
    simp only [Node.shape, Prod.mk.injEq] at heq
    exact ⟨node', hnode', heq.2.2.2 ▸ hdir, heq.2.1 ▸ hname, heq.1 ▸ hparent⟩
  listed := by
    intro dir name n hmem
    rw [hshape.children] at hmem
    obtain ⟨node, hnode, hname, hparent, hvalid⟩ := h.listed hmem
    obtain ⟨node', hnode', heq⟩ := hshape.symm.node hnode
    simp only [Node.shape, Prod.mk.injEq] at heq
    exact ⟨node', hnode', heq.2.1 ▸ hname, heq.1 ▸ hparent, hvalid⟩
  unique := fun dir => by
    rw [hshape.children]
    exact h.unique dir
  known := by
    intro n node hnode
    obtain ⟨old, hold, -⟩ := hshape.node hnode
    rw [hshape.nextId]
    exact h.known hold

theorem sameShape_modify {f : Node → Node}
    (hf : ∀ node, (f node).shape = node.shape) : SameShape s (s.modify n f) where
  root := rfl
  nextId := rfl
  nodes := fun m => by
    rw [nodes_modify]
    split_ifs with hm
    · subst hm
      cases s.nodes m with
      | none => rfl
      | some node => exact congrArg some (hf node)
    · rfl

theorem sameShape_expireNodes (ns : List Id) (time : Option Nat) :
    SameShape s (s.expireNodes ns time) where
  root := rfl
  nextId := rfl
  nodes := fun m => by
    simp only [expireNodes]
    split_ifs
    · cases s.nodes m <;> rfl
    · rfl

/-- The edits that leave the shape as it is. -/
def Edit.keepsShape : Edit → Bool
  | .alloc _ _ | .detach _ _ | .attach _ _ | .setName _ _ | .setParent _ _
  | .destroy _ | .convert _ _ _ => false
  | _ => true

theorem sameShape_apply {e : Edit} (he : Edit.keepsShape e = true) :
    SameShape s (s.apply e) := by
  cases e with
  | alloc n node => cases he
  | detach dir name => cases he
  | attach dir n => cases he
  | setName n name => cases he
  | setParent n parent => cases he
  | destroy ns => cases he
  | convert n stat file => cases he
  | setStat n stat => exact sameShape_modify fun node => rfl
  | setSynced n synced =>
      apply sameShape_modify
      intro node
      cases hfile : node.file <;> simp [Node.shape, hfile, File.setSynced,
        File.children, File.isDirectory]
  | setDirty n dirty =>
      apply sameShape_modify
      intro node
      cases hfile : node.file <;> simp [Node.shape, hfile, File.setDirty,
        File.children, File.isDirectory]
  | setTarget n target =>
      apply sameShape_modify
      intro node
      cases hfile : node.file <;> simp [Node.shape, hfile, File.setTarget,
        File.children, File.isDirectory]
  | expire n time =>
      have h : SameShape s (s.modify n fun node =>
          { node with expiration := time }) := sameShape_modify fun _ => rfl
      exact ⟨h.root, h.nextId, h.nodes⟩
  | expireAll ns time =>
      have h := sameShape_expireNodes (s := s) ns time
      exact ⟨h.root, h.nextId, h.nodes⟩
  | setTtl ttl ns =>
      have h := sameShape_expireNodes (s := s) ns
        ({ s with ttl := ttl }.deadline)
      exact ⟨h.root, h.nextId, h.nodes⟩
  | clock | store | release | eraseHandles | cache | markInitialized =>
      exact ⟨rfl, rfl, fun _ => rfl⟩

/-- The place of a node, as the node knows it. -/
def label (s : FileTree) (n : Id) : Option (Name × Option Id) :=
  (s.nodes n).map fun node => (node.name, node.parent)

theorem label_eq {node : Node} (hnode : s.nodes n = some node) :
    s.label n = some (node.name, node.parent) := by
  rw [label, hnode]
  rfl

theorem label_eq_some {name : Name} {parent : Option Id} :
    s.label n = some (name, parent) ↔ ∃ node, s.nodes n = some node ∧
      node.name = name ∧ node.parent = parent := by
  unfold label
  cases s.nodes n with
  | none => simp
  | some node => simp

theorem SameShape.label (h : SameShape s s') (n : Id) :
    s'.label n = s.label n := by
  have hshape := congrArg (Option.map fun shape => (shape.2.1, shape.1))
    (h.nodes n)
  rw [Option.map_map, Option.map_map] at hshape
  exact hshape

theorem WellFormed.label (h : s.WellFormed) (hmem : (name, n) ∈ s.children dir) :
    s.label n = some (name, some dir) := by
  obtain ⟨node, hnode, hname, hparent, -⟩ := h.listed hmem
  exact label_eq_some.mpr ⟨node, hnode, hname, hparent⟩

theorem WellFormed.label_root (h : s.WellFormed) :
    s.label s.root = some ("/", none) := by
  obtain ⟨node, hnode, -, hname, hparent⟩ := h.root
  exact label_eq_some.mpr ⟨node, hnode, hname, hparent⟩

/-- A node is listed in one place only. -/
theorem WellFormed.listed_once (h : s.WellFormed) {name' : Name} {dir' : Id}
    (hmem : (name, n) ∈ s.children dir) (hmem' : (name', n) ∈ s.children dir') :
    name' = name ∧ dir' = dir := by
  have heq := (h.label hmem').symm.trans (h.label hmem)
  simp only [Option.some.injEq, Prod.mk.injEq] at heq
  exact heq

theorem WellFormed.unlisted_root (h : s.WellFormed) : s.Unlisted s.root := by
  intro dir name hmem
  have heq := h.label_root.symm.trans (h.label hmem)
  cases heq

theorem WellFormed.ne_root (h : s.WellFormed)
    (hmem : (name, n) ∈ s.children dir) : n ≠ s.root := by
  rintro rfl
  exact h.unlisted_root dir name hmem

theorem lookup_iff_of_nodup {list : List (Name × Id)}
    (hnodup : (list.map Prod.fst).Nodup) :
    list.lookup name = some n ↔ (name, n) ∈ list := by
  induction list with
  | nil => simp
  | cons e rest ih =>
      obtain ⟨key, m⟩ := e
      rw [List.map_cons, List.nodup_cons] at hnodup
      rw [List.lookup_cons]
      by_cases hkey : name = key
      · subst hkey
        have hnot : (name, n) ∉ rest := fun hrest =>
          hnodup.1 (List.mem_map.mpr ⟨_, hrest, rfl⟩)
        simp [hnot, eq_comm]
      · rw [beq_false_of_ne hkey]
        simp [hkey, ih hnodup.2]

/-- A name is found where it is listed. -/
theorem WellFormed.lookup_iff (h : s.WellFormed) :
    (s.children dir).lookup name = some n ↔ (name, n) ∈ s.children dir :=
  lookup_iff_of_nodup (h.unique dir)

/-- A directory lists one child under a name. -/
theorem WellFormed.same_child (h : s.WellFormed)
    (hmem : (name, n) ∈ s.children dir) (hmem' : (name, m) ∈ s.children dir) :
    m = n := by
  rw [← h.lookup_iff] at hmem hmem'
  exact Option.some.inj (hmem'.symm.trans hmem)

theorem lookup_eq_none_iff {list : List (Name × Id)} :
    list.lookup name = none ↔ name ∉ list.map Prod.fst := by
  induction list with
  | nil => simp
  | cons e rest ih =>
      obtain ⟨key, m⟩ := e
      rw [List.lookup_cons]
      by_cases hkey : name = key
      · simp [hkey]
      · rw [beq_false_of_ne hkey]
        simp [hkey, ih]

section Edits

theorem children_modify (s : FileTree) (n m : Id) (f : Node → Node) :
    (s.modify n f).children m = if m = n then
      ((s.nodes n).map fun node => (f node).file.children).getD []
      else s.children m := by
  unfold children
  rw [nodes_modify]
  split_ifs with hm
  · cases s.nodes n <;> rfl
  · rfl

theorem label_modify {f : Node → Node}
    (hf : ∀ node, (f node).name = node.name ∧ (f node).parent = node.parent) :
    (s.modify n f).label m = s.label m := by
  unfold label
  rw [nodes_modify]
  split_ifs with hm
  · subst hm
    cases s.nodes m with
    | none => rfl
    | some node => simp [hf node]
  · rfl

theorem children_detach : (s.apply (.detach dir name)).children m =
    if m = dir then (s.children dir).filter (fun e => e.1 ≠ name)
    else s.children m := by
  rw [apply, children_modify]
  split_ifs with hm
  · unfold children
    cases hnode : s.nodes dir with
    | none => rfl
    | some node => cases hfile : node.file <;> simp [hfile, File.setChildren,
        File.children]
  · rfl

theorem label_detach : (s.apply (.detach dir name)).label m = s.label m :=
  label_modify fun _ => ⟨rfl, rfl⟩

theorem children_convert {stat : Stat} {file : File} (hfile : file.children = []) :
    (s.apply (.convert n stat file)).children m =
      if m = n then [] else s.children m := by
  rw [apply, children_modify]
  split_ifs with hm
  · cases s.nodes n with
    | none => rfl
    | some node => exact hfile
  · rfl

theorem label_convert {stat : Stat} {file : File} :
    (s.apply (.convert n stat file)).label m = s.label m :=
  label_modify fun _ => ⟨rfl, rfl⟩

theorem children_attach {d node : Node} (hd : s.nodes dir = some d)
    (hdir : d.file.isDirectory) (hnode : s.nodes n = some node) :
    (s.apply (.attach dir n)).children m =
      if m = dir then s.children dir ++ [(node.name, n)] else s.children m := by
  rw [apply, attach, hnode, children_modify]
  split_ifs with hm
  · rw [hd, children_of_nodes hd]
    exact File.children_setChildren hdir _
  · rfl

theorem label_attach : (s.apply (.attach dir n)).label m = s.label m := by
  rw [apply, attach]
  split
  · rfl
  · exact label_modify fun _ => ⟨rfl, rfl⟩

theorem children_destroy {ns : List Id} : (s.apply (.destroy ns)).children m =
    if m ∈ ns then [] else s.children m := by
  unfold children
  simp only [apply]
  split_ifs with hm
  · rfl
  · rfl

theorem label_destroy {ns : List Id} : (s.apply (.destroy ns)).label m =
    if m ∈ ns then none else s.label m := by
  unfold label
  simp only [apply]
  split_ifs with hm
  · rfl
  · rfl

theorem children_alloc {node : Node} : (s.apply (.alloc n node)).children m =
    if m = n then node.file.children else s.children m := by
  unfold children
  simp only [apply, Function.update_apply]
  split_ifs with hm
  · rfl
  · rfl

theorem label_alloc {node : Node} : (s.apply (.alloc n node)).label m =
    if m = n then some (node.name, node.parent) else s.label m := by
  unfold label
  simp only [apply, Function.update_apply]
  split_ifs with hm
  · rfl
  · rfl

theorem children_setName : (s.apply (.setName n name)).children m =
    s.children m := by
  rw [apply, children_modify]
  split_ifs with hm
  · subst hm
    unfold children
    cases s.nodes m <;> rfl
  · rfl

theorem children_setParent {parent : Id} :
    (s.apply (.setParent n parent)).children m = s.children m := by
  rw [apply, children_modify]
  split_ifs with hm
  · subst hm
    unfold children
    cases s.nodes m <;> rfl
  · rfl

theorem label_setName : (s.apply (.setName n name)).label m =
    if m = n then (s.label n).map fun l => (name, l.2) else s.label m := by
  unfold label
  rw [apply, nodes_modify]
  split_ifs with hm
  · cases s.nodes n <;> rfl
  · rfl

theorem label_setParent {parent : Id} :
    (s.apply (.setParent n parent)).label m =
      if m = n then (s.label n).map fun l => (l.1, some parent)
      else s.label m := by
  unfold label
  rw [apply, nodes_modify]
  split_ifs with hm
  · cases s.nodes n <;> rfl
  · rfl

theorem isSome_label : (s.label n).isSome = (s.nodes n).isSome := by
  unfold label
  cases s.nodes n <;> rfl

/-- Whether the node is a directory. -/
def isDir (s : FileTree) (n : Id) : Bool :=
  (s.nodes n).any fun node => node.file.isDirectory

theorem isDir_iff : s.isDir n ↔
    ∃ node, s.nodes n = some node ∧ node.file.isDirectory := by
  unfold isDir
  cases s.nodes n with
  | none => simp
  | some node => simp

theorem isDirectory_setChildren (file : File) (list : List (Name × Id)) :
    (file.setChildren list).isDirectory = file.isDirectory := by
  cases file <;> rfl

theorem isDir_modify {f : Node → Node}
    (hf : ∀ node, (f node).file.isDirectory = node.file.isDirectory) :
    (s.modify n f).isDir m = s.isDir m := by
  unfold isDir
  rw [nodes_modify]
  split_ifs with hm
  · subst hm
    cases s.nodes m with
    | none => rfl
    | some node => exact hf node
  · rfl

theorem wellFormed_of (hroot : s.label s.root = some ("/", none))
    (hdir : s.isDir s.root)
    (hlisted : ∀ {dir name n}, (name, n) ∈ s.children dir →
      s.label n = some (name, some dir) ∧ ValidName name)
    (hunique : ∀ dir, ((s.children dir).map Prod.fst).Nodup)
    (hknown : ∀ n, (s.label n).isSome → n.inner ≤ s.nextId) :
    s.WellFormed where
  root := by
    obtain ⟨node, hnode, hname, hparent⟩ := label_eq_some.mp hroot
    obtain ⟨node', hnode', hdirectory⟩ := isDir_iff.mp hdir
    cases hnode.symm.trans hnode'
    exact ⟨node, hnode, hdirectory, hname, hparent⟩
  listed := by
    intro dir name n hmem
    obtain ⟨hlabel, hvalid⟩ := hlisted hmem
    obtain ⟨node, hnode, hname, hparent⟩ := label_eq_some.mp hlabel
    exact ⟨node, hnode, hname, hparent, hvalid⟩
  unique := hunique
  known := by
    intro n node hnode
    apply hknown n
    rw [label_eq hnode]
    rfl

theorem WellFormed.isDir_root (h : s.WellFormed) : s.isDir s.root := by
  obtain ⟨node, hnode, hdir, -⟩ := h.root
  exact isDir_iff.mpr ⟨node, hnode, hdir⟩

theorem WellFormed.valid (h : s.WellFormed)
    (hmem : (name, n) ∈ s.children dir) : ValidName name := by
  obtain ⟨node, -, -, -, hvalid⟩ := h.listed hmem
  exact hvalid

theorem WellFormed.label_known (h : s.WellFormed) (n : Id)
    (hlabel : (s.label n).isSome) : n.inner ≤ s.nextId := by
  rw [isSome_label] at hlabel
  obtain ⟨node, hnode⟩ := Option.isSome_iff_exists.mp hlabel
  exact h.known hnode

theorem WellFormed.detach (h : s.WellFormed) :
    (s.apply (.detach dir name)).WellFormed := by
  apply wellFormed_of
  · rw [label_detach]
    exact h.label_root
  · exact (isDir_modify fun node =>
      isDirectory_setChildren node.file _).trans h.isDir_root
  · intro dir' name' n hmem
    rw [label_detach]
    rw [children_detach] at hmem
    split_ifs at hmem with hdir
    · subst hdir
      have hold := List.mem_of_mem_filter hmem
      exact ⟨h.label hold, h.valid hold⟩
    · exact ⟨h.label hmem, h.valid hmem⟩
  · intro dir'
    rw [children_detach]
    split_ifs
    · exact ((h.unique dir).sublist (List.filter_sublist.map _))
    · exact h.unique dir'
  · intro n hlabel
    rw [label_detach] at hlabel
    exact h.label_known n hlabel

theorem WellFormed.convert (h : s.WellFormed) {stat : Stat} {file : File}
    (hn : n ≠ s.root) (hfile : file.children = []) :
    (s.apply (.convert n stat file)).WellFormed := by
  apply wellFormed_of
  · rw [label_convert]
    exact h.label_root
  · have hroot := h.isDir_root
    rw [root_apply]
    rw [isDir] at hroot ⊢
    rw [apply, nodes_modify, if_neg hn.symm]
    exact hroot
  · intro dir' name' m hmem
    rw [label_convert]
    rw [children_convert hfile] at hmem
    split_ifs at hmem
    · exact absurd hmem List.not_mem_nil
    · exact ⟨h.label hmem, h.valid hmem⟩
  · intro dir'
    rw [children_convert hfile]
    split_ifs
    · exact List.nodup_nil
    · exact h.unique dir'
  · intro m hlabel
    rw [label_convert] at hlabel
    exact h.label_known m hlabel

theorem WellFormed.attach (h : s.WellFormed) {d node : Node}
    (hd : s.nodes dir = some d) (hdir : d.file.isDirectory)
    (hnode : s.nodes n = some node) (hparent : node.parent = some dir)
    (hvalid : ValidName node.name)
    (hname : node.name ∉ (s.children dir).map Prod.fst) :
    (s.apply (.attach dir n)).WellFormed := by
  apply wellFormed_of
  · rw [label_attach, root_apply]
    exact h.label_root
  · have hroot := h.isDir_root
    rw [apply, FileTree.attach, hnode]
    exact (isDir_modify fun node =>
      isDirectory_setChildren node.file _).trans hroot
  · intro dir' name' m hmem
    rw [label_attach]
    rw [children_attach hd hdir hnode] at hmem
    split_ifs at hmem with hdir'
    · subst hdir'
      rcases List.mem_append.mp hmem with hold | hnew
      · exact ⟨h.label hold, h.valid hold⟩
      · cases List.mem_singleton.mp hnew
        exact ⟨(label_eq hnode).trans (by rw [hparent]), hvalid⟩
    · exact ⟨h.label hmem, h.valid hmem⟩
  · intro dir'
    rw [children_attach hd hdir hnode]
    split_ifs
    · rw [List.map_append, List.nodup_append]
      refine ⟨h.unique dir, List.nodup_singleton _, ?_⟩
      rintro x hx y hy rfl
      rw [List.map_singleton, List.mem_singleton] at hy
      subst hy
      exact hname hx
    · exact h.unique dir'
  · intro m hlabel
    rw [label_attach] at hlabel
    rw [show (s.apply (.attach dir n)).nextId = s.nextId by
      rw [apply, FileTree.attach, hnode]; rfl]
    exact h.label_known m hlabel

theorem WellFormed.alloc (h : s.WellFormed) {node : Node}
    (hfile : node.file.children = []) :
    (s.apply (.alloc ⟨s.nextId + 1⟩ node)).WellFormed := by
  have hfresh : ∀ {m : Id}, (s.label m).isSome → m ≠ ⟨s.nextId + 1⟩ := by
    rintro m hlabel rfl
    exact absurd (h.label_known _ hlabel) (Nat.not_succ_le_self _)
  have hroot : s.root ≠ ⟨s.nextId + 1⟩ := hfresh (by rw [h.label_root]; rfl)
  apply wellFormed_of
  · rw [root_apply, label_alloc, if_neg hroot]
    exact h.label_root
  · have hdir := h.isDir_root
    rw [isDir] at hdir ⊢
    change (Function.update s.nodes _ _ s.root).any _ = true
    rw [Function.update_of_ne hroot]
    exact hdir
  · intro dir' name' m hmem
    rw [children_alloc] at hmem
    split_ifs at hmem
    · rw [hfile] at hmem
      exact absurd hmem List.not_mem_nil
    · have hlabel := h.label hmem
      rw [label_alloc, if_neg (hfresh (by rw [hlabel]; rfl))]
      exact ⟨hlabel, h.valid hmem⟩
  · intro dir'
    rw [children_alloc]
    split_ifs
    · rw [hfile]
      exact List.nodup_nil
    · exact h.unique dir'
  · intro m hlabel
    rw [label_alloc] at hlabel
    change m.inner ≤ s.nextId + 1
    split_ifs at hlabel with hm
    · subst hm
      exact Nat.le_refl _
    · exact Nat.le_succ_of_le (h.label_known m hlabel)

theorem WellFormed.setName (h : s.WellFormed) (hn : n ≠ s.root)
    (hunlisted : s.Unlisted n) : (s.apply (.setName n name)).WellFormed := by
  apply wellFormed_of
  · rw [root_apply, label_setName, if_neg hn.symm]
    exact h.label_root
  · rw [root_apply, apply, isDir_modify (by intro node; rfl)]
    exact h.isDir_root
  · intro dir' name' m hmem
    rw [children_setName] at hmem
    rw [label_setName, if_neg (by rintro rfl; exact hunlisted _ _ hmem)]
    exact ⟨h.label hmem, h.valid hmem⟩
  · intro dir'
    rw [children_setName]
    exact h.unique dir'
  · intro m hlabel
    rw [label_setName] at hlabel
    split_ifs at hlabel with hm
    · subst hm
      rw [Option.isSome_map] at hlabel
      exact h.label_known m hlabel
    · exact h.label_known m hlabel

theorem WellFormed.setParent (h : s.WellFormed) {parent : Id}
    (hn : n ≠ s.root) (hunlisted : s.Unlisted n) :
    (s.apply (.setParent n parent)).WellFormed := by
  apply wellFormed_of
  · rw [root_apply, label_setParent, if_neg hn.symm]
    exact h.label_root
  · rw [root_apply, apply, isDir_modify (by intro node; rfl)]
    exact h.isDir_root
  · intro dir' name' m hmem
    rw [children_setParent] at hmem
    rw [label_setParent, if_neg (by rintro rfl; exact hunlisted _ _ hmem)]
    exact ⟨h.label hmem, h.valid hmem⟩
  · intro dir'
    rw [children_setParent]
    exact h.unique dir'
  · intro m hlabel
    rw [label_setParent] at hlabel
    split_ifs at hlabel with hm
    · subst hm
      rw [Option.isSome_map] at hlabel
      exact h.label_known m hlabel
    · exact h.label_known m hlabel

theorem WellFormed.destroy (h : s.WellFormed) {ns : List Id}
    (hroot : s.root ∉ ns)
    (hclosed : ∀ {dir name n}, (name, n) ∈ s.children dir → n ∈ ns →
      dir ∈ ns) : (s.apply (.destroy ns)).WellFormed := by
  apply wellFormed_of
  · rw [root_apply, label_destroy, if_neg hroot]
    exact h.label_root
  · have hdir := h.isDir_root
    rw [isDir] at hdir ⊢
    simp only [apply, if_neg hroot]
    exact hdir
  · intro dir' name' m hmem
    rw [children_destroy] at hmem
    split_ifs at hmem with hdir'
    · exact absurd hmem List.not_mem_nil
    · rw [label_destroy, if_neg fun hm => hdir' (hclosed hmem hm)]
      exact ⟨h.label hmem, h.valid hmem⟩
  · intro dir'
    rw [children_destroy]
    split_ifs
    · exact List.nodup_nil
    · exact h.unique dir'
  · intro m hlabel
    rw [label_destroy] at hlabel
    split_ifs at hlabel
    · cases hlabel
    · exact h.label_known m hlabel

end Edits

end FileTree

end Madbfs
