/-
The nodes of the tree are those a way leads to from the root.  A walk from a
node that is listed nowhere finds all nodes below it, and the names on the way
to a node are those `build_path` collects.
-/
import Madbfs.Tree.Effects

namespace Madbfs

namespace FileTree

variable {s s' : FileTree} {n m dir : Id} {name : Name} {path : Path}

/-- The node is in the subtree of the other one. -/
def Below (s : FileTree) : Id → Id → Prop :=
  Forest.Below s.successors

/-- The node is in the tree. -/
def InTree (s : FileTree) (n : Id) : Prop :=
  s.Below s.root n

/-- Trees of the same shape have the same subtrees. -/
theorem SameShape.below {t : FileTree} (h : SameShape s t) :
    t.Below = s.Below := by
  have hsucc : t.successors = s.successors := by
    funext m
    unfold successors
    rw [h.children]
  unfold Below
  rw [hsucc]

theorem Below.child (h : s.Below m dir) (hmem : (name, n) ∈ s.children dir) :
    s.Below m n :=
  .tail h (mem_successors.mpr ⟨name, hmem⟩)

theorem InTree.root : s.InTree s.root :=
  .refl

/-- A node of the tree is its root or listed in the tree. -/
theorem InTree.cases (h : s.InTree n) : n = s.root ∨
    ∃ dir name, s.InTree dir ∧ (name, n) ∈ s.children dir := by
  rcases Relation.ReflTransGen.cases_tail h with heq | ⟨dir, hdir, hmem⟩
  · exact .inl heq
  · obtain ⟨name, hchild⟩ := mem_successors.mp hmem
    exact .inr ⟨dir, name, hdir, hchild⟩

theorem WellFormed.isForest (h : s.WellFormed) :
    Forest.IsForest s.successors where
  nodup := by
    intro dir
    unfold successors
    rw [List.nodup_reverse]
    refine List.Nodup.map_on ?_ (h.unique dir).of_map
    rintro ⟨name, n⟩ hmem ⟨name', n'⟩ hmem' heq
    cases heq
    rw [(h.listed_once hmem hmem').1]
  unique := by
    intro dir dir' n hmem hmem'
    obtain ⟨name, hchild⟩ := mem_successors.mp hmem
    obtain ⟨name', hchild'⟩ := mem_successors.mp hmem'
    exact (h.listed_once hchild hchild').2

/-- All ids that may be in use. -/
def ids (s : FileTree) : Finset Id :=
  (Finset.range (s.nextId + 1)).image Id.mk

theorem mem_ids : n ∈ s.ids ↔ n.inner ≤ s.nextId := by
  unfold ids
  rw [Finset.mem_image]
  constructor
  · rintro ⟨i, hi, rfl⟩
    exact Nat.le_of_lt_succ (Finset.mem_range.mp hi)
  · intro hn
    exact ⟨n.inner, Finset.mem_range.mpr (Nat.lt_succ_of_le hn), rfl⟩

theorem card_ids (s : FileTree) : s.ids.card ≤ s.nextId + 1 := by
  refine Nat.le_trans Finset.card_image_le ?_
  rw [Finset.card_range]

/-- From a node that is listed nowhere, `walk` visits its subtree. -/
theorem WellFormed.mem_walk (h : s.WellFormed) (hunlisted : s.Unlisted n)
    (hn : n.inner ≤ s.nextId) : m ∈ s.walk n ↔ s.Below n m := by
  constructor
  · intro hmem
    obtain ⟨a, ha, hbelow⟩ := Forest.below_of_mem_visit hmem
    rw [List.mem_singleton.mp ha] at hbelow
    exact hbelow
  · intro hbelow
    refine Forest.mem_visit h.isForest ?_ s.card_ids
      (List.mem_singleton_self n) hbelow
    constructor
    · intro a _ b hb
      obtain ⟨name, hchild⟩ := mem_successors.mp hb
      obtain ⟨node, hnode, -⟩ := h.listed hchild
      exact mem_ids.mpr (h.known hnode)
    · exact List.nodup_singleton n
    · intro a ha
      rw [List.mem_singleton.mp ha]
      exact mem_ids.mpr hn
    · intro a _ b hb hmem
      rw [List.mem_singleton.mp hmem] at hb
      obtain ⟨name, hchild⟩ := mem_successors.mp hb
      exact hunlisted a name hchild

theorem WellFormed.mem_walk_root (h : s.WellFormed) :
    m ∈ s.walk s.root ↔ s.InTree m := by
  obtain ⟨node, hnode, -⟩ := h.root
  exact h.mem_walk h.unlisted_root (h.known hnode)

/-- The way from the root to a node: its names, and the nodes on it from the
last one to the root. -/
inductive Way (s : FileTree) : Path → List Id → Prop
  | root : Way s [] [s.root]
  | child {path : Path} {dir n : Id} {up : List Id} {name : Name}
      (hmem : (name, n) ∈ s.children dir) (hway : Way s path (dir :: up)) :
      Way s (path ++ [name]) (n :: dir :: up)

variable {line : List Id}

theorem InTree.way (h : s.InTree n) : ∃ path up, s.Way path (n :: up) := by
  induction h with
  | refl => exact ⟨[], [], .root⟩
  | tail hdir hmem ih =>
      obtain ⟨path, up, hway⟩ := ih
      obtain ⟨name, hchild⟩ := mem_successors.mp hmem
      exact ⟨path ++ [name], _, .child hchild hway⟩

theorem Way.lineage (h : s.Way path line) :
    Forest.Lineage s.successors s.root line := by
  induction h with
  | root => exact .root
  | child hmem hway ih => exact .child (mem_successors.mpr ⟨_, hmem⟩) ih

theorem Way.length (h : s.Way path line) : line.length = path.length + 1 := by
  induction h with
  | root => rfl
  | child hmem hway ih =>
      rw [List.length_cons, ih, List.length_append, List.length_singleton]

theorem Way.valid (h : s.Way path line) (hwf : s.WellFormed) :
    ∀ name ∈ path, ValidName name := by
  induction h with
  | root => exact fun name hname => absurd hname List.not_mem_nil
  | child hmem hway ih =>
      intro name hname
      rcases List.mem_append.mp hname with hold | hnew
      · exact ih name hold
      · rw [List.mem_singleton.mp hnew]
        exact hwf.valid hmem

theorem Way.known (h : s.Way path line) (hwf : s.WellFormed) :
    ∀ m ∈ line, m.inner ≤ s.nextId := by
  induction h with
  | root =>
      obtain ⟨node, hnode, -⟩ := hwf.root
      intro m hm
      rw [List.mem_singleton.mp hm]
      exact hwf.known hnode
  | child hmem hway ih =>
      obtain ⟨node, hnode, -⟩ := hwf.listed hmem
      intro m hm
      rcases List.mem_cons.mp hm with rfl | hold
      · exact hwf.known hnode
      · exact ih m hold

/-- The nodes on a way are different, so it is no longer than there are
ids. -/
theorem Way.length_le (h : s.Way path line) (hwf : s.WellFormed) :
    path.length ≤ s.nextId := by
  have hnodup : line.Nodup := by
    apply h.lineage.nodup hwf.isForest
    intro dir hmem
    obtain ⟨name, hchild⟩ := mem_successors.mp hmem
    exact hwf.unlisted_root dir name hchild
  have hsub : line.toFinset ⊆ s.ids := by
    intro m hm
    exact mem_ids.mpr (h.known hwf m (List.mem_toFinset.mp hm))
  have hcard := Finset.card_le_card hsub
  rw [List.toFinset_card_of_nodup hnodup, h.length] at hcard
  have hids := s.card_ids
  omega

theorem child_eq_lookup (s : FileTree) (dir : Id) (name : Name) :
    s.child dir name = (s.children dir).lookup name := by
  unfold FileTree.child FileTree.children
  cases s.nodes dir <;> rfl

theorem WellFormed.child_eq (h : s.WellFormed)
    (hmem : (name, n) ∈ s.children dir) : s.child dir name = some n := by
  rw [child_eq_lookup]
  exact h.lookup_iff.mpr hmem

/-- The names on a way lead to its end. -/
theorem Way.resolve {up : List Id} (h : s.Way path (n :: up))
    (hwf : s.WellFormed) : s.resolve path = some n := by
  generalize hline : n :: up = line at h
  induction h generalizing n up with
  | root =>
      cases hline
      rfl
  | child hmem hway ih =>
      cases hline
      rw [FileTree.resolve, List.foldlM_append, show List.foldlM s.child s.root _ =
        _ from ih rfl]
      exact (congrArg (fun r => r >>= pure) (hwf.child_eq hmem)).trans rfl

/-- The names of a node and of its parents, up to the root. -/
theorem Way.parentNames {up : List Id} (h : s.Way path (n :: up))
    (hwf : s.WellFormed) {fuel : Nat} (hfuel : path.length < fuel) :
    s.parentNames fuel (some n) = path.reverse ++ ["/"] := by
  generalize hline : n :: up = line at h
  induction h generalizing n up fuel with
  | root =>
      cases hline
      obtain ⟨node, hnode, -, hname, hparent⟩ := hwf.root
      obtain ⟨fuel, rfl⟩ := Nat.exists_eq_succ_of_ne_zero (by omega : fuel ≠ 0)
      rw [FileTree.parentNames, hnode]
      simp only
      rw [hname, hparent]
      cases fuel <;> rfl
  | @child path dir n' up' name hmem hway ih =>
      cases hline
      obtain ⟨node, hnode, hname, hparent, -⟩ := hwf.listed hmem
      rw [List.length_append, List.length_singleton] at hfuel
      obtain ⟨fuel, rfl⟩ := Nat.exists_eq_succ_of_ne_zero (by omega : fuel ≠ 0)
      rw [FileTree.parentNames, hnode]
      simp only
      rw [hname, hparent, ih (by omega) rfl, List.reverse_append]
      rfl

/-- `build_path` gives the names on the way to a node. -/
theorem Way.buildPath {up : List Id} (h : s.Way path (n :: up))
    (hwf : s.WellFormed) : s.buildPath n = some path := by
  have hvalid := h.valid hwf
  have hlength := h.length_le hwf
  generalize hline : n :: up = line at h
  cases h with
  | root =>
      cases hline
      obtain ⟨node, hnode, -, hname, hparent⟩ := hwf.root
      rw [FileTree.buildPath, hnode, Option.bind_some, hname, hparent]
      have hnone : s.parentNames s.nextId none = [] := by
        cases s.nextId <;> rfl
      rw [hnone]
      exact Path.finishPath_root
  | child hmem hway =>
      cases hline
      obtain ⟨node, hnode, hname, hparent, -⟩ := hwf.listed hmem
      rw [List.length_append, List.length_singleton] at hlength
      rw [FileTree.buildPath, hnode, Option.bind_some, hname, hparent,
        hway.parentNames hwf (by omega)]
      exact Path.finishPath_assemble hvalid

theorem resolve_append {left right : Path} :
    s.resolve (left ++ right) =
      (s.resolve left).bind fun dir => right.foldlM s.child dir := by
  unfold FileTree.resolve
  rw [List.foldlM_append]
  rfl

/-- A path that leads to a node is the way to it. -/
theorem WellFormed.way_of_resolve (hwf : s.WellFormed)
    (hresolve : s.resolve path = some n) : ∃ up, s.Way path (n :: up) := by
  induction path using List.reverseRecOn generalizing n with
  | nil =>
      cases hresolve
      exact ⟨[], .root⟩
  | append_singleton above name ih =>
      rw [resolve_append] at hresolve
      obtain ⟨dir, habove, hlast⟩ := Option.bind_eq_some_iff.mp hresolve
      rw [List.foldlM_cons] at hlast
      obtain ⟨c, hchild, hc⟩ := Option.bind_eq_some_iff.mp hlast
      cases hc
      obtain ⟨up, hway⟩ := ih habove
      rw [child_eq_lookup] at hchild
      exact ⟨_, .child (hwf.lookup_iff.mp hchild) hway⟩

/-- The last step of a path. -/
theorem resolve_eq_child (hne : path ≠ [])
    (hparent : s.resolve path.parentPath = some dir) :
    s.resolve path = s.child dir path.filename := by
  cases path using List.reverseRecOn with
  | nil => exact absurd rfl hne
  | append_singleton above name =>
      have habove : Path.parentPath (above ++ [name]) = above :=
        List.dropLast_concat
      have hname : Path.filename (above ++ [name]) = name := by
        rw [Path.filename, List.getLast?_concat]
        rfl
      rw [habove] at hparent
      rw [resolve_append, hparent, hname]
      cases hchild : s.child dir name with
      | none => simp [hchild]
      | some c => simp [hchild]

/-- Paths that lead to a node stay, if the steps on the way do. -/
theorem resolve_keep {P : Id → Prop} (hwf : s.WellFormed)
    (hwf' : s'.WellFormed) (hroot : s'.root = s.root)
    (hup : ∀ dir name c, (name, c) ∈ s.children dir → P c → P dir)
    (hkeep : ∀ dir name c, (name, c) ∈ s.children dir → P c →
      (name, c) ∈ s'.children dir)
    (hresolve : s.resolve path = some n) (hn : P n) :
    s'.resolve path = some n := by
  induction path using List.reverseRecOn generalizing n with
  | nil =>
      cases hresolve
      exact congrArg some hroot
  | append_singleton above name ih =>
      rw [resolve_append] at hresolve
      obtain ⟨dir, habove, hlast⟩ := Option.bind_eq_some_iff.mp hresolve
      rw [List.foldlM_cons] at hlast
      obtain ⟨c, hchild, hc⟩ := Option.bind_eq_some_iff.mp hlast
      cases hc
      rw [child_eq_lookup] at hchild
      have hmem := hwf.lookup_iff.mp hchild
      have hchild' := hwf'.child_eq (hkeep dir name n hmem hn)
      rw [resolve_append, ih habove (hup dir name n hmem hn)]
      simp [hchild']

/-- There is one way to a node. -/
theorem Way.unique (hwf : s.WellFormed) {path' : Path} {up up' : List Id}
    (h : s.Way path (n :: up)) (h' : s.Way path' (n :: up')) :
    path' = path ∧ up' = up := by
  generalize hline : n :: up = line at h
  induction h generalizing n up path' up' with
  | root =>
      cases hline
      cases h' with
      | root => exact ⟨rfl, rfl⟩
      | child hmem hway => exact absurd hmem (hwf.unlisted_root _ _)
  | child hmem hway ih =>
      cases hline
      cases h' with
      | root => exact absurd hmem (hwf.unlisted_root _ _)
      | child hmem' hway' =>
          obtain ⟨rfl, rfl⟩ := hwf.listed_once hmem hmem'
          obtain ⟨rfl, rfl⟩ := ih hway' rfl
          exact ⟨rfl, rfl⟩

/-- A way can be followed further down. -/
theorem Way.further {up : List Id} (h : s.Way path (n :: up))
    (hbelow : s.Below n m) :
    ∃ path' up', s.Way path' (m :: up') ∧ up.length ≤ up'.length := by
  induction hbelow with
  | refl => exact ⟨path, up, h, Nat.le_refl _⟩
  | tail hdir hmem ih =>
      obtain ⟨path', up', hway, hle⟩ := ih
      obtain ⟨name, hchild⟩ := mem_successors.mp hmem
      exact ⟨_, _, .child hchild hway, Nat.le_succ_of_le hle⟩

/-- In the tree, no directory is below its own child. -/
theorem InTree.not_below (hwf : s.WellFormed) (hdir : s.InTree dir)
    (hmem : (name, n) ∈ s.children dir) : ¬s.Below n dir := by
  intro hbelow
  obtain ⟨path, up, hway⟩ := hdir.way
  obtain ⟨path', up', hway', hle⟩ := (Way.child hmem hway).further hbelow
  obtain ⟨-, rfl⟩ := hway.unique hwf hway'
  exact absurd hle (Nat.not_succ_le_self _)

theorem inTree_of_resolve (hwf : s.WellFormed)
    (hresolve : s.resolve path = some n) : s.InTree n := by
  obtain ⟨up, hway⟩ := hwf.way_of_resolve hresolve
  generalize hline : n :: up = line at hway
  clear hresolve
  induction hway generalizing n up with
  | root =>
      cases hline
      exact .root
  | child hmem hway ih =>
      cases hline
      exact Below.child (ih _ rfl) hmem

section Changes

variable {t : FileTree} {c c' : Id} {name' : Name}

/-- Where the nodes of a subtree are the same, the subtree is. -/
theorem below_iff_of_same (hsame : ∀ m, s.Below c m → t.nodes m = s.nodes m) :
    t.Below c m ↔ s.Below c m := by
  have hchildren : ∀ m, s.Below c m → t.children m = s.children m :=
    fun m hm => children_congr (hsame m hm)
  constructor
  · intro hbelow
    induction hbelow with
    | refl => exact .refl
    | tail hdir hmem ih =>
        obtain ⟨name, hchild⟩ := mem_successors.mp hmem
        rw [hchildren _ ih] at hchild
        exact Below.child ih hchild
  · intro hbelow
    induction hbelow with
    | refl => exact .refl
    | tail hdir hmem ih =>
        obtain ⟨name, hchild⟩ := mem_successors.mp hmem
        rw [← hchildren _ hdir] at hchild
        exact Below.child ih hchild

/-- Fewer children make smaller subtrees. -/
theorem below_of_children_subset
    (hsub : ∀ m, ∀ e ∈ t.children m, e ∈ s.children m)
    (hbelow : t.Below c m) : s.Below c m := by
  induction hbelow with
  | refl => exact .refl
  | tail hdir hmem ih =>
      obtain ⟨name, hchild⟩ := mem_successors.mp hmem
      exact Below.child ih (hsub _ _ hchild)

theorem WellFormed.below_known (hwf : s.WellFormed)
    (hmem : (name, c) ∈ s.children dir) (hbelow : s.Below c m) :
    m.inner ≤ s.nextId := by
  rcases Relation.ReflTransGen.cases_tail hbelow with rfl | ⟨p, -, hchild⟩
  · obtain ⟨node, hnode, -⟩ := hwf.listed hmem
    exact hwf.known hnode
  · obtain ⟨key, hlisted⟩ := mem_successors.mp hchild
    obtain ⟨node, hnode, -⟩ := hwf.listed hlisted
    exact hwf.known hnode

/-- The subtrees of two children have nothing in common. -/
theorem InTree.apart (hwf : s.WellFormed) (hdir : s.InTree dir)
    (hmem : (name, c) ∈ s.children dir) (hmem' : (name', c') ∈ s.children dir)
    (hne : c ≠ c') (hbelow : s.Below c m) : ¬s.Below c' m := by
  intro hbelow'
  have hstrict : ∀ {a b : Id} {key key' : Name}, (key, a) ∈ s.children dir →
      (key', b) ∈ s.children dir → a ≠ b → ¬s.Below a b := by
    intro a b key key' ha hb hab h
    rcases Relation.ReflTransGen.cases_tail h with heq | ⟨p, hp, hchild⟩
    · exact hab heq.symm
    · obtain ⟨key'', hlisted⟩ := mem_successors.mp hchild
      rw [(hwf.listed_once hb hlisted).2] at hp
      exact hdir.not_below hwf ha hp
  rcases Forest.Below.total hwf.isForest hbelow hbelow' with h | h
  · exact hstrict hmem hmem' hne h
  · exact hstrict hmem' hmem hne.symm h

/-- A change below a node leaves it in the tree. -/
theorem InTree.keep (hwf : s.WellFormed) (hdir : s.InTree dir)
    (hroot : t.root = s.root)
    (hsame : ∀ m, ¬s.Below dir m → m.inner ≤ s.nextId →
      t.nodes m = s.nodes m) : t.InTree dir := by
  have hline : ∀ {n}, s.InTree n → s.Below n dir → t.InTree n := by
    intro n hn
    induction hn with
    | refl =>
        intro _
        rw [← hroot]
        exact .root
    | tail hp hmem ih =>
        intro hbelow
        obtain ⟨key, hchild⟩ := mem_successors.mp hmem
        obtain ⟨node, hnode, -⟩ := mem_children.mp hchild
        have hnot := InTree.not_below hwf hp hchild
        have habove : s.Below _ dir := (Below.child .refl hchild).trans hbelow
        have hsame' := hsame _ (fun h => hnot (hbelow.trans h))
          (hwf.known hnode)
        rw [← children_congr hsame'] at hchild
        exact Below.child (ih habove) hchild
  exact hline hdir .refl

theorem InTree.congr (h : s.InTree n) (hshape : SameShape s t) :
    t.InTree n := by
  unfold InTree
  rw [hshape.below, hshape.root]
  exact h

end Changes

end FileTree

namespace Fs

open Program FileTree

variable {s : FileTree} {n : Id} {path : Path}

theorem traverseFrom_eq {current : Id}
    (hresolve : path.foldlM s.child current = some n) :
    traverseFrom current path s = some (.ok n, s) := by
  induction path generalizing current with
  | nil =>
      cases hresolve
      rfl
  | cons name rest ih =>
      rw [List.foldlM_cons] at hresolve
      obtain ⟨c, hc, hrest⟩ := Option.bind_eq_some_iff.mp hresolve
      obtain ⟨node, hnode, hfind⟩ := Option.bind_eq_some_iff.mp hc
      have hstep : traverseNode current name s = some (.ok c, s) := by
        unfold traverseNode asDirectory
        rw [bind_assoc, bind_of_ok (deref_apply hnode)]
        unfold Node.find at hfind
        cases hfile : node.file with
        | directory children synced =>
            rw [hfile] at hfind
            have hok : (ofExcept (File.directory children synced).asDirectory :
                Fs (List (Name × Id))) s = some (.ok children, s) := rfl
            rw [bind_of_ok hok]
            simp only [show children.lookup name = some c from hfind]
            rfl
        | _ =>
            rw [hfile] at hfind
            cases hfind
      rw [traverseFrom, bind_of_ok hstep]
      exact ih hrest

theorem traverse_eq (hresolve : s.resolve path = some n) :
    traverse path s = some (.ok n, s) :=
  traverseFrom_eq hresolve

end Fs

end Madbfs
