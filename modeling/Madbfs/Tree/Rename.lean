/-
`rename` after its lookups: one subtree goes to its new place, and the one that
was there takes its place or goes.  Nothing else changes but the timestamps of
the two directories.
-/
import Madbfs.Tree.Views

namespace Madbfs

/-- What the lookups of `rename` have found, where neither path lies strictly
inside the subtree of the other. -/
structure Renaming (s : FileTree) (n fromParent toParent : Id)
    (source target : Path) (flags : Nat) : Prop where
  source_ne : source ≠ []
  target_ne : target ≠ []
  valid : ValidName target.filename
  fromAt : s.resolve source.parentPath = some fromParent
  toAt : s.resolve target.parentPath = some toParent
  mem : (source.filename, n) ∈ s.children fromParent
  dir : s.isDir toParent
  notBelow : ¬s.Below n toParent
  notAbove : ∀ old, (target.filename, old) ∈ s.children toParent →
    old ≠ n → ¬s.Below old fromParent
  exchange : Fs.hasFlag flags Fs.renameExchange = true → source ≠ target ∧
    ∃ old, (target.filename, old) ∈ s.children toParent

/-- The tree after the node was put into its new place. -/
structure Placed (s s' : FileTree) (n fromParent toParent : Id)
    (sname tname : Name) : Prop where
  mem : ∀ {dir name c}, (name, c) ∈ s'.children dir ↔
    (dir = toParent ∧ name = tname ∧ c = n) ∨
      ((name, c) ∈ s.children dir ∧ ¬(dir = fromParent ∧ name = sname) ∧
        ¬(dir = toParent ∧ name = tname))
  same : ∀ dir, dir ≠ fromParent → dir ≠ toParent →
    s'.children dir = s.children dir
  label : ∀ m, s'.label m =
    if m = n then some (tname, some toParent) else s.label m
  core : ∀ m, s'.core m = s.core m
  root : s'.root = s.root
  handles : s'.handles = s.handles
  caching : s'.Caching

/-- A node other than `n` is at the new place. -/
def FileTree.Displaced (s : FileTree) (n toParent : Id) (tname : Name)
    (old : Id) : Prop :=
  (tname, old) ∈ s.children toParent ∧ old ≠ n

theorem FileTree.SameShape.displaced {s t : FileTree}
    (h : FileTree.SameShape s t) : t.Displaced = s.Displaced := by
  funext n toParent tname old
  unfold FileTree.Displaced
  rw [h.children]

/-- The tree after the end of `rename`, and the cores its nodes have.  The
subtree of a node that is displaced and not exchanged goes. -/
structure Relinked (s s' : FileTree)
    (core : Id → Option (Stat × Option Nat × File)) (n fromParent toParent : Id)
    (sname tname : Name) (exchange : Bool) : Prop where
  root : s'.root = s.root
  cores : ∀ m, (exchange = false → ∀ old, s.Displaced n toParent tname old →
    ¬s.Below old m) → s'.core m = core m
  moved : s'.label n = some (tname, some toParent)
  exchanged : exchange = true → ∀ old, s.Displaced n toParent tname old →
    s'.label old = some (sname, some fromParent)
  label : ∀ m, m ≠ n → (∀ old, s.Displaced n toParent tname old →
    if exchange then m ≠ old else ¬s.Below old m) → s'.label m = s.label m
  same : ∀ dir, dir ≠ fromParent → dir ≠ toParent →
    (exchange = false → ∀ old, s.Displaced n toParent tname old →
      ¬s.Below old dir) → s'.children dir = s.children dir
  mem : ∀ dir name c, (exchange = false → ∀ old,
    s.Displaced n toParent tname old → ¬s.Below old dir) →
    ((name, c) ∈ s'.children dir ↔
      (dir = toParent ∧ name = tname ∧ c = n) ∨
      (exchange = true ∧ dir = fromParent ∧ name = sname ∧
        s.Displaced n toParent tname c) ∨
      ((name, c) ∈ s.children dir ∧ ¬(dir = fromParent ∧ name = sname) ∧
        ¬(dir = toParent ∧ name = tname)))
  gone : exchange = false → ∀ old, s.Displaced n toParent tname old →
    s'.nodes old = none ∧ (∀ handle ∈ s'.handles, handle.node ≠ some old) ∧
      s'.Uncached old

namespace Fs

open Program FileTree

variable {s s' : FileTree} {n fromParent toParent : Id} {source target : Path}
  {flags : Nat} {sname tname : Name} {env : Env}

/-- `Directory::insert` with `overwrite` takes out what it finds under the
name. -/
theorem insert_overwrite {node : Node} (hdir : s.isDir toParent)
    (hnode : s.nodes n = some node) :
    insert toParent n true s =
      some (.ok ((s.children toParent).lookup node.name),
        (s.apply (.detach toParent node.name)).apply (.attach toParent n)) := by
  unfold insert
  rw [bind_of_ok (directory_run hdir), bind_of_ok (deref_apply hnode)]
  cases hlookup : (s.children toParent).lookup node.name with
  | none =>
      rw [detach_of_not_mem (lookup_eq_none_iff.mp hlookup)]
      rfl
  | some old => rfl

theorem isDir_of_core (hcore : s'.core n = s.core n) :
    s'.isDir n = s.isDir n := by
  unfold FileTree.isDir
  unfold FileTree.core at hcore
  cases hs : s.nodes n with
  | none =>
      rw [hs] at hcore
      rw [Option.map_eq_none_iff.mp hcore]
  | some node =>
      rw [hs] at hcore
      obtain ⟨node', hnode', heq⟩ := Option.map_eq_some_iff.mp hcore
      rw [hnode']
      simp only [Prod.mk.injEq] at heq
      have hfile := congrArg File.isDirectory heq.2.2
      rw [isDirectory_setChildren, isDirectory_setChildren] at hfile
      exact hfile

theorem isDir_of_lookup {dir : Id} {name : Name}
    (hlookup : (s.children dir).lookup name = some n) : s.isDir dir := by
  cases hdir : s.nodes dir with
  | none =>
      rw [FileTree.children, hdir] at hlookup
      cases hlookup
  | some d =>
      rw [children_of_nodes hdir] at hlookup
      refine isDir_iff.mpr ⟨d, hdir, ?_⟩
      cases hfile : d.file with
      | directory children synced => rfl
      | _ =>
          rw [hfile] at hlookup
          cases hlookup

/-- What `Directory::insert` with `overwrite` leaves of the three views. -/
theorem insert_views {dir : Id} {name : Name} {parent : Option Id}
    (hdir : s.isDir dir) (hlabel : s.label n = some (name, parent))
    (hs' : s' = (s.apply (.detach dir name)).apply (.attach dir n)) :
    (∀ m, s'.children m = if m = dir then
      ((s.children dir).filter fun e => e.1 ≠ name) ++ [(name, n)]
      else s.children m) ∧ (∀ m, s'.label m = s.label m) ∧
      (∀ m, s'.core m = s.core m) ∧ s'.handles = s.handles ∧
      s'.cache = s.cache := by
  subst hs'
  obtain ⟨d, hd, hfile⟩ := isDir_iff.mp hdir
  have hd' : (s.apply (.detach dir name)).nodes dir = some _ :=
    nodes_modify_self hd
  have hlabel' : (s.apply (.detach dir name)).label n = some (name, parent) :=
    label_detach.trans hlabel
  obtain ⟨node, hnode, hname, -⟩ := label_eq_some.mp hlabel'
  refine ⟨fun m => ?_, fun m => ?_, fun m => ?_, ?_, ?_⟩
  · rw [children_attach hd' (by rw [isDirectory_setChildren]; exact hfile)
      hnode, children_detach, if_pos rfl, hname, children_detach]
    split_ifs <;> rfl
  · rw [label_attach, label_detach]
  · rw [core_attach, core_detach]
  · rw [handles_attach]
    rfl
  · rw [cache_apply (by intro c h; cases h), cache_apply (by intro c h; cases h)]

/-- The node is taken out of its directory and put into the other one. -/
theorem place_run {node : Node} (path : Path) (hcache : s.Caching)
    (hdir : s.isDir toParent) (hnode : s.nodes n = some node)
    (hlookup : (s.children fromParent).lookup sname = some n) :
    ∃ s₁ s₂ s₃, extract fromParent sname s = some (.ok (some n), s₁) ∧
      moveTo n toParent path s₁ = some (.ok (), s₂) ∧
      insert toParent n true s₂ = some (.ok ((if fromParent = toParent then
          (s.children toParent).filter fun e => e.1 ≠ sname
          else s.children toParent).lookup path.filename), s₃) ∧
      Placed s s₃ n fromParent toParent sname path.filename := by
  set s₁ := s.apply (.detach fromParent sname) with hs₁
  have hextract : extract fromParent sname s = some (.ok (some n), s₁) := by
    unfold extract
    rw [bind_of_ok (directory_run (isDir_of_lookup hlookup)), hlookup]
    rfl
  have hlabel₁ : s₁.label n = some (node.name, node.parent) :=
    label_detach.trans (label_eq hnode)
  obtain ⟨node₁, hnode₁, -⟩ := label_eq_some.mp hlabel₁
  have hcache₁ : s₁.Caching := hcache.congr rfl
  obtain ⟨s₂, hmove, hcache₂, hhandles₂, hroot₂, hchildren₂, hcore₂, hlabel₂⟩ :=
    moveTo_run hcache₁ hnode₁ toParent path
  have hlabel : s₂.label n = some (path.filename, some toParent) := by
    rw [hlabel₂, if_pos rfl]
  obtain ⟨node₂, hnode₂, hname₂, -⟩ := label_eq_some.mp hlabel
  have hdir₂ : s₂.isDir toParent := by
    rw [isDir_of_core ((hcore₂ toParent).trans core_detach)]
    exact hdir
  have hinsert := insert_overwrite hdir₂ hnode₂
  rw [hname₂] at hinsert
  have hlists : ∀ m, s₂.children m = if m = fromParent then
      (s.children fromParent).filter fun e => e.1 ≠ sname
      else s.children m := by
    intro m
    rw [hchildren₂, hs₁, children_detach]
  have hfound : s₂.children toParent = if fromParent = toParent then
      (s.children toParent).filter fun e => e.1 ≠ sname
      else s.children toParent := by
    rw [hlists]
    split_ifs with heq heq' heq'
    · rw [heq]
    · exact absurd heq.symm heq'
    · exact absurd heq'.symm heq
    · rfl
  obtain ⟨hchildren₃, hlabel₃, hcore₃, hhandles₃, hcache₃⟩ :=
    insert_views hdir₂ hlabel rfl
  rw [hfound] at hinsert
  refine ⟨s₁, s₂, _, hextract, hmove, hinsert, ?_⟩
  constructor
  · intro dir name c
    rw [hchildren₃]
    by_cases hto : dir = toParent <;> by_cases hfrom : dir = fromParent
    · rw [if_pos hto, ← hto, hlists, if_pos hfrom, ← hfrom]
      simp only [List.mem_append, List.mem_filter, List.mem_singleton,
        Prod.mk.injEq, ne_eq, decide_not, Bool.not_eq_true',
        decide_eq_false_iff_not, true_and]
      tauto
    · rw [if_pos hto, ← hto, hlists, if_neg hfrom]
      simp only [List.mem_append, List.mem_filter, List.mem_singleton,
        Prod.mk.injEq, ne_eq, decide_not, Bool.not_eq_true',
        decide_eq_false_iff_not, true_and, hfrom, false_and,
        not_false_eq_true]
      tauto
    · rw [if_neg hto, hlists, if_pos hfrom, ← hfrom]
      simp only [List.mem_filter, ne_eq, decide_not, Bool.not_eq_true',
        decide_eq_false_iff_not, true_and, hto, false_and, false_or,
        not_false_eq_true, and_true]
    · rw [if_neg hto, hlists, if_neg hfrom]
      simp only [hto, hfrom, false_and, false_or, not_false_eq_true, and_true]
  · intro dir hfrom hto
    rw [hchildren₃, if_neg hto, hlists, if_neg hfrom]
  · intro m
    rw [hlabel₃, hlabel₂, hs₁, label_detach]
  · intro m
    rw [hcore₃, hcore₂, hs₁, core_detach]
  · rw [root_apply, root_apply, hroot₂]
    rfl
  · rw [hhandles₃, hhandles₂]
    rfl
  · exact hcache₂.congr hcache₃

/-- Both directories are refreshed; labels and children stay as they are. -/
theorem refresh_run {d d' : Node} (hfrom : s.nodes fromParent = some d)
    (hto : s.nodes toParent = some d') :
    ∃ s₁ s₂, refreshStat env fromParent .omit .now s = some (.ok (), s₁) ∧
      refreshStat env toParent .omit .now s₁ = some (.ok (), s₂) ∧
      SameShape s s₂ ∧ s₂.handles = s.handles ∧ s₂.cache = s.cache ∧
      (∀ m, m ≠ fromParent → m ≠ toParent → s₂.core m = s.core m) ∧
      ∀ p, p = fromParent ∨ p = toParent → ∀ node, s.nodes p = some node →
        s₂.core p = some (node.stat.refresh .omit .now (env.system s.tick),
          node.expiration, node.file.setChildren []) := by
  have hrun₁ : refreshStat env fromParent .omit .now s = _ :=
    refreshStat_apply hfrom .omit .now
  set s₁ := s.apply (.setStat fromParent
    (d.stat.refresh .omit .now (env.system s.tick))) with hs₁
  have hnode₁ : ∀ m node, s.nodes m = some node → s₁.nodes m = some
      (if m = fromParent then { node with
        stat := node.stat.refresh .omit .now (env.system s.tick) }
        else node) := by
    intro m node hnode
    rw [hs₁, FileTree.apply, nodes_modify]
    split_ifs with hm
    · rw [hm] at hnode
      cases hfrom.symm.trans hnode
      rw [hfrom]
      rfl
    · exact hnode
  obtain ⟨d₁, hto₁, hd₁⟩ : ∃ d₁, s₁.nodes toParent = some d₁ ∧
      d₁.stat.refresh .omit .now (env.system s.tick) =
        d'.stat.refresh .omit .now (env.system s.tick) := by
    refine ⟨_, hnode₁ toParent d' hto, ?_⟩
    split_ifs <;> rfl
  have hrun₂ : refreshStat env toParent .omit .now s₁ = _ :=
    refreshStat_apply hto₁ .omit .now
  have htick : env.system s₁.tick = env.system s.tick := rfl
  rw [htick, hd₁] at hrun₂
  have hshape₁ : SameShape s s₁ := sameShape_apply rfl
  set s₂ := s₁.apply (.setStat toParent
    (d'.stat.refresh .omit .now (env.system s.tick))) with hs₂
  have hshape₂ : SameShape s₁ s₂ := sameShape_apply rfl
  refine ⟨s₁, s₂, hrun₁, hrun₂, hshape₁.trans hshape₂, rfl, rfl,
    fun m hmf hmt => ?_, fun p hp node hnode => ?_⟩
  · rw [FileTree.core, hs₂, FileTree.apply, nodes_modify, if_neg hmt, hs₁,
      FileTree.apply, nodes_modify, if_neg hmf]
    rfl
  · rw [FileTree.core, hs₂, FileTree.apply, nodes_modify]
    by_cases hpt : p = toParent
    · rw [hpt] at hnode
      cases hto.symm.trans hnode
      rw [if_pos hpt, hnode₁ toParent d' hto]
      split_ifs <;> rfl
    · have hpf := hp.resolve_right hpt
      rw [if_neg hpt, hnode₁ p node hnode, if_pos hpf]
      rfl

section Relink

variable {t : FileTree}

/-- What `insert` returns is the displaced node. -/
theorem found_iff (hwf : s.WellFormed) (hmem : (sname, n) ∈ s.children fromParent)
    {old : Id} : (if fromParent = toParent then
        (s.children toParent).filter fun e => e.1 ≠ sname
        else s.children toParent).lookup tname = some old ↔
      s.Displaced n toParent tname old := by
  have hnodup : ((if fromParent = toParent then
      (s.children toParent).filter fun e => e.1 ≠ sname
      else s.children toParent).map Prod.fst).Nodup := by
    split_ifs
    · exact (hwf.unique toParent).sublist (List.filter_sublist.map _)
    · exact hwf.unique toParent
  rw [lookup_iff_of_nodup hnodup]
  unfold Displaced
  split_ifs with heq
  · subst heq
    rw [List.mem_filter]
    constructor
    · rintro ⟨hold, hname⟩
      refine ⟨hold, ?_⟩
      rintro rfl
      exact absurd (hwf.listed_once hold hmem).1.symm (by simpa using hname)
    · rintro ⟨hold, hne⟩
      refine ⟨hold, ?_⟩
      simp only [ne_eq, decide_not, Bool.not_eq_true', decide_eq_false_iff_not]
      rintro rfl
      exact hne (hwf.same_child hmem hold)
  · constructor
    · intro hold
      refine ⟨hold, ?_⟩
      rintro rfl
      exact heq (hwf.listed_once hold hmem).2
    · exact fun h => h.1

theorem Displaced.unique (hwf : s.WellFormed) {old old' : Id}
    (h : s.Displaced n toParent tname old)
    (h' : s.Displaced n toParent tname old') : old' = old :=
  hwf.same_child h.1 h'.1

/-- No node was displaced: the end of `rename` is the placing. -/
theorem Placed.relinked (hplaced : Placed s t n fromParent toParent sname tname)
    (hnone : ∀ old, ¬s.Displaced n toParent tname old) :
    Relinked s t s.core n fromParent toParent sname tname false where
  root := hplaced.root
  cores := fun m _ => hplaced.core m
  moved := by
    rw [hplaced.label, if_pos rfl]
  exchanged := fun h => by cases h
  label := fun m hm _ => by rw [hplaced.label, if_neg hm]
  same := fun dir hfrom hto _ => hplaced.same dir hfrom hto
  mem := fun dir name c _ => by
    rw [hplaced.mem]
    simp
  gone := fun _ old hold => absurd hold (hnone old)

/-- Below a displaced node nothing has changed. -/
theorem Placed.below (hplaced : Placed s t n fromParent toParent sname tname)
    {old m : Id} (hfrom : ¬s.Below old fromParent)
    (hto : ¬s.Below old toParent) (hbelow : t.Below old m) : s.Below old m := by
  induction hbelow with
  | refl => exact .refl
  | @tail p c hp hc ih =>
      refine .tail ih ?_
      have hsame := hplaced.same p (by rintro rfl; exact hfrom ih)
        (by rintro rfl; exact hto ih)
      obtain ⟨name, hchild⟩ := mem_successors.mp hc
      rw [hsame] at hchild
      exact mem_successors.mpr ⟨name, hchild⟩

theorem mem_erase {handles : FileHandleStore} {handle : FileHandle} {m : Id}
    (hmem : handle ∈ handles.erase m) : handle.node ≠ some m := by
  obtain ⟨old, -, rfl⟩ := List.mem_map.mp hmem
  split_ifs with heq
  · intro hflag
    cases hflag
  · exact heq

/-- The displaced node is dropped. -/
theorem drop_run (hplaced : Placed s t n fromParent toParent sname tname)
    (hwf : s.WellFormed) {old : Id}
    (hold : s.Displaced n toParent tname old) (hfrom : ¬s.Below old fromParent)
    (hto : ¬s.Below old toParent) (hn : ¬s.Below old n) :
    ∃ s', (do
        invalidateOne old
        edit (.eraseHandles old)
        destroy old : Fs Unit) t = some (.ok (), s') ∧
      Relinked s s' s.core n fromParent toParent sname tname false := by
  obtain ⟨t₁, hrun, ht₁, -, huncached⟩ := invalidateOne_run hplaced.caching old
  set t₂ := t₁.apply (.eraseHandles old) with ht₂
  have hnodes : t₂.nodes = t.nodes := by
    rw [ht₂, ht₁]
    rfl
  have hwalk : t₂.walk old = t.walk old := by
    rw [ht₂, ht₁]
    rfl
  have hbelow : ∀ m, m ∈ t.walk old → s.Below old m := by
    intro m hm
    obtain ⟨a, ha, hbelow⟩ := Forest.below_of_mem_visit hm
    rw [List.mem_singleton.mp ha] at hbelow
    exact Placed.below hplaced hfrom hto hbelow
  have hkept : ∀ m, ¬s.Below old m →
      (t₂.apply (.destroy (t₂.walk old))).nodes m = t.nodes m := by
    intro m hm
    rw [hwalk]
    simp only [FileTree.apply]
    rw [if_neg fun h => hm (hbelow m h), hnodes]
  have hlabel : ∀ m, ¬s.Below old m →
      (t₂.apply (.destroy (t₂.walk old))).label m = t.label m := by
    intro m hm
    rw [FileTree.label, hkept m hm]
    rfl
  have hchildren : ∀ m, ¬s.Below old m →
      (t₂.apply (.destroy (t₂.walk old))).children m = t.children m :=
    fun m hm => children_congr (hkept m hm)
  rw [bind_of_ok hrun, bind_of_ok (edit_apply _ _), destroy_apply]
  refine ⟨_, rfl, ?_, ?_, ?_, ?_, ?_, ?_, ?_, ?_⟩
  · rw [root_apply, root_apply, ht₁]
    exact hplaced.root
  · intro m hm
    rw [FileTree.core, hkept m (hm rfl old hold)]
    exact hplaced.core m
  · rw [hlabel n hn, hplaced.label, if_pos rfl]
  · intro hflag
    cases hflag
  · intro m hm hm'
    rw [hlabel m (hm' old hold), hplaced.label, if_neg hm]
  · intro dir hdf hdt hdir
    rw [hchildren dir (hdir rfl old hold)]
    exact hplaced.same dir hdf hdt
  · intro dir name c hdir
    rw [hchildren dir (hdir rfl old hold), hplaced.mem]
    simp
  · intro _ old' hold'
    obtain rfl := Displaced.unique hwf hold hold'
    refine ⟨?_, ?_, ?_⟩
    · simp only [FileTree.apply]
      refine if_pos ?_
      unfold walk
      rw [Forest.visit]
      exact List.mem_cons_self
    · intro handle hhandle
      exact mem_erase hhandle
    · exact huncached

/-- The displaced node changes places with the other one. -/
theorem swap_run (hplaced : Placed s t n fromParent toParent sname tname)
    (hwf : s.WellFormed) {old : Id} {path : Path}
    (hpath : path.filename = sname)
    (hold : s.Displaced n toParent tname old) (hdir : s.isDir fromParent)
    (hplaces : ¬(fromParent = toParent ∧ sname = tname)) :
    ∃ s', (do
        moveTo old fromParent path
        let _ ← insert fromParent old false : Fs Unit) t = some (.ok (), s') ∧
      Relinked s s' s.core n fromParent toParent sname tname true := by
  have hlabel : t.label old = some (tname, some toParent) := by
    rw [hplaced.label, if_neg hold.2]
    exact hwf.label hold.1
  obtain ⟨onode, honode, -⟩ := label_eq_some.mp hlabel
  obtain ⟨t₁, hmove, -, -, hroot₁, hchildren₁, hcore₁, hlabel₁⟩ :=
    moveTo_run hplaced.caching honode fromParent path
  have hplace₁ : t₁.label old = some (sname, some fromParent) := by
    rw [hlabel₁, if_pos rfl, hpath]
  obtain ⟨onode₁, honode₁, hname₁, -⟩ := label_eq_some.mp hplace₁
  have hdir₁ : t₁.isDir fromParent := by
    rw [isDir_of_core ((hcore₁ fromParent).trans (hplaced.core fromParent))]
    exact hdir
  have hfree : sname ∉ (t₁.children fromParent).map Prod.fst := by
    intro hmem
    obtain ⟨⟨name, c⟩, hc, rfl⟩ := List.mem_map.mp hmem
    rw [hchildren₁, hplaced.mem] at hc
    rcases hc with ⟨hto, hname, -⟩ | ⟨-, hnot, -⟩
    · exact hplaces ⟨hto, hname⟩
    · exact hnot ⟨rfl, rfl⟩
  have hinsert : insert fromParent old false t₁ =
      some (.ok none, t₁.apply (.attach fromParent old)) := by
    unfold insert
    rw [bind_of_ok (directory_run hdir₁), bind_of_ok (deref_apply honode₁),
      hname₁, lookup_eq_none_iff.mpr hfree]
    rfl
  have hdetach : t₁.apply (.attach fromParent old) =
      (t₁.apply (.detach fromParent sname)).apply (.attach fromParent old) := by
    rw [detach_of_not_mem hfree]
  obtain ⟨hchildren₂, hlabel₂, hcore₂, -, -⟩ :=
    insert_views hdir₁ hplace₁ hdetach
  have hlist : ∀ dir name c, (name, c) ∈
      (t₁.apply (.attach fromParent old)).children dir ↔
      (dir = fromParent ∧ name = sname ∧ c = old) ∨
        (name, c) ∈ t.children dir := by
    intro dir name c
    rw [hchildren₂]
    split_ifs with hdirs
    · rw [List.filter_eq_self.mpr, List.mem_append, List.mem_singleton,
        hchildren₁, hdirs]
      · simp only [Prod.mk.injEq, true_and]
        exact or_comm
      · intro e he
        simp only [ne_eq, decide_not, Bool.not_eq_true',
          decide_eq_false_iff_not]
        intro heq
        exact hfree (List.mem_map.mpr ⟨e, he, heq⟩)
    · rw [hchildren₁]
      simp [hdirs]
  rw [bind_of_ok hmove, bind_of_ok hinsert]
  refine ⟨_, rfl, ?_, ?_, ?_, ?_, ?_, ?_, ?_, ?_⟩
  · rw [root_apply, hroot₁]
    exact hplaced.root
  · intro m _
    rw [hcore₂, hcore₁, hplaced.core]
  · rw [hlabel₂, hlabel₁, if_neg hold.2.symm, hplaced.label, if_pos rfl]
  · intro _ old' hold'
    obtain rfl := Displaced.unique hwf hold hold'
    rw [hlabel₂]
    exact hplace₁
  · intro m hm hm'
    have hne : m ≠ old := hm' old hold
    rw [hlabel₂, hlabel₁, if_neg hne, hplaced.label, if_neg hm]
  · intro dir hdf hdt _
    rw [hchildren₂, if_neg hdf, hchildren₁]
    exact hplaced.same dir hdf hdt
  · intro dir name c _
    rw [hlist, hplaced.mem]
    have hiff : s.Displaced n toParent tname c ↔ c = old := by
      constructor
      · exact fun hc => Displaced.unique hwf hold hc
      · rintro rfl
        exact hold
    rw [hiff]
    simp only [true_and]
    exact or_left_comm
  · intro hflag
    cases hflag

theorem relink_run (hwf : s.WellFormed) (hcache : s.Caching)
    (hmem : (source.filename, n) ∈ s.children fromParent)
    (hdir : s.isDir toParent)
    (hapart : ∀ old, s.Displaced n toParent target.filename old →
      ¬s.Below old fromParent ∧ ¬s.Below old toParent ∧ ¬s.Below old n)
    (hexchange : hasFlag flags renameExchange = true →
      ¬(fromParent = toParent ∧ source.filename = target.filename) ∧
        ∃ old, s.Displaced n toParent target.filename old) :
    ∃ s', relink fromParent toParent source target flags s =
        some (.ok (), s') ∧
      Relinked s s' s.core n fromParent toParent source.filename
        target.filename (hasFlag flags renameExchange) := by
  obtain ⟨node, hnode, -⟩ := hwf.listed hmem
  have hlookup := hwf.lookup_iff.mpr hmem
  obtain ⟨s₁, s₂, s₃, hextract, hmove, hinsert, hplaced⟩ :=
    place_run target hcache hdir hnode hlookup
  generalize hfound : (if fromParent = toParent then
      (s.children toParent).filter fun e => e.1 ≠ source.filename
      else s.children toParent).lookup target.filename = found at hinsert
  unfold relink
  rw [bind_of_ok hextract]
  dsimp only
  rw [bind_of_ok hmove, bind_of_ok hinsert]
  cases hflag : hasFlag flags renameExchange with
  | true =>
      obtain ⟨hplaces, old, hold⟩ := hexchange hflag
      rw [(found_iff hwf hmem).mpr hold] at hfound
      subst hfound
      rw [if_pos rfl]
      exact swap_run hplaced hwf rfl hold (isDir_of_lookup hlookup) hplaces
  | false =>
      rw [if_neg Bool.false_ne_true]
      cases found with
      | none =>
          refine ⟨s₃, rfl, Placed.relinked hplaced fun old hold => ?_⟩
          rw [(found_iff hwf hmem).mpr hold] at hfound
          cases hfound
      | some old =>
          have hold := (found_iff hwf hmem).mp hfound
          obtain ⟨hfrom, hto, hn⟩ := hapart old hold
          exact drop_run hplaced hwf hold hfrom hto hn

end Relink

/-- The outcome of `rename`: the node is at its new place with its subtree, the
node that was there is at the old place or gone, and nothing else has changed
but the timestamps of the two directories. -/
structure Renamed (env : Env) (s s' : FileTree) (n fromParent toParent : Id)
    (source target : Path) (flags : Nat) : Prop where
  moved : s'.resolve target = some n ∧ ∀ node, s.nodes n = some node →
    s'.nodes n = some { node with
      name := target.filename, parent := some toParent }
  subtree : ∀ m, s.Below n m → m ≠ n → s'.nodes m = s.nodes m
  exchanged : hasFlag flags renameExchange = true →
    ∀ old onode, (target.filename, old) ∈ s.children toParent →
    s.nodes old = some onode → s'.resolve source = some old ∧
      s'.nodes old = some { onode with
        name := source.filename, parent := some fromParent } ∧
      ∀ m, s.Below old m → m ≠ old → s'.nodes m = s.nodes m
  replaced : hasFlag flags renameExchange = false →
    (source ≠ target → s'.resolve source = none) ∧
    ∀ old, (target.filename, old) ∈ s.children toParent → old ≠ n →
      s'.nodes old = none ∧ (∀ handle ∈ s'.handles, handle.node ≠ some old) ∧
        s'.Uncached old
  others : ∀ m, m ≠ n → m ≠ fromParent → m ≠ toParent →
    (∀ old, (target.filename, old) ∈ s.children toParent → old ≠ n →
      if hasFlag flags renameExchange then m ≠ old else ¬s.Below old m) →
    s'.nodes m = s.nodes m
  parents : ∀ p, p = fromParent ∨ p = toParent → ∀ d, s.nodes p = some d →
    ∃ list, s'.nodes p = some { d with
        stat := d.stat.refresh .omit .now (env.system (s.tick + 1))
        file := d.file.setChildren list } ∧
      ∀ name c, ¬(p = fromParent ∧ name = source.filename) →
        ¬(p = toParent ∧ name = target.filename) →
        ((name, c) ∈ list ↔ (name, c) ∈ d.file.children)

/-- What the positions of the two paths give. -/
structure Apart (s : FileTree) (n fromParent toParent : Id) (tname : Name) :
    Prop where
  source : ¬s.Below n fromParent
  target : ¬s.Below n toParent
  displaced : ∀ old, s.Displaced n toParent tname old →
    ¬s.Below old fromParent ∧ ¬s.Below old toParent ∧ ¬s.Below old n ∧
      ¬s.Below n old

theorem Renaming.apart (hwf : s.WellFormed)
    (h : Renaming s n fromParent toParent source target flags) :
    Apart s n fromParent toParent target.filename := by
  have hfrom := inTree_of_resolve hwf h.fromAt
  have hto := inTree_of_resolve hwf h.toAt
  refine ⟨hfrom.not_below hwf h.mem, h.notBelow, fun old hold => ?_⟩
  have hparent := h.notAbove old hold.1 hold.2
  refine ⟨hparent, hto.not_below hwf hold.1, fun hbelow => ?_,
    fun hbelow => ?_⟩
  · -- The way from `old` down to `n` would lead through `fromParent`.
    rcases Relation.ReflTransGen.cases_tail hbelow with heq | ⟨p, hp, hchild⟩
    · exact hold.2 heq.symm
    · obtain ⟨name, hmem⟩ := mem_successors.mp hchild
      rw [(hwf.listed_once h.mem hmem).2] at hp
      exact hparent hp
  · rcases Relation.ReflTransGen.cases_tail hbelow with heq | ⟨p, hp, hchild⟩
    · exact hold.2 heq
    · obtain ⟨name, hmem⟩ := mem_successors.mp hchild
      rw [(hwf.listed_once hold.1 hmem).2] at hp
      exact h.notBelow hp

theorem Renaming.places (hwf : s.WellFormed)
    (h : Renaming s n fromParent toParent source target flags)
    (hne : source ≠ target) :
    ¬(fromParent = toParent ∧ source.filename = target.filename) := by
  rintro ⟨rfl, hname⟩
  obtain ⟨up, hway⟩ := hwf.way_of_resolve h.fromAt
  obtain ⟨up', hway'⟩ := hwf.way_of_resolve h.toAt
  obtain ⟨hparents, -⟩ := hway.unique hwf hway'
  apply hne
  rw [← Path.parentPath_filename h.source_ne,
    ← Path.parentPath_filename h.target_ne, hname, hparents]

theorem Renaming.displaced (hwf : s.WellFormed)
    (h : Renaming s n fromParent toParent source target flags)
    (hne : source ≠ target) {old : Id}
    (hmem : (target.filename, old) ∈ s.children toParent) :
    s.Displaced n toParent target.filename old := by
  refine ⟨hmem, fun hsame => ?_⟩
  rw [hsame] at hmem
  obtain ⟨hname, hdir⟩ := hwf.listed_once hmem h.mem
  exact Renaming.places hwf h hne ⟨hdir, hname⟩

/-- A node below `n` is not below a displaced one, nor the other way. -/
theorem Apart.not_both {tname : Name} (hwf : s.WellFormed)
    (h : Apart s n fromParent toParent tname) {old m : Id}
    (hold : s.Displaced n toParent tname old) (hn : s.Below n m) :
    ¬s.Below old m := by
  intro hbelow
  obtain ⟨-, -, hup, hdown⟩ := h.displaced old hold
  rcases Forest.Below.total hwf.isForest hn hbelow with hno | hon
  · exact hdown hno
  · exact hup hon

theorem Relinked.congr {t : FileTree} {sname tname : Name} {exchange : Bool}
    {core : Id → Option (Stat × Option Nat × File)} (hshape : SameShape s t)
    (h : Relinked t s' core n fromParent toParent sname tname exchange) :
    Relinked s s' core n fromParent toParent sname tname exchange := by
  have hroot := h.root
  have hcores := h.cores
  have hexchanged := h.exchanged
  have hlabel := h.label
  have hsame := h.same
  have hmem := h.mem
  have hgone := h.gone
  simp only [hshape.displaced, hshape.below, hshape.root, hshape.children,
    hshape.label] at hroot hcores hexchanged hlabel hsame hmem hgone
  exact ⟨hroot, hcores, h.moved, hexchanged, hlabel, hsame, hmem, hgone⟩

section Outcome

variable {core : Id → Option (Stat × Option Nat × File)}

/-- The directories on the way to a place that stays are as they were. -/
theorem Relinked.resolve_keep (hwf : s.WellFormed) (hwf' : s'.WellFormed)
    (h : Renaming s n fromParent toParent source target flags)
    (hlink : Relinked s s' core n fromParent toParent source.filename
      target.filename (hasFlag flags renameExchange))
    {path : Path} {m : Id} (hresolve : s.resolve path = some m)
    (hn : ¬s.Below n m)
    (hold : ∀ old, s.Displaced n toParent target.filename old →
      ¬s.Below old m) : s'.resolve path = some m := by
  refine FileTree.resolve_keep (P := fun c => ¬s.Below n c ∧ ∀ old,
    s.Displaced n toParent target.filename old → ¬s.Below old c) hwf hwf'
    hlink.root ?_ ?_ hresolve ⟨hn, hold⟩
  · rintro dir name c hmem ⟨hc, hcold⟩
    exact ⟨fun hb => hc (hb.child hmem),
      fun old hold hb => hcold old hold (hb.child hmem)⟩
  · rintro dir name c hmem ⟨hc, hcold⟩
    refine (hlink.mem dir name c fun _ old hold hb =>
      hcold old hold (hb.child hmem)).mpr (.inr (.inr ⟨hmem, ?_, ?_⟩))
    · rintro ⟨rfl, rfl⟩
      rw [hwf.same_child h.mem hmem] at hc
      exact hc .refl
    · rintro ⟨rfl, rfl⟩
      have hne : c ≠ n := by
        rintro rfl
        exact hc .refl
      exact hcold c ⟨hmem, hne⟩ .refl

/-- What stays as it is. -/
theorem Relinked.others
    (hcore : ∀ m, m ≠ fromParent → m ≠ toParent → core m = s.core m)
    (hlink : Relinked s s' core n fromParent toParent source.filename
      target.filename (hasFlag flags renameExchange)) {m : Id} (hn : m ≠ n)
    (hfrom : m ≠ fromParent) (hto : m ≠ toParent)
    (hold : ∀ old, s.Displaced n toParent target.filename old →
      if hasFlag flags renameExchange then m ≠ old else ¬s.Below old m) :
    s'.nodes m = s.nodes m := by
  have hkept : hasFlag flags renameExchange = false → ∀ old,
      s.Displaced n toParent target.filename old → ¬s.Below old m := by
    intro hflag old hdisplaced
    have hcond := hold old hdisplaced
    rw [hflag] at hcond
    exact hcond
  exact nodes_eq_of_views (hlink.label m hn hold)
    ((hlink.cores m hkept).trans (hcore m hfrom hto))
    (hlink.same m hfrom hto hkept)

/-- A directory keeps everything but its timestamps and the two entries. -/
theorem Relinked.parent (hlink : Relinked s s' core n fromParent toParent
      source.filename target.filename (hasFlag flags renameExchange))
    (hapart : Apart s n fromParent toParent target.filename) {p : Id}
    (hp : p = fromParent ∨ p = toParent) {d : Node} {stat : Stat}
    (hd : s.nodes p = some d)
    (hcore : core p = some (stat, d.expiration, d.file.setChildren [])) :
    ∃ list, s'.nodes p = some { d with
        stat := stat, file := d.file.setChildren list } ∧
      ∀ name c, ¬(p = fromParent ∧ name = source.filename) →
        ¬(p = toParent ∧ name = target.filename) →
        ((name, c) ∈ list ↔ (name, c) ∈ d.file.children) := by
  have hbelow : ∀ old, s.Displaced n toParent target.filename old →
      ¬s.Below old p := by
    intro old hold
    rcases hp with rfl | rfl
    · exact (hapart.displaced old hold).1
    · exact (hapart.displaced old hold).2.1
  have hne : p ≠ n := by
    rintro rfl
    rcases hp with rfl | rfl
    · exact hapart.source .refl
    · exact hapart.target .refl
  have hlabel : s'.label p = some (d.name, d.parent) := by
    rw [hlink.label p hne ?_, label_eq hd]
    intro old hold
    split_ifs
    · rintro rfl
      exact hbelow p hold .refl
    · exact hbelow old hold
  obtain ⟨d', hd', hname, hparent⟩ := label_eq_some.mp hlabel
  have hcore' := (hlink.cores p fun _ => hbelow).trans hcore
  rw [core_eq hd'] at hcore'
  simp only [Option.some.injEq, Prod.mk.injEq] at hcore'
  obtain ⟨hstat, hexpiration, hfile⟩ := hcore'
  refine ⟨s'.children p, ?_, fun name c hfrom hto => ?_⟩
  · have hvalue : d'.file = d.file.setChildren (s'.children p) := by
      rw [← setChildren_children d'.file, hfile, setChildren_idem,
        children_of_nodes hd']
    rw [hd', ← hname, ← hparent, ← hstat, ← hexpiration, ← hvalue]
  · rw [hlink.mem p name c fun _ => hbelow, ← children_of_nodes hd]
    constructor
    · rintro (⟨rfl, rfl, -⟩ | ⟨-, rfl, rfl, -⟩ | ⟨hmem, -⟩)
      · exact absurd ⟨rfl, rfl⟩ hto
      · exact absurd ⟨rfl, rfl⟩ hfrom
      · exact hmem
    · exact fun hmem => .inr (.inr ⟨hmem, hfrom, hto⟩)

/-- What is found at the end of a path whose directory stays. -/
theorem Relinked.resolve_iff (hwf' : s'.WellFormed)
    (hlink : Relinked s s' core n fromParent toParent source.filename
      target.filename (hasFlag flags renameExchange)) {path : Path}
    {dir c : Id} (hpath : path ≠ [])
    (hdir : s'.resolve path.parentPath = some dir)
    (hbelow : ∀ old, s.Displaced n toParent target.filename old →
      ¬s.Below old dir) : s'.resolve path = some c ↔
      (dir = toParent ∧ path.filename = target.filename ∧ c = n) ∨
      (hasFlag flags renameExchange = true ∧ dir = fromParent ∧
        path.filename = source.filename ∧
        s.Displaced n toParent target.filename c) ∨
      ((path.filename, c) ∈ s.children dir ∧
        ¬(dir = fromParent ∧ path.filename = source.filename) ∧
        ¬(dir = toParent ∧ path.filename = target.filename)) := by
  rw [resolve_eq_child hpath hdir, child_eq_lookup, hwf'.lookup_iff]
  exact hlink.mem dir path.filename c fun _ => hbelow

theorem Relinked.renamed (hwf : s.WellFormed) (hwf' : s'.WellFormed)
    (h : Renaming s n fromParent toParent source target flags)
    (hcore : ∀ m, m ≠ fromParent → m ≠ toParent → core m = s.core m)
    (hparents : ∀ p, p = fromParent ∨ p = toParent → ∀ node,
      s.nodes p = some node → core p =
        some (node.stat.refresh .omit .now (env.system (s.tick + 1)),
          node.expiration, node.file.setChildren []))
    (hlink : Relinked s s' core n fromParent toParent source.filename
      target.filename (hasFlag flags renameExchange)) :
    Renamed env s s' n fromParent toParent source target flags := by
  have hapart := Renaming.apart hwf h
  have hnf : n ≠ fromParent := by
    rintro rfl
    exact hapart.source .refl
  have hnt : n ≠ toParent := by
    rintro rfl
    exact hapart.target .refl
  have hfrom : s'.resolve source.parentPath = some fromParent :=
    Relinked.resolve_keep hwf hwf' h hlink h.fromAt hapart.source
      fun old hold => (hapart.displaced old hold).1
  have hto : s'.resolve target.parentPath = some toParent :=
    Relinked.resolve_keep hwf hwf' h hlink h.toAt hapart.target
      fun old hold => (hapart.displaced old hold).2.1
  have hatSource : ∀ {c}, s'.resolve source = some c ↔ _ :=
    Relinked.resolve_iff hwf' hlink h.source_ne hfrom
      fun old hold => (hapart.displaced old hold).1
  constructor
  · refine ⟨?_, fun node hnode => ?_⟩
    · refine (Relinked.resolve_iff hwf' hlink h.target_ne hto
        fun old hold => (hapart.displaced old hold).2.1).mpr ?_
      exact .inl ⟨rfl, rfl, rfl⟩
    · have hkept : hasFlag flags renameExchange = false → ∀ old,
          s.Displaced n toParent target.filename old → ¬s.Below old n :=
        fun _ old hold => (hapart.displaced old hold).2.2.1
      exact node_of_views hnode hlink.moved
        ((hlink.cores n hkept).trans (hcore n hnf hnt))
        (hlink.same n hnf hnt hkept)
  · intro m hm hne
    refine Relinked.others hcore hlink hne ?_ ?_ fun old hold => ?_
    · rintro rfl
      exact hapart.source hm
    · rintro rfl
      exact hapart.target hm
    · split_ifs
      · rintro rfl
        exact (hapart.displaced m hold).2.2.2 hm
      · exact Apart.not_both hwf hapart hold hm
  · intro hflag old onode hmem honode
    have hold := Renaming.displaced hwf h (h.exchange hflag).1 hmem
    obtain ⟨hof, hot, hon, -⟩ := hapart.displaced old hold
    have hkept : ∀ m, hasFlag flags renameExchange = false → ∀ old',
        s.Displaced n toParent target.filename old' → ¬s.Below old' m := by
      intro m hfalse
      rw [hflag] at hfalse
      cases hfalse
    have hne : old ≠ fromParent ∧ old ≠ toParent := by
      constructor
      · rintro rfl
        exact hof .refl
      · rintro rfl
        exact hot .refl
    refine ⟨?_, ?_, fun m hm hmne => ?_⟩
    · exact hatSource.mpr (.inr (.inl ⟨hflag, rfl, rfl, hold⟩))
    · exact node_of_views honode (hlink.exchanged hflag old hold)
        ((hlink.cores old (hkept old)).trans (hcore old hne.1 hne.2))
        (hlink.same old hne.1 hne.2 (hkept old))
    · refine Relinked.others hcore hlink ?_ ?_ ?_ fun old' hold' => ?_
      · rintro rfl
        exact hon hm
      · rintro rfl
        exact hof hm
      · rintro rfl
        exact hot hm
      · rw [if_pos hflag, Displaced.unique hwf hold hold']
        exact hmne
  · intro hflag
    refine ⟨fun hne => ?_, fun old hmem hold => hlink.gone hflag old
      ⟨hmem, hold⟩⟩
    have hplaces := Renaming.places hwf h hne
    cases hsource : s'.resolve source with
    | none => rfl
    | some c =>
        rcases hatSource.mp hsource with ⟨hdir, hname, -⟩ | ⟨htrue, -⟩ | hkept
        · exact absurd ⟨hdir, hname⟩ hplaces
        · rw [hflag] at htrue
          cases htrue
        · exact absurd ⟨rfl, rfl⟩ hkept.2.1
  · intro m hm hmf hmt hold
    exact Relinked.others hcore hlink hm hmf hmt
      fun old hdisplaced => hold old hdisplaced.1 hdisplaced.2
  · intro p hp d hd
    exact Relinked.parent hlink hapart hp hd (hparents p hp d hd)

end Outcome

/-- The end of `rename` moves one subtree. -/
theorem renameAt_run (hwf : s.WellFormed) (hcache : s.Caching)
    (h : Renaming s n fromParent toParent source target flags)
    (hanswer : env.answer s.tick (.rename source target flags) = .ok ()) :
    ∃ s', renameAt env fromParent toParent source target flags s =
        some (.ok (), s') ∧
      Renamed env s s' n fromParent toParent source target flags := by
  obtain ⟨d, hd, -⟩ := mem_children.mp h.mem
  obtain ⟨d', hd', hdirectory⟩ := isDir_iff.mp h.dir
  have hreq := request_apply env (.rename source target flags) s
  rw [hanswer] at hreq
  set s₀ := s.apply (.clock (env.delay s.tick)) with hs₀
  obtain ⟨s₁, t, hrun₁, hrun₂, hshape, -, htcache, hcore, hparents⟩ :=
    refresh_run (s := s₀) hd hd'
  have hshape' : SameShape s t :=
    (sameShape_apply (e := .clock (env.delay s.tick)) rfl).trans hshape
  have hapart := Renaming.apart hwf h
  have hmem : (source.filename, n) ∈ t.children fromParent := by
    rw [hshape'.children]
    exact h.mem
  have hdir : t.isDir toParent := by
    obtain ⟨dt, hdt, heq⟩ := hshape'.symm.node hd'
    simp only [Node.shape, Prod.mk.injEq] at heq
    exact isDir_iff.mpr ⟨dt, hdt, heq.2.2.2 ▸ hdirectory⟩
  have hdisplaced : ∀ old, t.Displaced n toParent target.filename old →
      ¬t.Below old fromParent ∧ ¬t.Below old toParent ∧ ¬t.Below old n := by
    intro old hold
    rw [hshape'.displaced] at hold
    rw [hshape'.below]
    obtain ⟨hof, hot, hon, -⟩ := hapart.displaced old hold
    exact ⟨hof, hot, hon⟩
  have hexchange : hasFlag flags renameExchange = true →
      ¬(fromParent = toParent ∧ source.filename = target.filename) ∧
        ∃ old, t.Displaced n toParent target.filename old := by
    intro hflag
    obtain ⟨hne, old, hold⟩ := h.exchange hflag
    refine ⟨Renaming.places hwf h hne, old, ?_⟩
    rw [hshape'.displaced]
    exact Renaming.displaced hwf h hne hold
  obtain ⟨s', hrun₃, hlink⟩ := relink_run (hwf.congr hshape')
    (hcache.congr htcache) hmem hdir hdisplaced hexchange
  have hrun : renameAt env fromParent toParent source target flags s =
      some (.ok (), s') := by
    rw [renameAt, bind_of_ok hreq, bind_of_ok hrun₁, bind_of_ok hrun₂, hrun₃]
  refine ⟨s', hrun, ?_⟩
  have hwf' : s'.WellFormed := by
    have hgood : s.Good ((Op.rename source target flags).ctx env s) :=
      hwf.good (.refl s)
    have hobeys : (renameAt env fromParent toParent source target flags).Obeys
        ((Op.rename source target flags).ctx env s).discipline s _ :=
      obeys_renameAt (.inl (inTree_of_resolve hwf h.fromAt))
        (.inl (inTree_of_resolve hwf h.toAt)) (hwf.valid h.mem) h.valid
    exact ((hobeys hgood _ _ hrun).1.good hgood).wf
  exact Relinked.renamed hwf hwf' h hcore hparents
    (Relinked.congr hshape' hlink)

/-- The lookups at the start of `rename` have succeeded in `t`. -/
def RenameLookups (env : Env) (s t : FileTree) (n fromParent toParent : Id)
    (source target : Path) (flags : Nat) : Prop :=
  ∃ s₁ s₂ list, traverseOrBuild env source s = some (.ok n, s₁) ∧
    parentOf n s₁ = some (.ok fromParent, s₁) ∧
    traverseOrBuild env target.parentPath s₁ = some (.ok toParent, s₂) ∧
    asDirectory toParent s₂ = some (.ok list, s₂) ∧
    renameCheck env target flags s₂ = some (.ok (), t)

/-- The lookups of `rename`, one after another. -/
def renameLookups (env : Env) (source target : Path) (flags : Nat) :
    Fs (Id × Id) := do
  let n ← traverseOrBuild env source
  let fromParent ← parentOf n
  let toParent ← traverseOrBuild env target.parentPath
  let _ ← asDirectory toParent
  renameCheck env target flags
  return (fromParent, toParent)

theorem RenameLookups.run {t : FileTree}
    (h : RenameLookups env s t n fromParent toParent source target flags) :
    renameLookups env source target flags s =
      some (.ok (fromParent, toParent), t) := by
  obtain ⟨s₁, s₂, list, hsource, hparent, htarget, hdir, hcheck⟩ := h
  rw [renameLookups, bind_of_ok hsource, bind_of_ok hparent,
    bind_of_ok htarget, bind_of_ok hdir, bind_of_ok hcheck]
  rfl

/-- `rename` moves one subtree: the outcome is measured against the tree its
lookups have left. -/
theorem rename_moves {t : FileTree}
    (hlookups : RenameLookups env s t n fromParent toParent source target flags)
    (hwf : t.WellFormed) (hcache : t.Caching)
    (h : Renaming t n fromParent toParent source target flags)
    (hanswer : env.answer t.tick (.rename source target flags) = .ok ()) :
    ∃ s', rename env source target flags s = some (.ok (), s') ∧
      Renamed env t s' n fromParent toParent source target flags := by
  obtain ⟨s₁, s₂, list, hsource, hparent, htarget, hdir, hcheck⟩ := hlookups
  obtain ⟨s', hrun, hrenamed⟩ := renameAt_run hwf hcache h hanswer
  refine ⟨s', ?_, hrenamed⟩
  have hne : (!source.isEmpty) = true := by
    cases source with
    | nil => exact absurd rfl h.source_ne
    | cons name rest => rfl
  have hrequire : require (!source.isEmpty) Errc.operationNotSupported s =
      some (.ok (), s) := by
    rw [hne]
    rfl
  rw [rename, bind_of_ok hrequire, bind_of_ok hsource, bind_of_ok hparent,
    bind_of_ok htarget, bind_of_ok hdir, bind_of_ok hcheck, hrun]

/-- `rename` of a directory over another one. -/
theorem rename_moves_over : ∃ s s' : FileTree,
    s.children ⟨1⟩ = [("a", ⟨2⟩), ("b", ⟨3⟩)] ∧
      rename (.ofMode sIfdir) ["a"] ["b"] 0 s = some (.ok (), s') ∧
      s'.resolve ["b"] = some ⟨2⟩ ∧ s'.resolve ["a"] = none ∧
      s'.nodes ⟨3⟩ = none := by
  have hruns : ∃ s, Runs step Proper (create none none)
      [(.mkdir ["a"] 0, .ofMode sIfdir), (.mkdir ["b"] 0, .ofMode sIfdir)] s ∧
      s.cache = none ∧ s.children ⟨1⟩ = [("a", ⟨2⟩), ("b", ⟨3⟩)] ∧
      s.root = ⟨1⟩ ∧ s.isDir ⟨1⟩ = true ∧
      RenameLookups (.ofMode sIfdir) s s ⟨2⟩ ⟨1⟩ ⟨1⟩ ["a"] ["b"] 0 :=
    ⟨_, .cons rfl ⟨⟨by decide, by decide⟩, Env.proper_ofMode _⟩
      (.cons rfl ⟨⟨by decide, by decide⟩, Env.proper_ofMode _⟩ (.nil _)),
      rfl, rfl, rfl, rfl, _, _, _, rfl, rfl, rfl, rfl, rfl⟩
  obtain ⟨s, hs, hnone, hchildren, hroot, hdir, hlookups⟩ := hruns
  have hwf := wellFormed_of_runs hs
  have hcache : s.Caching := by
    intro c hc
    cases hnone.symm.trans hc
  have hin : s.InTree ⟨1⟩ := by
    rw [← hroot]
    exact .root
  have ha : ("a", (⟨2⟩ : Id)) ∈ s.children ⟨1⟩ := by
    rw [hchildren]
    exact List.mem_cons_self
  have hb : ("b", (⟨3⟩ : Id)) ∈ s.children ⟨1⟩ := by
    rw [hchildren]
    exact List.mem_cons_of_mem _ List.mem_cons_self
  have hrenaming : Renaming s ⟨2⟩ ⟨1⟩ ⟨1⟩ ["a"] ["b"] 0 := by
    constructor
    · exact List.cons_ne_nil _ _
    · exact List.cons_ne_nil _ _
    · decide
    · exact congrArg some hroot
    · exact congrArg some hroot
    · exact ha
    · exact hdir
    · exact hin.not_below hwf ha
    · intro old hold _
      exact hin.not_below hwf hold
    · intro hflag
      cases hflag
  obtain ⟨s', hrun, hrenamed⟩ :=
    rename_moves hlookups hwf hcache hrenaming rfl
  obtain ⟨hsource, hgone⟩ := hrenamed.replaced rfl
  exact ⟨s, s', hchildren, hrun, hrenamed.moved.1, hsource (by decide),
    (hgone ⟨3⟩ hb (by decide)).1⟩

end Fs

end Madbfs
