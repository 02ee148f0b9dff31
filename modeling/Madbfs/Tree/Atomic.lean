/-
The operations that change the names of a directory, after their lookups.  When
the device refuses, nothing may have changed; when it agrees, the timestamps of
the directories are those of the moment.  `rmdir` and `rename` do so.  `mknod`,
`mkdir` and `unlink` refresh the directory when the device refuses, and do not
when it agrees.
-/
import Madbfs.Tree.Caching

namespace Madbfs

/-- The same value, but for the order in which the children are listed. -/
def File.Same : File → File → Prop
  | .directory children synced, .directory children' synced' =>
      children.Perm children' ∧ synced = synced'
  | file, file' => file = file'

/-- The same node, but for the order in which its children are listed. -/
structure Node.Same (node node' : Node) : Prop where
  parent : node'.parent = node.parent
  name : node'.name = node.name
  stat : node'.stat = node.stat
  expiration : node'.expiration = node.expiration
  file : node.file.Same node'.file

theorem File.Same.refl (file : File) : file.Same file := by
  cases file with
  | directory children synced => exact ⟨.refl _, rfl⟩
  | _ => exact rfl

theorem Node.Same.refl (node : Node) : node.Same node :=
  ⟨rfl, rfl, rfl, rfl, .refl node.file⟩

theorem Stat.refresh_eq_iff {stat : Stat} {time : Timespec} :
    stat.refresh .omit .now time = stat ↔
      stat.mtime = time ∧ stat.ctime = time := by
  cases stat
  simp [Stat.refresh, eq_comm]

namespace FileTree

/-- The tree, the handles and the cache are as they were. -/
structure Untouched (s s' : FileTree) : Prop where
  root : s'.root = s.root
  handles : s'.handles = s.handles
  cache : s'.cache = s.cache
  nodes : ∀ n, Option.Rel Node.Same (s.nodes n) (s'.nodes n)

/-- Modification and change time of the node are this time. -/
def Stamped (s : FileTree) (time : Timespec) (n : Id) : Prop :=
  ∀ node, s.nodes n = some node →
    node.stat.mtime = time ∧ node.stat.ctime = time

/-- The stat of a node, if it is there. -/
def statOf (s : FileTree) (n : Id) : Option Stat :=
  (s.nodes n).map Node.stat

section Stats

variable {s s' : FileTree} {n m dir : Id} {name : Name} {time : Timespec}

theorem stamped_iff : s.Stamped time n ↔ ∀ stat, s.statOf n = some stat →
    stat.mtime = time ∧ stat.ctime = time := by
  unfold Stamped statOf
  cases s.nodes n with
  | none => simp
  | some node => simp

theorem statOf_modify {f : Node → Node}
    (hf : ∀ node, (f node).stat = node.stat) :
    (s.modify m f).statOf n = s.statOf n := by
  unfold statOf
  rw [nodes_modify]
  split_ifs with hn
  · subst hn
    cases s.nodes n with
    | none => rfl
    | some node => exact congrArg some (hf node)
  · rfl

theorem statOf_attach : (s.apply (.attach dir m)).statOf n = s.statOf n := by
  rw [apply, attach]
  split
  · rfl
  · exact statOf_modify fun _ => rfl

theorem statOf_detach : (s.apply (.detach dir name)).statOf n = s.statOf n :=
  statOf_modify fun _ => rfl

theorem statOf_destroy {ns : List Id} (hn : n ∉ ns) :
    (s.apply (.destroy ns)).statOf n = s.statOf n := by
  unfold statOf
  simp only [apply, if_neg hn]

/-- The stats are kept, though nodes may go. -/
def keepStats : Discipline FileTree where
  holds := fun _ => True
  rel := fun s s' => ∀ n stat, s'.statOf n = some stat →
    s.statOf n = some stat
  refl := fun _ _ _ hstat => hstat
  trans := fun hleft hright n stat hstat => hleft n stat (hright n stat hstat)
  keeps := fun _ _ => trivial

theorem Stamped.keep (h : s.Stamped time n) (hkeep : keepStats.rel s s') :
    s'.Stamped time n := by
  rw [stamped_iff] at *
  exact fun stat hstat => h stat (hkeep n stat hstat)

/-- The changes that do not touch the stats. -/
def Edit.keepsStats : Edit → Bool
  | .alloc _ _ | .convert _ _ _ | .setStat _ _ => false
  | _ => true

theorem keepStats_apply {e : Edit} (he : Edit.keepsStats e = true) :
    keepStats.rel s (s.apply e) := by
  intro n stat hstat
  obtain ⟨node', hnode', rfl⟩ := Option.map_eq_some_iff.mp hstat
  rcases node_apply hnode' with rfl | ⟨node, hnode, rfl⟩
  · cases he
  · rw [statOf, hnode]
    refine congrArg some ?_
    cases e with
    | alloc | convert | setStat => cases he
    | attach dir m =>
        simp only [onNode]
        split
        · rfl
        · split_ifs <;> rfl
    | clock | store | release | eraseHandles | cache | markInitialized
    | destroy => rfl
    | _ =>
        simp only [onNode]
        split_ifs <;> rfl

end Stats

theorem walk_leaf {s : FileTree} {n : Id} (hleaf : s.children n = []) :
    s.walk n = [n] := by
  have hnone : s.successors n = [] := by
    unfold successors
    rw [hleaf]
    rfl
  unfold walk
  rw [Forest.visit, hnone]
  cases s.nextId <;> rfl

/-- A refreshed stat shows, unless it was up to date. -/
theorem untouched_setStat_iff {s : FileTree} {n : Id} {node : Node}
    {delay : Nat} {stat : Stat} (hnode : s.nodes n = some node) :
    s.Untouched ((s.apply (.clock delay)).apply (.setStat n stat)) ↔
      stat = node.stat := by
  have hnode' : ((s.apply (.clock delay)).apply (.setStat n stat)).nodes n =
      some { node with stat := stat } :=
    nodes_modify_self (s := s.apply (.clock delay)) hnode
  constructor
  · intro h
    have hsame := h.nodes n
    rw [hnode, hnode'] at hsame
    cases hsame with
    | some hsame => exact hsame.stat
  · rintro rfl
    refine ⟨rfl, rfl, rfl, fun m => ?_⟩
    have hnodes : ((s.apply (.clock delay)).apply
        (.setStat n node.stat)).nodes m = s.nodes m := by
      by_cases hm : m = n
      · subst hm
        rw [hnode', hnode]
      · exact Function.update_of_ne hm _ _
    rw [hnodes]
    cases s.nodes m with
    | none => exact .none
    | some node' => exact .some (.refl node')

end FileTree

namespace Fs

open Program FileTree

variable {s s' : FileTree} {n m dir : Id} {name : Name} {path : Path}
  {env : Env} {time : Timespec}

section Keep

theorem keeps_edit {e : Edit} (he : Edit.keepsStats e = true) :
    (edit e).Obeys keepStats s fun _ _ => True :=
  Obeys.change (fun _ => keepStats_apply he) fun _ => trivial

theorem keeps_deref : (deref n).Obeys keepStats s fun _ _ => True := by
  intro _ r s' hrun
  unfold deref at hrun
  split at hrun
  · cases hrun
  · cases hrun
    exact ⟨keepStats.refl _, fun _ _ => trivial⟩

theorem keeps_directory : (directory dir).Obeys keepStats s
    fun _ _ => True := by
  apply Obeys.bind keeps_deref
  intro node s₁ _ _ _
  split
  · exact Obeys.pure fun _ => trivial
  · exact Obeys.wrong

theorem keeps_destroy : (destroy n).Obeys keepStats s fun _ _ => True :=
  Obeys.bind_state (keeps_edit rfl)

theorem keeps_invalidateOne : (invalidateOne n).Obeys keepStats s
    fun _ _ => True := by
  intro _ r s' hrun
  refine ⟨fun m stat hstat => ?_, fun _ _ => trivial⟩
  rw [statOf, (invalidateOne_cases hrun).2.nodes] at hstat
  exact hstat

theorem keeps_extract : (extract dir name).Obeys keepStats s
    fun _ _ => True := by
  apply Obeys.bind keeps_directory
  intro list s₁ _ _ _
  split
  · exact Obeys.pure fun _ => trivial
  · apply Obeys.bind (keeps_edit rfl)
    exact fun _ _ _ _ _ => Obeys.pure fun _ => trivial

theorem keeps_insert {overwrite : Bool} :
    (insert dir n overwrite).Obeys keepStats s fun _ _ => True := by
  apply Obeys.bind keeps_directory
  intro list s₁ _ _ _
  apply Obeys.bind keeps_deref
  intro node s₂ _ _ _
  split
  · apply Obeys.bind (keeps_edit rfl)
    exact fun _ _ _ _ _ => Obeys.pure fun _ => trivial
  · split_ifs
    · apply Obeys.bind (keeps_edit rfl)
      intro _ s₃ _ _ _
      apply Obeys.bind (keeps_edit rfl)
      exact fun _ _ _ _ _ => Obeys.pure fun _ => trivial
    · apply Obeys.bind keeps_destroy
      exact fun _ _ _ _ _ => Obeys.fail

theorem keeps_moveTo : (moveTo n dir path).Obeys keepStats s
    fun _ _ => True := by
  refine Obeys.bind (Q := fun _ _ => True) ?_ fun _ s₁ _ _ _ => ?_
  · apply Obeys.bind_state
    split
    · exact Obeys.pure fun _ => trivial
    · exact keeps_edit rfl
  · apply Obeys.bind (keeps_edit rfl)
    exact fun _ _ _ _ _ => keeps_edit rfl

end Keep

/-- A refresh stamps its directory and leaves the others as they are. -/
theorem stamped_refreshStat {r : Except Errc Unit}
    (hrun : refreshStat env n .omit .now s = some (r, s')) :
    s'.tick = s.tick ∧ s'.Stamped (env.system s.tick) n ∧
      ∀ m, s.Stamped (env.system s.tick) m →
        s'.Stamped (env.system s.tick) m := by
  obtain ⟨node, hnode, -, rfl⟩ := refreshStat_cases hrun
  have hstamped : (s.apply (.setStat n (node.stat.refresh .omit .now
      (env.system s.tick)))).Stamped (env.system s.tick) n := by
    intro node' hnode'
    rw [FileTree.apply, nodes_modify_self hnode] at hnode'
    cases hnode'
    exact ⟨rfl, rfl⟩
  refine ⟨rfl, hstamped, fun m hm => ?_⟩
  by_cases heq : m = n
  · rw [heq]
    exact hstamped
  · intro node' hnode'
    rw [FileTree.apply, nodes_modify, if_neg heq] at hnode'
    exact hm node' hnode'

theorem asDirectory_cases {list : List (Name × Id)}
    (hrun : asDirectory n s = some (.ok list, s')) :
    ∃ node synced, s.nodes n = some node ∧
      node.file = .directory list synced := by
  unfold asDirectory at hrun
  obtain ⟨node, hnode, hrun⟩ := bind_deref_cases hrun
  cases hfile : node.file with
  | directory children synced =>
      rw [hfile] at hrun
      cases hrun
      exact ⟨node, synced, hnode, hfile⟩
  | _ =>
      rw [hfile] at hrun
      cases hrun

/-- What `vacancy` has seen. -/
theorem vacancy_cases {parent : Id} {overwrite : Bool}
    (hrun : vacancy parent name s = some (.ok overwrite, s')) :
    ∃ node list synced, s.nodes parent = some node ∧
      node.file = .directory list synced ∧ (list.lookup name = none ∨
        overwrite = true ∧ ∃ old onode, list.lookup name = some old ∧
          s.nodes old = some onode ∧ onode.file.isError = true) := by
  unfold vacancy at hrun
  rcases bind_cases hrun with ⟨err, -, herr⟩ | ⟨list, s₁, hdir, hrest⟩
  · cases herr
  · obtain ⟨node, synced, hnode, hfile⟩ := asDirectory_cases hdir
    have hs₁ : s₁ = s := by
      unfold asDirectory at hdir
      rw [bind_of_ok (deref_apply hnode), hfile] at hdir
      cases hdir
      rfl
    subst hs₁
    refine ⟨node, list, synced, hnode, hfile, ?_⟩
    cases hlookup : list.lookup name with
    | none => exact .inl rfl
    | some old =>
        rw [hlookup] at hrest
        dsimp only at hrest
        refine .inr ?_
        obtain ⟨onode, hold, hrest⟩ := bind_deref_cases hrest
        cases herror : onode.file.isError with
        | false =>
            rw [herror] at hrest
            cases hrest
        | true =>
            rw [herror] at hrest
            cases hrest
            exact ⟨rfl, old, onode, rfl, hold, herror⟩

end Fs

/-- A call of one of the operations, where its lookups have found what it works
on. -/
inductive NameOp where
  | mknod (parent : Id) (path : Path) (mode dev : Nat) (overwrite : Bool)
  | mkdir (parent : Id) (path : Path) (mode : Nat) (overwrite : Bool)
  | unlink (parent n : Id) (path : Path)
  | rmdir (parent target : Id) (path : Path)
  | rename (n fromParent toParent : Id) (source target : Path) (flags : Nat)

namespace NameOp

open Program FileTree Fs

/-- What the lookups have found. -/
def Ready (s : FileTree) : NameOp → Prop
  | .mknod parent path _ _ overwrite | .mkdir parent path _ overwrite =>
      vacancy parent path.filename s = some (.ok overwrite, s)
  | .unlink parent n path =>
      traverseNode parent path.filename s = some (.ok n, s) ∧
        ∃ node, s.nodes n = some node ∧ node.file.isDirectory = false
  | .rmdir parent target path =>
      traverseNode parent path.filename s = some (.ok target, s) ∧
        ∃ list, asDirectory target s = some (.ok list, s) ∧
          allErrors s list = true
  | .rename n fromParent toParent _ _ _ =>
      parentOf n s = some (.ok fromParent, s) ∧
        ∃ list, asDirectory toParent s = some (.ok list, s)

/-- The rest of the call. -/
def body (env : Env) : NameOp → Fs Unit
  | .mknod parent path mode dev overwrite => do
      let _ ← mknodAt env parent path mode dev overwrite
  | .mkdir parent path mode overwrite => do
      let _ ← mkdirAt env parent path mode overwrite
  | .unlink parent n path => unlinkAt env parent n path
  | .rmdir parent _ path => rmdirAt env parent path
  | .rename _ fromParent toParent source target flags =>
      renameAt env fromParent toParent source target flags

/-- The request for the operation. -/
def request : NameOp → Req Unit
  | .mknod _ path mode dev _ => .mknod path mode dev
  | .mkdir _ path mode _ => .mkdir path mode
  | .unlink _ _ path => .unlink path
  | .rmdir _ _ path => .rmdir path
  | .rename _ _ _ source target flags => .rename source target flags

def parents : NameOp → List Id
  | .mknod parent _ _ _ _ | .mkdir parent _ _ _ | .unlink parent _ _
  | .rmdir parent _ _ => [parent]
  | .rename _ fromParent toParent _ _ _ => [fromParent, toParent]

/-- The time at which the device has answered. -/
def time (env : Env) (s : FileTree) : Timespec :=
  env.system (s.tick + 1)

/-- `rmdir` and `rename`. -/
def refreshes : NameOp → Bool
  | .rmdir _ _ _ | .rename _ _ _ _ _ _ => true
  | _ => false

section Calls

variable {env : Env} {s : FileTree} {parent n : Id} {path : Path}
  {req : Req Unit} {err : Errc} {d : Node}

/-- `mknod` and `mkdir` refresh their directory when the device refuses. -/
theorem createAt_refused {file : File} {overwrite : Bool}
    (hparent : s.nodes parent = some d)
    (hanswer : env.answer s.tick req = .error err) :
    createAt env req file parent path overwrite s = some (.error err,
      (s.apply (.clock (env.delay s.tick))).apply (.setStat parent
        (d.stat.refresh .omit .now (time env s)))) := by
  have hout := outcome_apply (request_apply env req s)
  rw [hanswer] at hout
  have hparent' : (s.apply (.clock (env.delay s.tick))).nodes parent =
      some d := hparent
  rw [createAt, bind_of_ok hout]
  dsimp only
  rw [bind_of_ok (refreshStat_apply hparent' .omit .now)]
  rfl

/-- A node takes a place that is free, or that of an `Error` node. -/
theorem insert_place {list : List (Name × Id)} {synced overwrite : Bool}
    {new : Node} (hparent : s.nodes parent = some d)
    (hlist : d.file = .directory list synced) (hnew : s.nodes n = some new)
    (hroom : list.lookup new.name = none ∨ overwrite = true ∧
      ∃ old onode, list.lookup new.name = some old ∧
        s.nodes old = some onode ∧ onode.file.isError = true) :
    ∃ s', (do
      match ← insert parent n overwrite with
      | none => return n
      | some old => do
          destroy old
          return n : Fs Id) s = some (.ok n, s') ∧
        s'.statOf parent = s.statOf parent := by
  rcases hroom with hnone | ⟨rfl, old, onode, hsome, hold, herror⟩
  · rw [bind_of_ok (insert_apply_none hparent hlist hnew hnone)]
    exact ⟨_, rfl, statOf_attach⟩
  · rw [bind_of_ok (insert_apply_some hparent hlist hnew hsome)]
    dsimp only
    rw [bind_of_ok (destroy_apply _ _)]
    refine ⟨_, rfl, ?_⟩
    have hne : parent ≠ old := by
      rintro rfl
      cases hparent.symm.trans hold
      rw [hlist] at herror
      cases herror
    have hdir : (s.apply (.detach parent new.name)).nodes parent = some _ :=
      nodes_modify_self hparent
    obtain ⟨node, hnode⟩ : ∃ node,
        (s.apply (.detach parent new.name)).nodes n = some node := by
      rw [FileTree.apply, nodes_modify]
      split_ifs
      · rw [hparent]
        exact ⟨_, rfl⟩
      · exact ⟨_, hnew⟩
    have hleaf : ((s.apply (.detach parent new.name)).apply
        (.attach parent n)).children old = [] := by
      rw [children_attach hdir (by rw [hlist]; rfl) hnode, if_neg hne.symm,
        children_detach, if_neg hne.symm, children_of_nodes hold]
      cases hfile : onode.file with
      | directory children synced =>
          rw [hfile] at herror
          cases herror
      | _ => rfl
    rw [walk_leaf hleaf, statOf_destroy (by simpa using hne), statOf_attach,
      statOf_detach]

/-- They leave it as it is when the device agrees. -/
theorem createAt_granted {file : File} {overwrite : Bool}
    (hwf : s.WellFormed) (hparent : s.nodes parent = some d)
    (hready : vacancy parent path.filename s = some (.ok overwrite, s))
    (hanswer : env.answer s.tick req = .ok ()) :
    ∃ r s', createAt env req file parent path overwrite s = some (r, s') ∧
      s'.statOf parent = some d.stat := by
  have hout := outcome_apply (request_apply env req s)
  rw [hanswer] at hout
  rw [createAt, bind_of_ok hout]
  dsimp only
  set s₁ := s.apply (.clock (env.delay s.tick))
  set s₂ := s₁.apply (.clock (env.delay s₁.tick))
  have hstat : Fs.request env (.stat path) s₁ =
      some (env.answer s₁.tick (.stat path), s₂) := request_apply env _ s₁
  cases hanswer₁ : env.answer s₁.tick (.stat path) with
  | error err' =>
      rw [hanswer₁] at hstat
      rw [bind_of_error hstat]
      refine ⟨_, _, rfl, ?_⟩
      exact congrArg (Option.map Node.stat) hparent
  | ok stat =>
      rw [hanswer₁] at hstat
      rw [bind_of_ok hstat]
      obtain ⟨d', list, synced, hd', hlist, hroom⟩ := vacancy_cases hready
      cases hparent.symm.trans hd'
      set n : Id := ⟨s₂.nextId + 1⟩
      set new := Node.create path.filename (some parent) stat file
      set s₃ := s₂.apply (.alloc n new) with hs₃
      have halloc : alloc path.filename parent stat file s₂ =
          some (.ok n, s₃) := rfl
      have hfresh : ∀ {m : Id} {node : Node}, s.nodes m = some node →
          s₃.nodes m = some node := by
        intro m node hm
        have hne : m ≠ n := by
          rintro rfl
          exact absurd (hwf.known hm) (Nat.not_succ_le_self _)
        rw [hs₃, FileTree.apply]
        exact (Function.update_of_ne hne _ _).trans hm
      have hnew : s₃.nodes n = some new := Function.update_self _ _ _
      have hroom₃ : list.lookup new.name = none ∨ overwrite = true ∧
          ∃ old onode, list.lookup new.name = some old ∧
            s₃.nodes old = some onode ∧ onode.file.isError = true := by
        rcases hroom with hnone | ⟨hover, old, onode, hsome, hold, herror⟩
        · exact .inl hnone
        · exact .inr ⟨hover, old, onode, hsome, hfresh hold, herror⟩
      obtain ⟨s', hrun, hstat'⟩ :=
        insert_place (hfresh hparent) hlist hnew hroom₃
      rw [bind_of_ok halloc]
      refine ⟨_, s', hrun, ?_⟩
      rw [hstat', statOf, hfresh hparent]
      rfl

/-- A child that is taken out and put back is listed again. -/
theorem perm_reinsert {list : List (Name × Id)} {name : Name}
    (hnodup : (list.map Prod.fst).Nodup) (hmem : (name, n) ∈ list) :
    list.Perm (list.filter (fun e => e.1 ≠ name) ++ [(name, n)]) := by
  have hsplit := List.filter_append_perm (fun e : Name × Id => e.1 ≠ name) list
  have honly : list.filter (fun e : Name × Id => !decide (e.1 ≠ name)) =
      [(name, n)] := by
    induction list with
    | nil => exact absurd hmem List.not_mem_nil
    | cons e rest ih =>
        obtain ⟨hnot, hrest⟩ := List.nodup_cons.mp hnodup
        rcases List.mem_cons.mp hmem with rfl | hold
        · rw [List.filter_cons_of_pos (by simp)]
          refine congrArg _ (List.filter_eq_nil_iff.mpr fun e he => ?_)
          have hne : e.1 ≠ name := by
            intro heq
            exact hnot (List.mem_map.mpr ⟨e, he, heq⟩)
          simpa using hne
        · have hne : e.1 ≠ name := by
            intro heq
            exact hnot (List.mem_map.mpr ⟨_, hold, heq.symm⟩)
          rw [List.filter_cons_of_neg (by simpa using hne)]
          exact ih hrest hold (List.filter_append_perm _ rest)
  rw [honly] at hsplit
  exact hsplit.symm

/-- `unlink` has found a child that is no directory. -/
structure Unlinking (s : FileTree) (parent n : Id) (name : Name)
    (d node : Node) (list : List (Name × Id)) (synced : Bool) : Prop where
  dir : s.nodes parent = some d
  lists : d.file = .directory list synced
  mem : (name, n) ∈ list
  child : s.nodes n = some node
  key : node.name = name
  leaf : node.file.isDirectory = false

theorem Unlinking.ne {name : Name} {node : Node} {list : List (Name × Id)}
    {synced : Bool} (h : Unlinking s parent n name d node list synced) :
    n ≠ parent := by
  rintro rfl
  have hleaf := h.leaf
  cases h.dir.symm.trans h.child
  rw [h.lists] at hleaf
  cases hleaf

theorem unlinking_of_ready (hwf : s.WellFormed)
    (hready : (NameOp.unlink parent n path).Ready s) :
    ∃ d node list synced,
      Unlinking s parent n path.filename d node list synced := by
  obtain ⟨htraverse, node, hnode, hleaf⟩ := hready
  have hlookup := (traverseNode_cases htraverse).2 n rfl
  have hmem := hwf.lookup_iff.mp hlookup
  obtain ⟨d, hd, hentry⟩ := mem_children.mp hmem
  obtain ⟨node', hnode', hname, -⟩ := hwf.listed hmem
  cases hnode.symm.trans hnode'
  cases hfile : d.file with
  | directory list synced =>
      rw [hfile] at hentry
      exact ⟨d, node, list, synced, hd, hfile, hentry, hnode, hname, hleaf⟩
  | _ =>
      rw [hfile] at hentry
      exact absurd hentry List.not_mem_nil

/-- `unlink` puts the child back and refreshes the directory when the device
refuses. -/
theorem unlinkAt_refused {node : Node} {list : List (Name × Id)}
    {synced : Bool} (h : Unlinking s parent n path.filename d node list synced)
    (hanswer : env.answer s.tick (.unlink path) = .error err) :
    ∃ s', unlinkAt env parent n path s = some (.error err, s') ∧
      s'.root = s.root ∧ s'.handles = s.handles ∧ s'.cache = s.cache ∧
      (∀ m, m ≠ parent → s'.nodes m = s.nodes m) ∧
      s'.nodes parent = some { d with
        stat := d.stat.refresh .omit .now (time env s)
        file := .directory (list.filter (fun e => e.1 ≠ path.filename) ++
          [(path.filename, n)]) synced } := by
  set s₁ := s.apply (.detach parent path.filename) with hs₁
  have hparent₁ : s₁.nodes parent = some { d with
      file := .directory (list.filter fun e => e.1 ≠ path.filename)
        synced } := by
    rw [hs₁, FileTree.apply, nodes_modify_self h.dir, h.lists]
    rfl
  have hothers : ∀ m, m ≠ parent → s₁.nodes m = s.nodes m := fun m hm =>
    Function.update_of_ne hm _ _
  have hout := outcome_apply (request_apply env (.unlink path) s₁)
  rw [show env.answer s₁.tick (.unlink path) = .error err from hanswer] at hout
  set s₂ := s₁.apply (.clock (env.delay s₁.tick)) with hs₂
  have hnode₂ : s₂.nodes n = some node := (hothers n h.ne).trans h.child
  have hlookup : (list.filter fun e => e.1 ≠ path.filename).lookup
      node.name = none := by
    rw [lookup_eq_none_iff, h.key]
    simp
  have hinsert := insert_apply_none (o := true) (s := s₂) hparent₁ rfl hnode₂
    hlookup
  set s₃ := s₂.apply (.attach parent n) with hs₃
  have hattach : s₃ = s₂.modify parent fun d' => { d' with
      file := d'.file.setChildren (d'.file.children ++
        [(node.name, n)]) } := by
    rw [hs₃, FileTree.apply, FileTree.attach, hnode₂]
  have hparent₃ : s₃.nodes parent = some { d with
      file := .directory (list.filter (fun e => e.1 ≠ path.filename) ++
        [(path.filename, n)]) synced } := by
    rw [hattach, nodes_modify_self (s := s₂) hparent₁, h.key]
    rfl
  rw [unlinkAt, bind_of_ok (edit_apply _ _), bind_of_ok hout]
  dsimp only
  rw [bind_of_ok hinsert, bind_of_ok (refreshStat_apply hparent₃ .omit .now)]
  refine ⟨_, rfl, ?_, ?_, ?_, fun m hm => ?_, ?_⟩
  · rw [hattach]
    rfl
  · rw [hattach]
    rfl
  · rw [hattach]
    rfl
  · rw [FileTree.apply, nodes_modify, if_neg hm, hattach, nodes_modify,
      if_neg hm]
    exact hothers m hm
  · rw [FileTree.apply, nodes_modify_self hparent₃, hattach]
    rfl

/-- It leaves the directory as it is when the device agrees. -/
theorem unlinkAt_granted {node : Node} {list : List (Name × Id)}
    {synced : Bool} (h : Unlinking s parent n path.filename d node list synced)
    (hcache : s.Caching) (hanswer : env.answer s.tick (.unlink path) = .ok ()) :
    ∃ s', unlinkAt env parent n path s = some (.ok (), s') ∧
      s'.statOf parent = some d.stat := by
  set s₁ := s.apply (.detach parent path.filename) with hs₁
  have hout := outcome_apply (request_apply env (.unlink path) s₁)
  rw [show env.answer s₁.tick (.unlink path) = .ok () from hanswer] at hout
  set s₂ := (s₁.apply (.clock (env.delay s₁.tick))).apply (.eraseHandles n)
  obtain ⟨s₃, hrun, hs₃, -⟩ := invalidateOne_run (s := s₂) hcache n
  have hleaf : s₃.children n = [] := by
    have hsame : s₃.children n = s₁.children n := by
      rw [hs₃]
      rfl
    rw [hsame, hs₁, children_detach, if_neg h.ne, children_of_nodes h.child]
    have hleaf := h.leaf
    cases hfile : node.file with
    | directory children synced =>
        rw [hfile] at hleaf
        cases hleaf
    | _ => rfl
  rw [unlinkAt, bind_of_ok (edit_apply _ _), bind_of_ok hout]
  dsimp only
  rw [bind_of_ok (edit_apply _ _), bind_of_ok hrun, destroy_apply]
  refine ⟨_, rfl, ?_⟩
  rw [walk_leaf hleaf, statOf_destroy (by simpa using h.ne.symm), hs₃]
  refine (statOf_detach (s := s)).trans ?_
  rw [statOf, h.dir]
  rfl

/-- `rmdir` does nothing before the device agrees, and `rename` neither. -/
theorem rmdirAt_refused (hanswer : env.answer s.tick (.rmdir path) =
    .error err) : rmdirAt env parent path s =
      some (.error err, s.apply (.clock (env.delay s.tick))) := by
  have hrun := request_apply env (.rmdir path) s
  rw [hanswer] at hrun
  exact bind_of_error hrun

theorem renameAt_refused {toParent : Id} {source target : Path} {flags : Nat}
    (hanswer : env.answer s.tick (.rename source target flags) = .error err) :
    renameAt env parent toParent source target flags s =
      some (.error err, s.apply (.clock (env.delay s.tick))) := by
  have hrun := request_apply env (.rename source target flags) s
  rw [hanswer] at hrun
  exact bind_of_error hrun

theorem untouched_clock (delay : Nat) : s.Untouched (s.apply (.clock delay)) :=
  ⟨rfl, rfl, rfl, fun n => by
    change Option.Rel Node.Same (s.nodes n) (s.nodes n)
    cases s.nodes n with
    | none => exact .none
    | some node => exact .some (.refl node)⟩

/-- `rmdir` refreshes the directory. -/
theorem rmdirAt_stamps {r : Except Errc Unit} {s' : FileTree}
    (hanswer : env.answer s.tick (.rmdir path) = .ok ())
    (hrun : rmdirAt env parent path s = some (r, s')) :
    s'.Stamped (time env s) parent := by
  have hreq := request_apply env (.rmdir path) s
  rw [hanswer] at hreq
  rw [rmdirAt, bind_of_ok hreq] at hrun
  rcases bind_cases hrun with ⟨err, hrefresh, -⟩ | ⟨u, s₁, hrefresh, hrest⟩
  · exact (stamped_refreshStat hrefresh).2.1
  · have hstamped := (stamped_refreshStat hrefresh).2.1
    have hkeeps : (do
        match ← extract parent path.filename with
        | none => return ()
        | some n => destroy n : Fs Unit).Obeys keepStats s₁
          fun _ _ => True := by
      apply Obeys.bind keeps_extract
      intro n s₂ _ _ _
      split
      · exact Obeys.pure fun _ => trivial
      · exact keeps_destroy
    exact hstamped.keep (hkeeps trivial r s' hrest).1

/-- `rename` refreshes both directories. -/
theorem renameAt_stamps {toParent : Id} {source target : Path} {flags : Nat}
    {r : Except Errc Unit} {s' : FileTree}
    (hanswer : env.answer s.tick (.rename source target flags) = .ok ())
    (hrun : renameAt env parent toParent source target flags s =
      some (r, s')) :
    s'.Stamped (time env s) parent ∧ s'.Stamped (time env s) toParent := by
  have hreq := request_apply env (.rename source target flags) s
  rw [hanswer] at hreq
  rw [renameAt, bind_of_ok hreq] at hrun
  rcases bind_cases hrun with ⟨err, hrefresh, -⟩ | ⟨u, s₁, hrefresh, hrest⟩
  · obtain ⟨node, -, herr, -⟩ := refreshStat_cases hrefresh
    cases herr
  obtain ⟨htick, hfrom, -⟩ := stamped_refreshStat hrefresh
  rcases bind_cases hrest with ⟨err, hrefresh', -⟩ | ⟨u, s₂, hrefresh', hrest⟩
  · obtain ⟨node, -, herr, -⟩ := refreshStat_cases hrefresh'
    cases herr
  obtain ⟨-, hto, hothers⟩ := stamped_refreshStat hrefresh'
  rw [htick] at hto hothers
  have hkeeps : (relink parent toParent source target flags).Obeys keepStats s₂
      fun _ _ => True := by
    apply Obeys.bind keeps_extract
    intro n s₃ _ _ _
    split
    · exact Obeys.fail
    · apply Obeys.bind keeps_moveTo
      intro _ s₄ _ _ _
      apply Obeys.bind keeps_insert
      intro overwritten s₅ _ _ _
      split_ifs
      · split
        · exact Obeys.wrong
        · apply Obeys.bind keeps_moveTo
          intro _ s₆ _ _ _
          apply Obeys.bind keeps_insert
          exact fun _ _ _ _ _ => Obeys.pure fun _ => trivial
      · split
        · exact Obeys.pure fun _ => trivial
        · apply Obeys.bind keeps_invalidateOne
          intro _ s₆ _ _ _
          apply Obeys.bind (keeps_edit rfl)
          exact fun _ _ _ _ _ => keeps_destroy
  have hkeep := (hkeeps trivial r s' hrest).1
  exact ⟨(hothers parent hfrom).keep hkeep, hto.keep hkeep⟩

end Calls

/-- A device that refuses everything. -/
def refusing : Env :=
  { Env.ofMode 0 with
    answer := fun _ _ _ => .error .ioError
    system := fun _ => ⟨5, 0⟩ }

end NameOp

end Madbfs
