/-
Every node the filesystem has is in the tree, whatever operations have run; and
where no open file is lost sight of, every handle points to a regular file of
the tree.
-/
import Madbfs.Tree.Seating

namespace Madbfs

namespace Fs

open Program FileTree

variable {watched : Prop} {s s' : FileTree} {n : Id} {name : Name} {env : Env}
  {α : Type} {path : Path} {file : File}

section Lookups

variable {d : Discipline FileTree}

theorem quiet_bind_traverseNode {f : Id → Fs α} {Q : α → FileTree → Prop}
    (hf : ∀ c, (s.children n).lookup name = some c → (f c).Obeys d s Q) :
    (traverseNode n name >>= f).Obeys d s Q := by
  intro hs r s' hrun
  rcases bind_cases hrun with ⟨err, htraverse, rfl⟩ | ⟨c, t, htraverse, hrest⟩
  · rw [(traverseNode_cases htraverse).1]
    exact ⟨d.refl s, fun _ h => by cases h⟩
  · obtain ⟨rfl, hfound⟩ := traverseNode_cases htraverse
    exact hf c (hfound c rfl) hs r s' hrest

theorem quiet_vacancy : (vacancy n name).Obeys d s fun overwrite s' =>
    s' = s ∧ vacancy n name s = some (.ok overwrite, s) := by
  intro hs r s' hrun
  have hsame : s' = s := by
    rcases bind_cases hrun with ⟨err, hdir, -⟩ | ⟨list, t, hdir, hrest⟩
    · exact asDirectory_same hdir
    · rw [asDirectory_same hdir] at hrest
      cases hlookup : list.lookup name with
      | none =>
          rw [hlookup] at hrest
          cases hrest
          rfl
      | some old =>
          rw [hlookup] at hrest
          obtain ⟨node, hnode, hrest⟩ := bind_deref_cases hrest
          cases herror : node.file.isError <;> rw [herror] at hrest <;>
            cases hrest <;> rfl
  subst hsame
  refine ⟨d.refl s', fun overwrite hr => ⟨rfl, ?_⟩⟩
  rw [← hr]
  exact hrun

theorem sits_readlink (hvalid : ∀ name ∈ path, ValidName name) :
    (readlink env path).Obeys (sitting watched) s fun _ _ => True := by
  apply Obeys.bind (sits_traverseOrBuild hvalid)
  intro n s₁ _ _ _
  apply quiet_bind_deref
  intro node _
  apply Obeys.bind_ofExcept
  intro link _
  cases link with
  | some target => exact Obeys.pure fun _ => trivial
  | none =>
      apply Obeys.bind (quiet_request allows_sitting)
      intro _ _ _ _ _
      exact bind_quiet_edit allows_sitting rfl (Obeys.pure fun _ => trivial)

/-- `mknod` and `mkdir`. -/
theorem sits_create {req : Req Unit} (hne : path ≠ [])
    (hvalid : ∀ name ∈ path, ValidName name) (hfile : file.children = []) :
    (do
      let parent ← traverseOrBuild env path.parentPath
      let overwrite ← vacancy parent path.filename
      createAt env req file parent path overwrite : Fs Id).Obeys
      (sitting watched) s fun _ _ => True := by
  apply Obeys.bind (sits_traverseOrBuild (valid_parentPath hvalid))
  intro parent s₁ _ _ _
  apply Obeys.bind quiet_vacancy
  rintro overwrite s₂ _ _ ⟨rfl, hvacancy⟩
  apply sits_of_run
  intro r s' h hrun
  exact ⟨createAt_sound h hfile (valid_filename hne hvalid) hvacancy hrun,
    fun _ _ => trivial⟩

theorem sits_unlink (hvalid : ∀ name ∈ path, ValidName name) :
    (unlink env path).Obeys (sitting watched) s fun _ _ => True := by
  apply Obeys.bind (sits_traverseOrBuild (valid_parentPath hvalid))
  intro parent s₁ _ _ _
  apply quiet_bind_traverseNode
  intro n hlookup
  apply quiet_bind_deref
  intro node hnode
  apply Obeys.bind_require
  intro hfile
  have hleaf : s₁.children n = [] := by
    rw [children_of_nodes hnode]
    cases hnodeFile : node.file with
    | directory children synced =>
        rw [hnodeFile] at hfile
        cases hfile
    | _ => rfl
  apply sits_of_run
  intro r s' h hrun
  exact ⟨unlinkAt_sound h (h.tidy.wf.lookup_iff.mp hlookup) hleaf hrun,
    fun _ _ => trivial⟩

theorem sits_rmdir (hvalid : ∀ name ∈ path, ValidName name) :
    (rmdir env path).Obeys (sitting watched) s fun _ _ => True := by
  apply Obeys.bind (sits_traverseOrBuild (valid_parentPath hvalid))
  intro parent s₁ _ _ _
  apply quiet_bind_traverseNode
  intro n hlookup
  unfold asDirectory
  rw [bind_assoc]
  apply quiet_bind_deref
  intro node hnode
  apply Obeys.bind_ofExcept
  intro list hlist
  obtain ⟨synced, hfile⟩ := File.asDirectory_eq_ok hlist
  apply Obeys.bind_state
  apply Obeys.bind_require
  intro herrors
  apply sits_of_run
  intro r s' h hrun
  refine ⟨rmdirAt_sound h (fun hw c hmem m hbelow => ?_) hrun,
    fun _ _ => trivial⟩
  rw [← h.tidy.wf.lookup_iff, hlookup] at hmem
  cases hmem
  refine closed_of_allErrors h hw ?_ hnode (by rw [hfile]; rfl) herrors hbelow
  rw [children_of_nodes hnode, hfile]
  rfl

theorem sits_readdir (henv : env.Proper) (hvalid : ∀ name ∈ path, ValidName name)
    (hspares : watched → ∀ dir s₁ node entries,
      traverseOrBuild env path s = some (.ok dir, s₁) →
      s₁.nodes dir = some node → node.file.hasSynced = false →
      env.answer s₁.tick (.statdir path) = .ok entries →
      s₁.Spared dir (entries.map Prod.snd)) :
    (readdir env path).Obeys (sitting watched) s fun _ _ => True := by
  apply sits_of_run
  intro r s' h hrun
  refine ⟨?_, fun _ _ => trivial⟩
  rcases bind_cases hrun with ⟨err, hlookup, -⟩ | ⟨dir, s₁, hlookup, hrest⟩
  · exact (sits_traverseOrBuild hvalid h _ _ hlookup).1 h
  have h₁ := (sits_traverseOrBuild hvalid h _ _ hlookup).1 h
  rcases bind_cases hrest with ⟨err, hdir, -⟩ | ⟨list, t, hdir, hrest⟩
  · rw [asDirectory_same hdir]
    exact h₁
  rw [asDirectory_same hdir] at hrest
  exact (sits_readdirAt henv (fun hw node entries =>
    hspares hw dir s₁ node entries hlookup) h₁ _ _ hrest).1 h₁

end Lookups

end Fs

namespace Op

open Program Fs FileTree

variable {watched : Prop} {op : Op} {env : Env} {s s' : FileTree}

/-- The kernel does not move a node below itself. -/
def Apart : Op → Prop
  | .rename source target flags => ¬source <+: target.parentPath ∧
      (hasFlag flags renameExchange = true → ¬target <+: source.parentPath)
  | _ => True

end Op

namespace FileTree

open Fs

/-- No file the operation loses sight of is open: none below an entry that
`readdir` does not find on the device any more, and none below a node that
`rename` replaces because the device agrees. -/
def Spares (s : FileTree) (event : Op × Env) : Prop :=
  match event.1 with
  | .readdir path => ∀ dir s₁ node entries,
      traverseOrBuild event.2 path (s.start event.2) = some (.ok dir, s₁) →
      s₁.nodes dir = some node → node.file.hasSynced = false →
      event.2.answer s₁.tick (.statdir path) = .ok entries →
      s₁.Spared dir (entries.map Prod.snd)
  | .rename source target flags => hasFlag flags renameExchange = false →
      ∀ n fromParent toParent t,
        RenameLookups event.2 (s.start event.2) t n fromParent toParent source
          target flags →
        event.2.answer t.tick (.rename source target flags) = .ok () →
        ∀ c, (source.filename, c) ∈ t.children fromParent →
          t.Vacated c toParent target.filename
  | _ => True

end FileTree

namespace Op

open Program Fs FileTree

variable {watched : Prop} {op : Op} {env : Env} {s s' : FileTree}

theorem sound_start {hands : List Id} (h : s.Sound watched hands) :
    (s.start env).Sound watched hands :=
  ⟨h.tidy.congr ⟨rfl, rfl, fun _ => rfl⟩, h.seated⟩

/-- An operation keeps nodes and handles where they belong. -/
theorem sits_body (hop : op.Proper) (henv : env.Proper) (hapart : op.Apart)
    (hspares : watched → s.Spares (op, env)) :
    (op.body env).Obeys (sitting watched) (s.start env) fun _ _ => True := by
  cases op with
  | readdir path =>
      exact obeys_return (sits_readdir henv hop hspares)
  | getattr path =>
      refine obeys_return (Obeys.bind (sits_traverseOrBuild hop) ?_)
      exact fun _ _ _ _ _ => quiet_getattrAt
  | readlink path => exact obeys_return (sits_readlink hop)
  | mknod path mode dev =>
      exact obeys_return (sits_create hop.1 hop.2 rfl)
  | mkdir path mode => exact obeys_return (sits_create hop.1 hop.2 rfl)
  | unlink path => exact obeys_return (sits_unlink hop)
  | rmdir path => exact obeys_return (sits_rmdir hop)
  | rename source target flags =>
      refine obeys_return (sits_of_run fun r s' h hrun => ⟨?_, fun _ _ => trivial⟩)
      exact rename_sound h hop.1 hop.2.1 hop.2.2 ⟨hapart.1, hapart.2⟩ hspares
        hrun
  | utimens path atime mtime =>
      refine obeys_return (Obeys.bind (sits_traverseOrBuild hop) ?_)
      intro n s₁ _ _ _
      apply Obeys.bind (quiet_request allows_sitting)
      intro _ _ _ _ _
      apply Obeys.bind (quiet_request allows_sitting)
      exact fun _ _ _ _ _ => quiet_setStat allows_sitting
  | truncate path size =>
      refine obeys_return (Obeys.bind (sits_traverseOrBuild hop) ?_)
      intro n s₁ _ _ _
      apply quiet_bind_deref
      intro node _
      apply Obeys.bind_ofExcept
      intro dirty _
      apply Obeys.bind (quiet_request allows_sitting)
      intro _ _ _ _ _
      apply Obeys.bind (quiet_truncateCache allows_sitting)
      intro _ _ _ _ _
      apply Obeys.bind (quiet_setSize allows_sitting)
      exact fun _ _ _ _ _ => quiet_refreshStat allows_sitting
  | «open» path flags =>
      refine obeys_return (Obeys.bind (sits_traverseOrBuild hop) ?_)
      exact fun _ _ _ _ _ => sits_openAt
  | read fd len offset => exact obeys_return (quiet_read allows_sitting)
  | write fd input offset => exact obeys_return (quiet_write allows_sitting)
  | flush fd => exact obeys_return (quiet_flush allows_sitting)
  | release fd => exact obeys_return (quiet_release allows_sitting)
  | copyFileRange inPath inFd inOff outPath outFd outOff size =>
      exact obeys_return (quiet_copyFileRange allows_sitting)
  | symlink path target => exact obeys_return (sits_symlink hop.1 hop.2)
  | initializeRoot => exact obeys_return (quiet_initializeRoot allows_sitting)
  | setTtl ttl => exact obeys_return (quiet_setTtl allows_sitting)
  | expiresAll => exact obeys_return (quiet_expiresAll allows_sitting)
  | shutdown => exact obeys_return (quiet_shutdown allows_sitting)

end Op

namespace FileTree

variable {caching : Option (Nat × Nat)} {ttl : Option Nat}
  {events : List (Op × Env)} {s : FileTree} {watched : Prop}

theorem sound_of_runs (hruns : Runs step (fun s event t =>
      Proper s event t ∧ event.1.Apart ∧ (watched → s.Spares event))
      (create caching ttl) events s) : s.Sound watched [] := by
  refine hruns.preserves (I := fun s => s.Sound watched []) ?_
    ⟨tidy_create caching ttl, fun _ n hopened => ?_⟩
  · rintro s t ⟨op, env⟩ hstep ⟨⟨hop, henv⟩, hapart, hspares⟩ h
    obtain ⟨⟨r, t'⟩, hexec, heq⟩ := Option.map_eq_some_iff.mp hstep
    cases heq
    have h' : (s.start env).Sound watched [] := Op.sound_start h
    exact (Op.sits_body hop henv hapart hspares h' _ _ hexec).1 h'
  · obtain ⟨handle, hmem, -⟩ := hopened
    cases hmem

/-- The operations that move no node below itself. -/
def Upright (s : FileTree) (event : Op × Env) (t : FileTree) : Prop :=
  Proper s event t ∧ event.1.Apart

/-- In every state that a run reaches, the nodes there are are those of the
tree: none is lost on the way, and none of the tree is missing. -/
theorem live_iff_inTree_of_runs
    (hruns : Runs step Upright (create caching ttl) events s) (n : Id) :
    (s.nodes n).isSome ↔ s.InTree n := by
  have hsound : s.Sound False [] := sound_of_runs
    (hruns.weaken fun _ _ _ _ h => ⟨h.1, h.2, False.elim⟩)
  exact ⟨hsound.tidy.inTree, hsound.tidy.wf.isSome_of_inTree⟩

/-- A node that `rename` has replaced is gone, the one it has moved is there. -/
theorem live_iff_inTree_of_runs_rename : ∃ s : FileTree,
    ¬s.InTree ⟨3⟩ ∧ s.InTree ⟨2⟩ := by
  have hruns : ∃ s, Runs step Upright (create none none)
      [(.mkdir ["a"] 0, .ofMode sIfdir), (.mkdir ["b"] 0, .ofMode sIfdir),
        (.rename ["a"] ["b"] 0, .ofMode sIfdir)] s ∧
      (s.nodes ⟨3⟩).isSome = false ∧ (s.nodes ⟨2⟩).isSome = true := by
    refine ⟨_, .cons rfl
      ⟨⟨⟨by decide, by decide⟩, Env.proper_ofMode _⟩, trivial⟩
      (.cons rfl ⟨⟨⟨by decide, by decide⟩, Env.proper_ofMode _⟩, trivial⟩
        (.cons rfl ⟨⟨⟨by decide, by decide, by decide⟩,
          Env.proper_ofMode _⟩, by decide, by decide⟩ (.nil _))), rfl, rfl⟩
  obtain ⟨s, hs, hgone, hthere⟩ := hruns
  refine ⟨s, fun hin => ?_, (live_iff_inTree_of_runs hs ⟨2⟩).mp hthere⟩
  rw [(live_iff_inTree_of_runs hs ⟨3⟩).mpr hin] at hgone
  cases hgone

/-- In every run that never loses sight of an open file, every handle points to
a regular file of the tree. -/
theorem handles_inTree_of_runs (hruns : Runs step
      (fun s event t => Upright s event t ∧ s.Spares event)
      (create caching ttl) events s)
    (handle : FileHandle) (hmem : handle ∈ s.handles) (n : Id)
    (hnode : handle.node = some n) :
    s.InTree n ∧ ∃ node dirty, s.nodes n = some node ∧
      node.file = .regular dirty := by
  have hsound : s.Sound True [] := sound_of_runs
    (hruns.weaken fun _ _ _ _ h => ⟨h.1.1, h.1.2, fun _ => h.2⟩)
  have hkind := hsound.seated trivial n ⟨handle, hmem, hnode⟩
  obtain ⟨node, hn, htype⟩ := Option.map_eq_some_iff.mp hkind
  refine ⟨hsound.tidy.inTree (by rw [hn]; rfl), node, ?_⟩
  cases hfile : node.file with
  | regular dirty => exact ⟨dirty, hn, rfl⟩
  | _ =>
      rw [hfile] at htype
      cases htype

section Moves

open Fs

/-- A device that lists only `a`. -/
def listsA : Env :=
  .obliging (fun _ => .ok { Stat.empty with mode := sIfdir }) fun _ =>
    .ok [({ Stat.empty with mode := sIfdir }, "a")]

theorem proper_listsA : listsA.Proper := by
  intro t path entries hentries e he
  cases hentries
  rw [List.mem_singleton.mp he]
  decide

theorem proper_refusing : NameOp.refusing.Proper := by
  intro t path entries hentries
  cases hentries

/-- A file is opened below `a`.  The device refuses to put `b` in the place of
`a`, puts it in the place of `c`, and has lost it when the root is listed. -/
def moves : List (Op × Env) :=
  [(.mkdir ["a"] 0, .ofMode sIfdir), (.mknod ["a", "f"] sIfreg 0, .ofMode sIfreg),
    (.open ["a", "f"] 0, .ofMode sIfreg), (.mkdir ["b"] 0, .ofMode sIfdir),
    (.mkdir ["c"] 0, .ofMode sIfdir), (.rename ["b"] ["a"] 0, NameOp.refusing),
    (.rename ["b"] ["c"] 0, .ofMode sIfdir), (.readdir [], listsA)]

theorem upright_moves {event : Op × Env} (hmem : event ∈ moves) :
    event.1.Proper ∧ event.2.Proper ∧ event.1.Apart := by
  simp only [moves, List.mem_cons, List.not_mem_nil, or_false] at hmem
  rcases hmem with rfl | rfl | rfl | rfl | rfl | rfl | rfl | rfl
  all_goals
    refine ⟨by unfold Op.Proper; decide, ?_, by unfold Op.Apart; decide⟩
    first
    | exact Env.proper_ofMode _
    | exact proper_refusing
    | exact proper_listsA

theorem spares_replace {u : FileTree}
    (hbefore : (moves.take 6).foldlM step (create none none) = some u) :
    u.Spares (.rename ["b"] ["c"] 0, .ofMode sIfdir) := by
  intro _ n fromParent toParent t hlookups _ c _
  have hplaces : (((moves.take 6).foldlM step (create none none)).bind fun u =>
      (renameLookups (.ofMode sIfdir) ["b"] ["c"] 0
        (u.start (.ofMode sIfdir))).map fun p =>
          (p.1.toOption, p.2.children ⟨1⟩, p.2.children ⟨5⟩)) =
      some (some (⟨1⟩, ⟨1⟩), [("a", ⟨2⟩), ("b", ⟨4⟩), ("c", ⟨5⟩)], []) := by
    decide +kernel
  rw [hbefore, Option.bind_some, RenameLookups.run hlookups] at hplaces
  simp only [Option.map_some, Except.toOption, Option.some.injEq,
    Prod.mk.injEq] at hplaces
  obtain ⟨⟨-, rfl⟩, hchildren, hleaf⟩ := hplaces
  apply vacated_of_leaf
  intro old hold
  rw [hchildren] at hold
  obtain rfl : old = ⟨5⟩ := by simpa [Path.filename] using hold
  exact hleaf

theorem spares_drop {u : FileTree}
    (hbefore : (moves.take 7).foldlM step (create none none) = some u) :
    u.Spares (.readdir [], listsA) := by
  intro dir s₁ node entries hlookup _ _ hanswer
  have hplaces : (((moves.take 7).foldlM step (create none none)).bind fun u =>
      (traverseOrBuild listsA [] (u.start listsA)).map fun p =>
        (p.1.toOption, p.2.children ⟨1⟩, p.2.children ⟨4⟩,
          p.2.handles.filterMap FileHandle.node)) =
      some (some ⟨1⟩, [("a", ⟨2⟩), ("c", ⟨4⟩)], [], [⟨3⟩]) := by
    decide +kernel
  rw [hbefore, Option.bind_some, hlookup] at hplaces
  simp only [Option.map_some, Except.toOption, Option.some.injEq,
    Prod.mk.injEq] at hplaces
  obtain ⟨rfl, hchildren, hleaf, hhandles⟩ := hplaces
  cases hanswer
  intro name c hmem hname m hbelow hopened
  rw [hchildren] at hmem
  obtain ⟨rfl, rfl⟩ : name = "c" ∧ c = ⟨4⟩ := by
    simpa [show name ≠ "a" by simpa using hname] using hmem
  obtain rfl := below_leaf hleaf hbelow
  obtain ⟨handle, hhandle, hnode⟩ := hopened
  have hlisted := List.mem_filterMap.mpr ⟨handle, hhandle, hnode⟩
  rw [hhandles] at hlisted
  cases List.mem_singleton.mp hlisted

theorem spares_moves {before after : List (Op × Env)} {event : Op × Env}
    {u : FileTree} (hsplit : moves = before ++ event :: after)
    (hbefore : before.foldlM step (create none none) = some u) :
    u.Spares event := by
  rcases before with _ | ⟨_, _ | ⟨_, _ | ⟨_, _ | ⟨_, _ | ⟨_, _ | ⟨_, _ |
    ⟨_, _ | ⟨_, before⟩⟩⟩⟩⟩⟩⟩⟩
  case cons.cons.cons.cons.cons.cons.cons.cons =>
    exact absurd (congrArg List.length hsplit) (by simp [moves])
  all_goals cases hsplit
  any_goals exact True.intro
  · -- the device refuses
    intro _ _ _ _ _ _ hanswer
    cases hanswer
  · exact spares_replace hbefore
  · exact spares_drop hbefore

/-- The open file is still in the tree. -/
theorem handles_inTree_of_runs_moves : ∃ s : FileTree,
    s.children ⟨1⟩ = [("a", ⟨2⟩)] ∧ s.InTree ⟨3⟩ := by
  have hplaces : ((moves.foldlM step (create none none)).map fun s =>
      (s.children ⟨1⟩, s.handles[0]?)) =
      some ([("a", ⟨2⟩)], some ⟨some ⟨3⟩, .read, 0⟩) := by
    decide +kernel
  obtain ⟨s, hall, hs⟩ := Option.map_eq_some_iff.mp hplaces
  obtain ⟨hchildren, hseat⟩ := Prod.mk.inj hs
  have hruns : Runs step (fun s event t => Upright s event t ∧
      s.Spares event) (create none none) moves s := by
    refine Runs.of_foldlM hall fun before event after u v hsplit hbefore _ => ?_
    have hmem : event ∈ moves := by
      rw [hsplit]
      exact List.mem_append_right _ List.mem_cons_self
    obtain ⟨hop, henv, hapart⟩ := upright_moves hmem
    exact ⟨⟨⟨hop, henv⟩, hapart⟩, spares_moves hsplit hbefore⟩
  exact ⟨s, hchildren, (handles_inTree_of_runs hruns _
    (List.mem_of_getElem? hseat) ⟨3⟩ rfl).1⟩

end Moves

end FileTree

end Madbfs
