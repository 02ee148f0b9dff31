/-
What comes of a call that changes the names of a directory.  A `rename` that
the device agrees to gets to its end unless it is severed; everything else does
so always.  Whether the timestamps of the directories are refreshed depends on
the operation alone, or on chance.
-/
import Madbfs.Tree.Severed

namespace Madbfs

namespace NameOp

open Program FileTree Fs

/-- A `rename` has its directories, and something to exchange the node with. -/
def Whole (s : FileTree) : NameOp → Prop
  | .rename _ fromParent toParent source target flags =>
      ¬s.Severed fromParent toParent source target flags
  | _ => True

/-- Nothing has changed if the device refuses; if it agrees, the call gets to
its end and the directories are refreshed. -/
def Meets (env : Env) (s : FileTree) (op : NameOp) : Prop :=
  match env.answer s.tick op.request with
  | .error err => ∃ s', op.body env s = some (.error err, s') ∧ s.Untouched s'
  | .ok _ => ∃ r s', op.body env s = some (r, s') ∧
      ∀ p ∈ op.parents, s'.Stamped (time env s) p

variable {env : Env} {s : FileTree} {op : NameOp}

/-- `mknod` and `mkdir` meet the expectation only by chance. -/
theorem meets_create_iff {parent : Id} {path : Path} {file : File}
    {overwrite : Bool} {d : Node} (hwf : s.WellFormed)
    (hparent : s.nodes parent = some d)
    (hready : vacancy parent path.filename s = some (.ok overwrite, s))
    (hbody : op.body env = do
      let _ ← createAt env op.request file parent path overwrite)
    (hparents : op.parents = [parent]) :
    op.Meets env s ↔ s.Stamped (time env s) parent := by
  have hstamped : s.Stamped (time env s) parent ↔
      d.stat.mtime = time env s ∧ d.stat.ctime = time env s := by
    unfold Stamped
    simp [hparent]
  unfold Meets
  rw [hbody, hparents]
  cases hanswer : env.answer s.tick op.request with
  | error err =>
      have hrun : createAt env op.request file parent path overwrite s = _ :=
        createAt_refused hparent hanswer
      dsimp only
      rw [bind_of_error hrun, hstamped, ← Stat.refresh_eq_iff,
        ← untouched_setStat_iff hparent]
      constructor
      · rintro ⟨s', hs', hsame⟩
        cases hs'
        exact hsame
      · exact fun hsame => ⟨_, rfl, hsame⟩
  | ok u =>
      obtain ⟨r, s', hrun, hstat⟩ : ∃ r s', createAt env op.request file
          parent path overwrite s = some (r, s') ∧
            s'.statOf parent = some d.stat :=
        createAt_granted hwf hparent hready hanswer
      have hrun' : ∃ r', (do
          let _ ← createAt env op.request file parent path overwrite :
            Fs Unit) s = some (r', s') := by
        rw [bind_apply, hrun]
        cases r with
        | ok a => exact ⟨_, rfl⟩
        | error err => exact ⟨_, rfl⟩
      obtain ⟨r', hrun'⟩ := hrun'
      have hiff : s'.Stamped (time env s) parent ↔
          s.Stamped (time env s) parent := by
        rw [hstamped, stamped_iff, hstat]
        simp
      dsimp only
      rw [← hiff]
      constructor
      · rintro ⟨r'', s'', hrun'', hall⟩
        cases hrun'.symm.trans hrun''
        exact hall parent List.mem_cons_self
      · intro hs'
        refine ⟨r', s', hrun', fun p hp => ?_⟩
        rw [List.mem_singleton.mp hp]
        exact hs'

theorem meets_unlink_iff {parent n : Id} {path : Path} (hwf : s.WellFormed)
    (hcache : s.Caching) (hready : (NameOp.unlink parent n path).Ready s) :
    (NameOp.unlink parent n path).Meets env s ↔
      s.Stamped (time env s) parent := by
  obtain ⟨d, node, list, synced, h⟩ := unlinking_of_ready hwf hready
  have hstamped : s.Stamped (time env s) parent ↔
      d.stat.mtime = time env s ∧ d.stat.ctime = time env s := by
    unfold Stamped
    simp [h.dir]
  have hnodup : (list.map Prod.fst).Nodup := by
    have hunique := hwf.unique parent
    rw [children_of_nodes h.dir, h.lists] at hunique
    exact hunique
  unfold Meets
  cases hanswer : env.answer s.tick (NameOp.unlink parent n path).request with
  | error err =>
      obtain ⟨s', hrun, hroot, hhandles, hcaches, hothers, hparent⟩ :=
        unlinkAt_refused h hanswer
      dsimp only
      rw [hstamped, ← Stat.refresh_eq_iff]
      constructor
      · rintro ⟨s'', hrun', hsame⟩
        cases hrun.symm.trans hrun'
        have hpair := hsame.nodes parent
        rw [h.dir, hparent] at hpair
        cases hpair with
        | some hpair => exact hpair.stat
      · intro hstat
        refine ⟨s', hrun, hroot, hhandles, hcaches, fun m => ?_⟩
        by_cases hm : m = parent
        · rw [hm, h.dir, hparent, hstat]
          refine .some ⟨rfl, rfl, rfl, rfl, ?_⟩
          rw [h.lists]
          exact ⟨perm_reinsert hnodup h.mem, rfl⟩
        · rw [hothers m hm]
          cases s.nodes m with
          | none => exact .none
          | some node' => exact .some (.refl node')
  | ok u =>
      obtain ⟨s', hrun, hstat⟩ := unlinkAt_granted h hcache hanswer
      have hiff : s'.Stamped (time env s) parent ↔
          s.Stamped (time env s) parent := by
        rw [hstamped, stamped_iff, hstat]
        simp
      dsimp only
      rw [← hiff]
      constructor
      · rintro ⟨r'', s'', hrun'', hall⟩
        cases hrun.symm.trans hrun''
        exact hall parent List.mem_cons_self
      · intro hs'
        refine ⟨_, s', hrun, fun p hp => ?_⟩
        rw [List.mem_singleton.mp hp]
        exact hs'

theorem meets_rmdir {parent target : Id} {path : Path} (hcache : s.Caching)
    (hready : (NameOp.rmdir parent target path).Ready s) :
    (NameOp.rmdir parent target path).Meets env s := by
  unfold Meets
  cases hanswer : env.answer s.tick
      (NameOp.rmdir parent target path).request with
  | error err => exact ⟨_, rmdirAt_refused hanswer, untouched_clock _⟩
  | ok u =>
      have hlookup := (traverseNode_cases hready.1).2 target rfl
      have htame : Tame (rmdirAt env parent path) s :=
        tame_rmdirAt hcache (isDir_of_lookup hlookup)
      obtain ⟨r, s', hrun, -⟩ := htame
      refine ⟨r, s', hrun, fun p hp => ?_⟩
      rw [List.mem_singleton.mp hp]
      exact rmdirAt_stamps hanswer hrun

/-- A `rename` fails to get to its end only where it is severed, and then only
if the device agrees to it. -/
theorem meets_rename_iff {n fromParent toParent : Id} {source target : Path}
    {flags : Nat} (hwf : s.WellFormed) (hcache : s.Caching) :
    (NameOp.rename n fromParent toParent source target flags).Meets env s ↔
      (env.answer s.tick (.rename source target flags) = .ok () →
        ¬s.Severed fromParent toParent source target flags) := by
  unfold Meets
  cases hanswer : env.answer s.tick
      (NameOp.rename n fromParent toParent source target flags).request with
  | error err =>
      refine iff_of_true ⟨_, renameAt_refused hanswer, untouched_clock _⟩ ?_
      intro hcontra
      cases hanswer.symm.trans hcontra
  | ok u =>
      constructor
      · rintro ⟨r, s', hrun, -⟩ hgranted hsevered
        have hnone := renameAt_severed hcache hwf hgranted hsevered
        cases hrun.symm.trans hnone
      · intro hfree
        obtain ⟨r, s', hrun, -⟩ := tame_renameAt hcache hwf hfree
        refine ⟨r, s', hrun, fun p hp => ?_⟩
        obtain ⟨hfrom, hto⟩ := renameAt_stamps hanswer hrun
        rcases List.mem_cons.mp hp with rfl | hp
        · exact hfrom
        · rw [List.mem_singleton.mp hp]
          exact hto

/-- `rmdir` does what is expected, and `rename` unless the device agrees to one
that is severed.  `mknod`, `mkdir` and `unlink` do so only if the directory has
the timestamps of the moment anyway. -/
theorem meets_iff (hwf : s.WellFormed) (hcache : s.Caching)
    (hready : op.Ready s) : op.Meets env s ↔
      (env.answer s.tick op.request = .ok () → op.Whole s) ∧
        (op.refreshes = true ∨ ∀ p ∈ op.parents, s.Stamped (time env s) p) := by
  cases op with
  | mknod parent path mode dev overwrite =>
      obtain ⟨d, list, synced, hd, -⟩ := vacancy_cases hready
      rw [meets_create_iff hwf hd hready rfl rfl]
      simp [parents, refreshes, Whole]
  | mkdir parent path mode overwrite =>
      obtain ⟨d, list, synced, hd, -⟩ := vacancy_cases hready
      rw [meets_create_iff hwf hd hready rfl rfl]
      simp [parents, refreshes, Whole]
  | unlink parent n path =>
      rw [meets_unlink_iff hwf hcache hready]
      simp [parents, refreshes, Whole]
  | rmdir parent target path =>
      exact iff_of_true (meets_rmdir hcache hready)
        ⟨fun _ => trivial, .inl rfl⟩
  | rename n fromParent toParent source target flags =>
      rw [meets_rename_iff hwf hcache]
      exact ⟨fun hfree => ⟨hfree, .inl rfl⟩, fun h => h.1⟩

/-- A directory can be removed and renamed; to exchange it with itself goes
wrong. -/
theorem meets_iff_rmdir : ∃ s : FileTree,
    s.children ⟨1⟩ = [("d", ⟨2⟩)] ∧
      (NameOp.rmdir ⟨1⟩ ⟨2⟩ ["d"]).Meets (.ofMode sIfdir) s ∧
      (NameOp.rename ⟨2⟩ ⟨1⟩ ⟨1⟩ ["d"] ["e"] 0).Meets (.ofMode sIfdir) s ∧
      ¬(NameOp.rename ⟨2⟩ ⟨1⟩ ⟨1⟩ ["d"] ["d"] renameExchange).Meets
        (.ofMode sIfdir) s := by
  have hruns : ∃ s, Runs step Proper (create none none)
      [(.mkdir ["d"] 0, .ofMode sIfdir)] s ∧ s.cache = none ∧
      s.children ⟨1⟩ = [("d", ⟨2⟩)] ∧ s.isDir ⟨1⟩ = true ∧
      (NameOp.rmdir ⟨1⟩ ⟨2⟩ ["d"]).Ready s ∧
      ∀ source target flags,
        (NameOp.rename ⟨2⟩ ⟨1⟩ ⟨1⟩ source target flags).Ready s :=
    ⟨_, .cons rfl ⟨⟨by decide, by decide⟩, Env.proper_ofMode _⟩ (.nil _), rfl,
      rfl, rfl, ⟨rfl, [], rfl, rfl⟩, fun _ _ _ => ⟨rfl, _, rfl⟩⟩
  obtain ⟨s, hs, hnone, hchildren, hdir, hready, hmove⟩ := hruns
  have hwf := wellFormed_of_runs hs
  have hcache : s.Caching := by
    intro c hc
    cases hnone.symm.trans hc
  refine ⟨s, hchildren, ?_, ?_, ?_⟩
  · exact (meets_iff hwf hcache hready).mpr ⟨fun _ => trivial, .inl rfl⟩
  · refine (meets_iff hwf hcache (hmove _ _ _)).mpr ⟨fun _ hsevered => ?_, .inl rfl⟩
    rcases hsevered with hnot | hgone | ⟨n, -, hnot | ⟨hflag, -⟩⟩
    · cases hnot.symm.trans hdir
    · rw [isSome_of_isDir hdir] at hgone
      cases hgone
    · cases hnot.symm.trans hdir
    · cases hflag
  · intro hmeets
    refine ((meets_iff hwf hcache (hmove _ _ _)).mp hmeets).1 rfl ?_
    refine .inr (.inr ⟨⟨2⟩, ?_, .inr ⟨rfl, .inl ⟨rfl, rfl⟩⟩⟩)
    rw [hchildren]
    rfl

/-- A `mkdir` that the device refuses changes the timestamps of the
directory. -/
theorem mkdir_refused_refreshes : ∃ s : FileTree,
    s = create none none ∧ (NameOp.mkdir ⟨1⟩ ["d"] 0 false).Ready s ∧
      ¬(NameOp.mkdir ⟨1⟩ ["d"] 0 false).Meets refusing s := by
  refine ⟨_, rfl, rfl, ?_⟩
  rintro ⟨s', hrun, hsame⟩
  cases hrun
  have hroot := hsame.nodes ⟨1⟩
  cases hroot with
  | some hroot => exact absurd (congrArg Stat.mtime hroot.stat) (by decide)

end NameOp

end Madbfs
