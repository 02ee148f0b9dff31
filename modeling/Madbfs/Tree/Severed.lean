/-
When the filesystem follows a pointer to nothing.  There are two ways to it: a
descriptor whose node was erased under it, and a `rename` whose own lookups
have lost one of its directories, or that is to exchange a node with nothing.
-/
import Madbfs.Tree.Astray

namespace Madbfs

namespace FileTree

/-- The directories that `rename` has found are there no more, or there is
nothing to exchange the node with. -/
def Severed (s : FileTree) (fromParent toParent : Id) (source target : Path)
    (flags : Nat) : Prop :=
  s.isDir fromParent = false ∨ (s.nodes toParent).isSome = false ∨
    ∃ n, (s.children fromParent).lookup source.filename = some n ∧
      (s.isDir toParent = false ∨ Fs.hasFlag flags Fs.renameExchange = true ∧
        (fromParent = toParent ∧ source.filename = target.filename ∨
          (s.children toParent).lookup target.filename = none))

/-- The operation follows a null pointer, or one to a node that is gone. -/
def Dangles (s : FileTree) (event : Op × Env) : Prop :=
  match event.1 with
  | .read fd len offset => (s.start event.2).ReadsAstray event.2 fd len offset
  | .write fd _ _ => s.Astray (s.handles.findMode fd .write)
  | .flush fd | .release fd => s.Astray (s.handles.find fd)
  | .copyFileRange _ inFd _ _ outFd _ _ =>
      s.Astray (s.handles.find inFd) ∨ s.Astray (s.handles.find outFd)
  | .rename source target flags => source ≠ [] ∧
      ∃ n fromParent toParent t,
        Fs.RenameLookups event.2 (s.start event.2) t n fromParent toParent
          source target flags ∧
        event.2.answer t.tick (.rename source target flags) = .ok () ∧
        t.Severed fromParent toParent source target flags
  | _ => False

end FileTree

namespace Fs

open Program FileTree

variable {α β : Type} {s t : FileTree} {n fromParent toParent : Id}
  {env : Env} {path source target : Path} {flags : Nat} {fd : Nat}

section Rename

/-- The node has been taken from its directory, and carries its new name. -/
structure Taken (s t : FileTree) (n fromParent : Id) (source target : Path) :
    Prop where
  caching : t.Caching
  isDir : ∀ m, t.isDir m = s.isDir m
  isSome : ∀ m, (t.nodes m).isSome = (s.nodes m).isSome
  children : ∀ m, t.children m = if m = fromParent then
    (s.children fromParent).filter fun e => e.1 ≠ source.filename
    else s.children m
  named : ∃ node, t.nodes n = some node ∧ node.name = target.filename

theorem moveTo_taken {node : Node} (h : s.Caching)
    (hnode : s.nodes n = some node) (dir : Id) (path : Path) :
    ∃ t, moveTo n dir path s = some (.ok (), t) ∧ t.Caching ∧
      (∀ m, t.isDir m = s.isDir m) ∧
      (∀ m, (t.nodes m).isSome = (s.nodes m).isSome) ∧
      (∀ m, t.children m = s.children m) ∧
      ∃ node', t.nodes n = some node' ∧ node'.name = path.filename := by
  obtain ⟨t, hrun, ht, -, -, hchildren, hcore, hlabel⟩ :=
    moveTo_run h hnode dir path
  obtain ⟨node', hnode', hname, -⟩ :=
    label_eq_some.mp ((hlabel n).trans (if_pos rfl))
  refine ⟨t, hrun, ht, fun m => isDir_of_core (hcore m), fun m => ?_,
    hchildren, node', hnode', hname⟩
  have hsome := congrArg Option.isSome (hcore m)
  rwa [FileTree.core, FileTree.core, Option.isSome_map,
    Option.isSome_map] at hsome

/-- `relink` as far as the node is in its hands. -/
theorem taken_run (h : s.Caching) (hwf : s.WellFormed)
    (hfrom : s.isDir fromParent)
    (hlookup : (s.children fromParent).lookup source.filename = some n)
    (toParent : Id) (target : Path) : ∃ s₁ t,
      extract fromParent source.filename s = some (.ok (some n), s₁) ∧
      moveTo n toParent target s₁ = some (.ok (), t) ∧
      Taken s t n fromParent source target := by
  obtain ⟨node, hnode, -⟩ := hwf.listed (hwf.lookup_iff.mp hlookup)
  have hextract : extract fromParent source.filename s = some (.ok (some n),
      s.apply (.detach fromParent source.filename)) := by
    unfold extract
    rw [bind_of_ok (directory_run hfrom), hlookup]
    rfl
  have hc₁ : (s.apply (.detach fromParent source.filename)).Caching := h
  obtain ⟨node₁, hnode₁⟩ : ∃ node₁,
      (s.apply (.detach fromParent source.filename)).nodes n =
        some node₁ := by
    rw [← Option.isSome_iff_exists, isSome_apply rfl, hnode]
    rfl
  obtain ⟨t, hmove, ht, hdir, hsome, hchildren, hnamed⟩ :=
    moveTo_taken hc₁ hnode₁ toParent target
  refine ⟨_, t, hextract, hmove, ht, fun m => ?_, fun m => ?_, fun m => ?_,
    hnamed⟩
  · rw [hdir, isDir_apply rfl]
  · rw [hsome, isSome_apply rfl]
  · rw [hchildren, children_detach]

/-- Nothing is in the place of the node if nothing was, or the node itself. -/
theorem Taken.free_iff (h : Taken s t n fromParent source target) :
    (t.children toParent).lookup target.filename = none ↔
      fromParent = toParent ∧ source.filename = target.filename ∨
        (s.children toParent).lookup target.filename = none := by
  rw [h.children]
  split_ifs with heq
  · subst heq
    simp only [lookup_eq_none_iff, List.mem_map, List.mem_filter,
      decide_eq_true_eq, not_exists, not_and, and_imp, true_and]
    constructor
    · intro hgone
      by_cases hsame : source.filename = target.filename
      · exact .inl hsame
      · refine .inr fun e he hkey => hgone e he ?_ hkey
        rw [hkey]
        exact fun hcontra => hsame hcontra.symm
    · rintro (hsame | hgone) e he hne hkey
      · exact hne (hkey.trans hsame.symm)
      · exact hgone e he hkey
  · simp [Ne.symm heq]

theorem Taken.live {old : Id} (hwf : s.WellFormed)
    (h : Taken s t n fromParent source target) {name : Name}
    (hold : (t.children toParent).lookup name = some old) :
    (s.nodes old).isSome := by
  obtain ⟨before, after, hsplit, -⟩ := List.lookup_eq_some_iff.mp hold
  have hmem : (name, old) ∈ t.children toParent := by
    rw [hsplit]
    exact List.mem_append_right _ List.mem_cons_self
  rw [h.children] at hmem
  have hmem' : (name, old) ∈ s.children toParent := by
    split_ifs at hmem with heq
    · rw [heq]
      exact List.mem_of_mem_filter hmem
    · exact hmem
  obtain ⟨onode, honode, -⟩ := hwf.listed hmem'
  rw [honode]
  rfl

theorem tame_relink (h : s.Caching) (hwf : s.WellFormed)
    (hfree : ¬s.Severed fromParent toParent source target flags) :
    Tame (relink fromParent toParent source target flags) s := by
  have hfrom : s.isDir fromParent := by
    by_contra hnot
    exact hfree (.inl (by simpa using hnot))
  cases hlookup : (s.children fromParent).lookup source.filename with
  | none =>
      apply Tame.bind_extract hfrom
      · exact fun _ => Tame.fail h
      · intro c hc
        cases hlookup.symm.trans hc
  | some n =>
  have hto : s.isDir toParent := by
    by_contra hnot
    exact hfree (.inr (.inr ⟨n, hlookup, .inl (by simpa using hnot)⟩))
  obtain ⟨s₁, t, hextract, hmove, ht⟩ :=
    taken_run h hwf hfrom hlookup toParent target
  obtain ⟨node, hnode, hname⟩ := ht.named
  refine Surely.bind_of_ok hextract (Surely.bind_of_ok hmove ?_)
  have hto₁ : t.isDir toParent := (ht.isDir toParent).trans hto
  refine Surely.bind_of_ok (insert_overwrite hto₁ hnode) ?_
  have hc₁ : (t.apply (.detach toParent node.name)).Caching := ht.caching
  have hc₂ := caching_apply (e := .attach toParent n) hc₁
    fun c hc => by cases hc
  have hdir₂ : ∀ m, ((t.apply (.detach toParent node.name)).apply
      (.attach toParent n)).isDir m = s.isDir m := fun m => by
    rw [isDir_apply rfl, isDir_apply rfl, ht.isDir]
  have hsome₂ : ∀ m, (((t.apply (.detach toParent node.name)).apply
      (.attach toParent n)).nodes m).isSome = (s.nodes m).isSome := fun m => by
    rw [isSome_apply rfl, isSome_apply rfl, ht.isSome]
  set s₂ := (t.apply (.detach toParent node.name)).apply (.attach toParent n)
  cases hover : (t.children toParent).lookup node.name with
  | none =>
      split_ifs with hflag
      · rw [hname, ht.free_iff] at hover
        exact absurd (.inr (.inr ⟨n, hlookup, .inr ⟨hflag, hover⟩⟩)) hfree
      · exact Tame.pure hc₂
  | some old =>
      have hlive : (s₂.nodes old).isSome := by
        rw [hsome₂]
        exact ht.live hwf hover
      obtain ⟨onode, honode⟩ := Option.isSome_iff_exists.mp hlive
      split_ifs
      · obtain ⟨s₃, hmove', hc₃, hdir₃, -, -, node₃, hnode₃, -⟩ :=
          moveTo_taken hc₂ honode fromParent source
        refine Surely.bind_of_ok hmove' ?_
        have hfrom₃ : s₃.isDir fromParent := by
          rw [hdir₃, hdir₂]
          exact hfrom
        refine Tame.bind_insert hc₃ hfrom₃ hnode₃ ?_ ?_
        · exact fun _ => Tame.pure
            (caching_apply hc₃ fun c hc => by cases hc)
        · intro _ _ hcontra
          cases hcontra
      · apply Tame.bind_invalidateOne hc₂
        intro u _ hu
        refine Surely.bind_of_ok (edit_apply _ _) ?_
        exact ⟨_, _, destroy_apply _ _, hu⟩

theorem directory_wrong {dir : Id} (hdir : s.isDir dir = false) :
    directory dir s = none := by
  cases hrun : directory dir s with
  | none => rfl
  | some p =>
      have hisDir := (directory_cases hrun).1
      rw [hdir] at hisDir
      cases hisDir

theorem bind_of_none {x : Fs α} {f : α → Fs β} (hx : x s = none) :
    (x >>= f) s = none := by
  rw [bind_apply, hx]

theorem relink_severed (h : s.Caching) (hwf : s.WellFormed)
    (hlive : (s.nodes toParent).isSome)
    (hsevered : s.Severed fromParent toParent source target flags) :
    relink fromParent toParent source target flags s = none := by
  by_cases hfrom : s.isDir fromParent = true
  swap
  · exact bind_of_none (bind_of_none (directory_wrong (by simpa using hfrom)))
  rcases hsevered with hnot | hgone | ⟨n, hlookup, hrest⟩
  · rw [hnot] at hfrom
    cases hfrom
  · rw [hgone] at hlive
    cases hlive
  obtain ⟨s₁, t, hextract, hmove, ht⟩ :=
    taken_run h hwf hfrom hlookup toParent target
  obtain ⟨node, hnode, hname⟩ := ht.named
  unfold relink
  rw [bind_of_ok hextract]
  dsimp only
  rw [bind_of_ok hmove]
  rcases hrest with hto | ⟨hflag, hover⟩
  · exact bind_of_none (bind_of_none (directory_wrong
      ((ht.isDir toParent).trans hto)))
  · by_cases hto : t.isDir toParent = true
    · rw [bind_of_ok (insert_overwrite hto hnode), hname, if_pos hflag,
        ht.free_iff.mpr hover]
      rfl
    · exact bind_of_none (bind_of_none (directory_wrong (by simpa using hto)))

theorem severed_apply {e : Edit} (hshape : Edit.keepsShape e = true)
    (hkind : Edit.keepsKind e = true) :
    (s.apply e).Severed fromParent toParent source target flags ↔
      s.Severed fromParent toParent source target flags := by
  unfold Severed
  simp only [isDir_apply hkind, isSome_apply hkind,
    (sameShape_apply hshape).children]

theorem tame_renameAt (h : s.Caching) (hwf : s.WellFormed)
    (hfree : env.answer s.tick (.rename source target flags) = .ok () →
      ¬s.Severed fromParent toParent source target flags) :
    Tame (renameAt env fromParent toParent source target flags) s := by
  apply Tame.bind_request h
  intro _ hanswer
  have hfree' := hfree hanswer
  have hfrom : s.isDir fromParent := by
    by_contra hnot
    exact hfree' (.inl (by simpa using hnot))
  have hto : (s.nodes toParent).isSome := by
    by_contra hnot
    exact hfree' (.inr (.inl (by simpa using hnot)))
  have hlive₁ : ((s.apply (.clock (env.delay s.tick))).nodes
      fromParent).isSome := isSome_of_isDir hfrom
  apply Tame.bind_refreshStat hlive₁
  intro stat
  apply Tame.bind_refreshStat
  · rw [isSome_apply rfl]
    exact hto
  intro stat'
  refine tame_relink h ?_ ?_
  · exact hwf.congr ((sameShape_apply rfl).trans
      ((sameShape_apply rfl).trans (sameShape_apply rfl)))
  · rw [severed_apply rfl rfl, severed_apply rfl rfl, severed_apply rfl rfl]
    exact hfree'

theorem renameAt_severed (h : s.Caching) (hwf : s.WellFormed)
    (hanswer : env.answer s.tick (.rename source target flags) = .ok ())
    (hsevered : s.Severed fromParent toParent source target flags) :
    renameAt env fromParent toParent source target flags s = none := by
  have hrequest := request_apply env (.rename source target flags) s
  rw [hanswer] at hrequest
  have hsevered₁ : (s.apply (.clock (env.delay s.tick))).Severed fromParent
      toParent source target flags := hsevered
  rw [renameAt, bind_of_ok hrequest]
  set s₁ := s.apply (.clock (env.delay s.tick))
  cases hfrom : s₁.nodes fromParent with
  | none => exact bind_of_none (bind_of_none (by rw [deref, hfrom]))
  | some d =>
  rw [bind_of_ok (refreshStat_apply hfrom .omit .now)]
  have hsevered₂ := (severed_apply (e := .setStat fromParent
    (d.stat.refresh .omit .now (env.system s₁.tick))) rfl rfl).mpr hsevered₁
  set s₂ := s₁.apply (.setStat fromParent
    (d.stat.refresh .omit .now (env.system s₁.tick)))
  cases hto : s₂.nodes toParent with
  | none => exact bind_of_none (bind_of_none (by rw [deref, hto]))
  | some d' =>
  rw [bind_of_ok (refreshStat_apply hto .omit .now)]
  refine relink_severed h ?_ ?_ ((severed_apply rfl rfl).mpr hsevered₂)
  · exact hwf.congr ((sameShape_apply rfl).trans
      ((sameShape_apply rfl).trans (sameShape_apply rfl)))
  · rw [isSome_apply rfl, hto]
    rfl

end Rename

end Fs

end Madbfs
