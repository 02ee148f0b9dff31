/-
Lookups keep places: what was there before a lookup and is still there after it
is where it was.  So the node a lookup returns is the one at its path.
-/
import Madbfs.Tree.Looked
import Madbfs.Tree.Sitting

namespace Madbfs

namespace FileTree

variable {s t : FileTree} {n m dir : Id} {name : Name}
  {path : Path} {up : List Id} {e : Edit}

/-- What was there and still is has kept its place, and nothing is opened. -/
structure Settled (s t : FileTree) : Prop where
  root : t.root = s.root
  nextId : s.nextId ≤ t.nextId
  label : ∀ m, m.inner ≤ s.nextId → (t.nodes m).isSome → t.label m = s.label m
  opened : ∀ m, t.Opened m → s.Opened m

theorem Settled.refl (s : FileTree) : Settled s s :=
  ⟨rfl, Nat.le_refl _, fun _ _ _ => rfl, fun _ h => h⟩

theorem Settled.trans {u : FileTree} (hleft : Settled s t)
    (hright : Settled t u) : Settled s u where
  root := hright.root.trans hleft.root
  nextId := Nat.le_trans hleft.nextId hright.nextId
  label := by
    intro m hm hlive
    have hlabel := hright.label m (Nat.le_trans hm hleft.nextId) hlive
    have hlive' : (t.nodes m).isSome := by
      rw [← isSome_label, ← hlabel, isSome_label]
      exact hlive
    rw [hlabel, hleft.label m hm hlive']
  opened := fun m hm => hleft.opened m (hright.opened m hm)

/-- The changes that move no node and open none. -/
def Edit.keepsPlaces : Edit → Bool
  | .alloc _ _ | .setName _ _ | .setParent _ _ | .store _ => false
  | _ => true

theorem settled_apply (he : Edit.keepsPlaces e = true) :
    Settled s (s.apply e) := by
  refine ⟨root_apply s e, nextId_apply s e, fun m _ hlive => ?_,
    fun m hm => opened_apply (by cases e <;> first | rfl | cases he) hm⟩
  cases e with
  | alloc | setName | setParent | store => cases he
  | detach => exact label_detach
  | attach => exact label_attach
  | convert => exact label_convert
  | destroy ns =>
      rw [label_destroy, if_neg]
      intro hmem
      rw [show (s.apply (.destroy ns)).nodes m = none from if_pos hmem] at hlive
      cases hlive
  | _ => exact (sameShape_apply rfl).label m

theorem settled_alloc {node : Node} :
    Settled s (s.apply (.alloc ⟨s.nextId + 1⟩ node)) := by
  refine ⟨rfl, Nat.le_succ _, fun m hm _ => ?_, fun _ hm => hm⟩
  rw [label_alloc, if_neg]
  rintro rfl
  exact absurd hm (Nat.not_succ_le_self _)

/-- A node that is listed in a tree that came of this one was listed here. -/
theorem Settled.mem (h : s.Tidy []) (hsettled : Settled s t)
    (hwf : t.WellFormed) (hlive : (s.nodes n).isSome)
    (hmem : (name, n) ∈ t.children dir) : (name, n) ∈ s.children dir := by
  obtain ⟨node, hnode⟩ := Option.isSome_iff_exists.mp hlive
  have hlabel := hsettled.label n (h.wf.known hnode)
    (hwf.isSome_child hmem)
  rw [hwf.label hmem] at hlabel
  exact h.mem_of_label hlabel.symm (h.inTree hlive)

/-- The way to a node that is still there is the one there was. -/
theorem Settled.way (h : s.Tidy []) (hsettled : Settled s t)
    (hwf : t.WellFormed) (hlive : (s.nodes n).isSome)
    (hway : t.Way path (n :: up)) : s.Way path (n :: up) := by
  generalize hline : n :: up = line at hway
  induction hway generalizing n up with
  | root =>
      cases hline
      rw [hsettled.root]
      exact .root
  | child hmem hway ih =>
      cases hline
      have hmem' := hsettled.mem h hwf hlive hmem
      exact .child hmem' (ih (isSome_of_mem hmem') rfl)

/-- A path that led to a node still does, if the node is still there. -/
theorem Settled.resolve (h : s.Tidy []) (h' : t.Tidy [])
    (hsettled : Settled s t) (hresolve : s.resolve path = some n)
    (hlive : (t.nodes n).isSome) : t.resolve path = some n := by
  have hin := inTree_of_resolve h.wf hresolve
  obtain ⟨up, hway⟩ := h.wf.way_of_resolve hresolve
  obtain ⟨path', up', hway'⟩ := (h'.inTree hlive).way
  have hold := hsettled.way h h'.wf (h.wf.isSome_of_inTree hin) hway'
  obtain ⟨rfl, -⟩ := hway.unique h.wf hold
  exact hway'.resolve h'.wf

/-- Nodes keep their places. -/
def settling : Discipline FileTree where
  holds := fun _ => True
  rel := Settled
  refl := Settled.refl
  trans := Settled.trans
  keeps := fun _ _ => trivial

end FileTree

namespace Fs

open Program FileTree

section Lookups

variable {watched : Prop} {s s' : FileTree} {n dir parent current : Id}
  {name : Name} {env : Env} {α : Type} {path : Path} {stat : Stat} {file : File}

theorem settles_edit {e : Edit} (he : Edit.keepsPlaces e = true) :
    (edit e).Obeys settling s fun _ _ => True :=
  Obeys.change (fun _ => settled_apply he) fun _ => trivial

theorem allows_settling : Allows settling := by
  intro s e _ he
  apply settled_apply
  cases e <;> first | rfl | cases he

theorem settles_destroy : (destroy n).Obeys settling s fun _ _ => True := by
  apply Obeys.bind_state
  exact settles_edit rfl

theorem settles_directory : (directory n).Obeys settling s
    fun _ s' => s' = s := by
  apply quiet_bind_deref
  intro node _
  split
  · exact Obeys.pure fun _ => rfl
  · exact Obeys.wrong

theorem settles_insert {overwrite : Bool} :
    (insert dir n overwrite).Obeys settling s fun _ _ => True := by
  apply Obeys.bind settles_directory
  rintro list s₁ - - rfl
  apply quiet_bind_deref
  intro node _
  split
  · apply Obeys.bind (settles_edit rfl)
    exact fun _ _ _ _ _ => Obeys.pure fun _ => trivial
  · split_ifs
    · apply Obeys.bind (settles_edit rfl)
      intro _ _ _ _ _
      apply Obeys.bind (settles_edit rfl)
      exact fun _ _ _ _ _ => Obeys.pure fun _ => trivial
    · exact Obeys.bind settles_destroy fun _ _ _ _ _ => Obeys.fail

theorem settles_nodeBuild :
    (nodeBuild parent name stat file).Obeys settling s fun _ _ => True := by
  refine Obeys.bind (Q := fun _ _ => True) ?_ fun n s₁ _ _ _ => ?_
  · apply Obeys.bind_state
    refine Obeys.bind (Q := fun _ _ => True) ?_ fun _ _ _ _ _ =>
      Obeys.pure fun _ => trivial
    exact Obeys.change (fun _ => settled_alloc) fun _ => trivial
  · apply quiet_bind_deref
    intro node _
    split
    · exact Obeys.bind settles_destroy fun _ _ _ _ _ => Obeys.fail
    · exact Obeys.bind settles_insert fun _ _ _ _ _ =>
        Obeys.pure fun _ => trivial

theorem settles_buildThenExpire :
    (buildThenExpire parent name stat file).Obeys settling s
      fun _ _ => True := by
  apply Obeys.bind settles_nodeBuild
  intro _ _ _ _ _
  exact Obeys.bind (quiet_expiresAfter allows_settling) fun _ _ _ _ _ =>
    Obeys.pure fun _ => trivial

theorem settles_buildError {err : Errc} :
    (buildError parent name err).Obeys settling s fun _ _ => True := by
  refine Obeys.bind (Q := fun _ _ => True) ?_ fun _ _ _ _ _ => Obeys.fail
  refine Obeys.when (fun _ => ?_) fun _ _ => trivial
  refine Obeys.bind (Q := fun _ _ => True) ?_ fun _ _ _ _ _ =>
    Obeys.pure fun _ => trivial
  exact Obeys.outcome settles_buildThenExpire fun _ _ _ _ => trivial

theorem settles_build : (build env parent path).Obeys settling s
    fun _ _ => True := by
  apply Obeys.bind (quiet_request_outcome allows_settling)
  intro answer _ _ _ _
  cases answer with
  | error err => exact settles_buildError
  | ok stat => exact settles_buildThenExpire

theorem settles_buildDirectory :
    (buildDirectory env parent path).Obeys settling s fun _ _ => True := by
  apply Obeys.bind (quiet_request_outcome allows_settling)
  intro answer _ _ _ _
  cases answer with
  | error err => exact settles_buildError
  | ok stat =>
      dsimp only
      split_ifs
      · exact settles_buildThenExpire
      · exact Obeys.fail

theorem settles_invalidateOne :
    (invalidateOne n).Obeys settling s fun _ _ => True := by
  apply Obeys.bind_state
  split
  · exact Obeys.pure fun _ => trivial
  · split
    · exact settles_edit rfl
    · exact Obeys.wrong

theorem settles_invalidate :
    (invalidate n file).Obeys settling s fun _ _ => True := by
  cases file with
  | directory children synced =>
      apply Obeys.bind_state
      apply Obeys.bind (Obeys.forEach (J := fun _ => True)
        (fun _ _ _ _ _ => settles_edit rfl) trivial)
      intro _ _ _ _ _
      apply Obeys.bind (Obeys.forEach (J := fun _ => True)
        (fun _ _ _ _ _ => settles_invalidateOne) trivial)
      intro _ _ _ _ _
      apply Obeys.bind (settles_edit rfl)
      exact fun _ _ _ _ _ => settles_edit rfl
  | regular dirty =>
      apply Obeys.bind settles_invalidateOne
      exact fun _ _ _ _ _ => settles_edit rfl
  | link | other | error => exact Obeys.pure fun _ => trivial

theorem settles_mutateAndInvalidate :
    (mutateAndInvalidate n file).Obeys settling s fun _ _ => True := by
  apply quiet_bind_deref
  intro node _
  apply Obeys.bind (settles_edit rfl)
  exact fun _ _ _ _ _ => settles_invalidate

theorem settles_update :
    (update env n path).Obeys settling s fun _ _ => True := by
  apply Obeys.bind (quiet_request_outcome allows_settling)
  intro answer s₁ _ _ _
  apply quiet_bind_deref
  intro node _
  cases answer with
  | error err =>
      refine Obeys.bind (Q := fun _ _ => True) ?_ fun _ _ _ _ _ => Obeys.fail
      refine Obeys.when (fun _ => ?_) fun _ _ => trivial
      exact Obeys.bind settles_mutateAndInvalidate fun _ _ _ _ _ =>
        quiet_expiresAfter allows_settling
  | ok stat =>
      change (if _ then _ else if _ then _ else _ : Fs Unit).Obeys _ _ _
      split_ifs
      · exact quiet_expiresAfter allows_settling
      · apply Obeys.bind (quiet_setStat allows_settling)
        intro _ _ _ _ _
        apply Obeys.bind (quiet_setSynced allows_settling)
        exact fun _ _ _ _ _ => quiet_expiresAfter allows_settling
      · apply Obeys.bind (quiet_setStat allows_settling)
        intro _ _ _ _ _
        apply Obeys.bind settles_mutateAndInvalidate
        exact fun _ _ _ _ _ => quiet_expiresAfter allows_settling

theorem settles_enter {builder : Id → Path → Fs Id}
    (hbuilder : ∀ s, (builder current path).Obeys settling s
      fun _ _ => True) :
    (enter env builder current name path).Obeys settling s
      fun _ _ => True := by
  refine Obeys.bind (Q := fun _ _ => True) ?_ fun found s₁ _ _ _ => ?_
  · refine Obeys.outcome ?_ fun _ _ _ _ => trivial
    refine Obeys.bind (Q := fun _ _ => True) ?_ fun _ _ _ _ _ => ?_
    · exact quiet_bind_deref fun _ _ => Obeys.ofExcept fun _ _ _ => trivial
    · split
      · exact Obeys.pure fun _ => trivial
      · exact Obeys.fail
  · cases found with
    | error err => exact hbuilder s₁
    | ok next =>
        apply quiet_bind_deref
        intro node _
        apply Obeys.bind_state
        refine Obeys.bind (Obeys.when (fun _ => settles_update)
          fun _ _ => trivial) fun _ _ _ _ _ => Obeys.pure fun _ => trivial

theorem settles_descend {above : Path} :
    (descend env path current above).Obeys settling s fun _ _ => True := by
  induction path generalizing s current above with
  | nil => exact Obeys.pure fun _ => trivial
  | cons name rest ih =>
      apply Obeys.bind (settles_enter fun _ => settles_buildDirectory)
      exact fun _ _ _ _ _ => ih

theorem settles_traverseOrBuild :
    (traverseOrBuild env path).Obeys settling s fun _ _ => True := by
  apply Obeys.bind_state
  split_ifs
  · exact Obeys.pure fun _ => trivial
  · apply Obeys.bind settles_descend
    exact fun _ _ _ _ _ => settles_enter fun _ => settles_build

/-- What is built lies in its parent. -/
theorem buildThenExpire_label
    (hrun : buildThenExpire parent name stat file s = some (.ok n, s')) :
    s'.label n = some (name, some parent) := by
  rcases bind_cases hrun with ⟨err, -, herr⟩ | ⟨m, t, hbuild, hrest⟩
  · cases herr
  have hbuilt : t.label m = some (name, some parent) := by
    set child := Node.create name (some parent) stat file with hchild
    set s₁ := s.apply (.alloc ⟨s.nextId + 1⟩ child) with hs₁
    have hnode : s₁.nodes ⟨s.nextId + 1⟩ = some child :=
      Function.update_self _ _ _
    have halloc : alloc name parent stat file s =
        some (.ok ⟨s.nextId + 1⟩, s₁) := rfl
    unfold nodeBuild at hbuild
    rw [bind_of_ok halloc] at hbuild
    obtain ⟨d, hd, hbuild⟩ := bind_deref_cases hbuild
    cases hdirectory : d.file.asDirectory with
    | error err =>
        rw [hdirectory] at hbuild
        dsimp only at hbuild
        rw [bind_of_ok (destroy_apply _ _)] at hbuild
        cases hbuild
    | ok list =>
        rw [hdirectory] at hbuild
        dsimp only at hbuild
        rcases bind_cases hbuild with ⟨err, -, herr⟩ | ⟨o, t', hinsert, hret⟩
        · cases herr
        · cases hret
          obtain ⟨-, ⟨-, -, rfl⟩ | ⟨old, -, ⟨hover, -⟩ | ⟨-, herr, -⟩⟩⟩ :=
            insert_cases hnode hinsert
          · exact label_attach.trans (label_eq hnode)
          · cases hover
          · cases herr
  rcases bind_cases hrest with ⟨err, -, herr⟩ | ⟨u, t', hexpire, hret⟩
  · cases herr
  · cases hret
    obtain ⟨node, hnode, -⟩ := bind_deref_cases hexpire
    rw [expiresAfter_apply hnode] at hexpire
    cases hexpire
    exact ((sameShape_apply rfl).label n).trans hbuilt

theorem build_label (hrun : build env parent path s = some (.ok n, s')) :
    s'.label n = some (path.filename, some parent) := by
  unfold build at hrun
  rw [bind_of_ok (outcome_apply (request_apply env (.stat path) s))] at hrun
  cases hanswer : env.answer s.tick (.stat path) with
  | error err =>
      rw [hanswer] at hrun
      exact absurd rfl (buildError_cases hrun)
  | ok stat =>
      rw [hanswer] at hrun
      exact buildThenExpire_label hrun

theorem buildDirectory_label
    (hrun : buildDirectory env parent path s = some (.ok n, s')) :
    s'.label n = some (path.filename, some parent) := by
  unfold buildDirectory at hrun
  rw [bind_of_ok (outcome_apply (request_apply env (.stat path) s))] at hrun
  cases hanswer : env.answer s.tick (.stat path) with
  | error err =>
      rw [hanswer] at hrun
      exact absurd rfl (buildError_cases hrun)
  | ok stat =>
      rw [hanswer] at hrun
      dsimp only at hrun
      split_ifs at hrun
      · exact buildThenExpire_label hrun
      · cases hrun

/-- A node that was brought up to date is still there. -/
theorem update_live (hrun : update env n path s = some (.ok (), s')) :
    (s'.nodes n).isSome := by
  have hexpires : ∀ {t t' : FileTree},
      expiresAfter n t = some (.ok (), t') → (t'.nodes n).isSome := by
    intro t t' hexpire
    obtain ⟨node, hnode, -⟩ := bind_deref_cases hexpire
    rw [expiresAfter_apply hnode] at hexpire
    cases hexpire
    rw [SameShape.isSome (sameShape_apply rfl), hnode]
    rfl
  have hlast : ∀ {x : Fs Unit} {t : FileTree},
      (x >>= fun _ => expiresAfter n) t = some (.ok (), s') →
      (s'.nodes n).isSome := by
    intro x t hx
    rcases bind_cases hx with ⟨err, -, herr⟩ | ⟨u, t', -, hexpire⟩
    · cases herr
    · exact hexpires hexpire
  unfold update at hrun
  rw [bind_of_ok (outcome_apply (request_apply env (.stat path) s))] at hrun
  obtain ⟨node, hnode, hrun⟩ := bind_deref_cases hrun
  cases hanswer : env.answer s.tick (.stat path) with
  | error err =>
      rw [hanswer] at hrun
      rcases bind_cases hrun with ⟨err', -, herr⟩ | ⟨u, t, -, hfail⟩
      · cases herr
      · cases hfail
  | ok stat =>
      rw [hanswer] at hrun
      dsimp only at hrun
      split_ifs at hrun
      · exact hexpires hrun
      · rw [← bind_assoc] at hrun
        exact hlast hrun
      · unfold rebuild at hrun
        rw [← bind_assoc] at hrun
        exact hlast hrun

/-- A step of a lookup ends in the directory it started from. -/
theorem enter_label {builder : Id → Path → Fs Id} (hwf : s.WellFormed)
    (hbuilder : builder current path s = some (.ok n, s') →
      s'.label n = some (name, some current))
    (hrun : enter env builder current name path s = some (.ok n, s')) :
    s'.label n = some (name, some current) := by
  rcases bind_cases hrun with ⟨err, hout, -⟩ | ⟨found, s₁, hout, hrest⟩
  · obtain ⟨p, -, heq⟩ := Option.map_eq_some_iff.mp hout
    cases heq
  obtain ⟨⟨found, t⟩, htraverse, heq⟩ := Option.map_eq_some_iff.mp hout
  cases heq
  obtain ⟨rfl, hfound⟩ := traverseNode_cases htraverse
  cases found with
  | error err => exact hbuilder hrest
  | ok next =>
      have hmem := hwf.lookup_iff.mp (hfound next rfl)
      obtain ⟨node, hnode, hrest⟩ := bind_deref_cases hrest
      rw [bind_of_ok (state_apply t)] at hrest
      rcases bind_cases hrest with ⟨err, -, herr⟩ | ⟨u, t', hwhen, hret⟩
      · cases herr
      cases hret
      unfold Program.when at hwhen
      split_ifs at hwhen
      · have hsettled := (settles_update trivial _ _ hwhen).1
        rw [hsettled.label n (hwf.known hnode) (update_live hwhen)]
        exact hwf.label hmem
      · cases hwhen
        exact hwf.label hmem

/-- A step of a lookup leads one name further. -/
theorem enter_at {builder : Id → Path → Fs Id} {above : Path}
    (h : s.Sound watched []) (hname : ValidName name)
    (hsits : (s.nodes current).isSome →
      (builder current path).Obeys (sitting watched) s fun _ _ => True)
    (hsettles : ∀ s, (builder current path).Obeys settling s fun _ _ => True)
    (hbuilder : builder current path s = some (.ok n, s') →
      s'.label n = some (name, some current))
    (hresolve : s.resolve above = some current)
    (hrun : enter env builder current name path s = some (.ok n, s')) :
    s'.Sound watched [] ∧ s'.resolve (above.extend name) = some n := by
  have h' : s'.Sound watched [] := (sits_enter hsits h _ _ hrun).1 h
  have hlabel := enter_label h.tidy.wf hbuilder hrun
  have hsettled := (settles_enter hsettles trivial _ _ hrun).1
  have hlive : (s'.nodes n).isSome := by
    rw [← isSome_label, hlabel]
    rfl
  have hmem := h'.tidy.mem_of_label hlabel (h'.tidy.inTree hlive)
  have hcurrent := hsettled.resolve h.tidy h'.tidy hresolve
    (isSome_of_mem hmem)
  refine ⟨h', ?_⟩
  rw [Path.extend, if_pos hname, resolve_append, hcurrent]
  change s'.child current name >>= pure = some n
  rw [h'.tidy.wf.child_eq hmem]
  rfl

/-- What the loop over the parents returns is at the path it has gone. -/
theorem descend_at {above done : Path} (h : s.Sound watched [])
    (hvalid : ∀ name ∈ path, ValidName name)
    (hresolve : s.resolve above = some current)
    (hrun : descend env path current above s = some (.ok (n, done), s')) :
    s'.Sound watched [] ∧ s'.resolve done = some n ∧ done = above ++ path := by
  induction path generalizing s above current with
  | nil =>
      cases hrun
      exact ⟨h, hresolve, (List.append_nil _).symm⟩
  | cons name rest ih =>
      have hname := hvalid name List.mem_cons_self
      have hfilename : (above.extend name).filename = name :=
        filename_extend hname
      rcases bind_cases hrun with ⟨err, -, herr⟩ | ⟨next, s₁, hround, hrest⟩
      · cases herr
      obtain ⟨h₁, hresolve₁⟩ := enter_at h hname
        (fun hlive => sits_buildDirectory hlive (by rw [hfilename]; exact hname))
        (fun _ => settles_buildDirectory)
        (fun hbuilt => by rw [buildDirectory_label hbuilt, hfilename])
        hresolve hround
      obtain ⟨h', hdone, rfl⟩ := ih h₁
        (fun k hk => hvalid k (List.mem_cons_of_mem name hk)) hresolve₁ hrest
      refine ⟨h', hdone, ?_⟩
      rw [Path.extend, if_pos hname, List.append_assoc]
      rfl

/-- A lookup returns the node at its path. -/
theorem traverseOrBuild_at (h : s.Sound watched [])
    (hvalid : ∀ name ∈ path, ValidName name)
    (hrun : traverseOrBuild env path s = some (.ok n, s')) :
    s'.Sound watched [] ∧ s'.resolve path = some n := by
  unfold traverseOrBuild at hrun
  rw [bind_of_ok (state_apply s)] at hrun
  split_ifs at hrun with hempty
  · cases hrun
    rw [List.isEmpty_iff.mp hempty]
    exact ⟨h, rfl⟩
  · have hne : path ≠ [] := by simpa using hempty
    have hname := valid_filename hne hvalid
    rcases bind_cases hrun with ⟨err, -, herr⟩ | ⟨⟨dir, above⟩, s₁, hloop, hlast⟩
    · cases herr
    obtain ⟨h₁, hresolve₁, rfl⟩ := descend_at h (valid_parentPath hvalid) rfl
      hloop
    rw [List.nil_append] at hlast
    have hfilename : (path.parentPath.extend path.filename).filename =
        path.filename := filename_extend hname
    obtain ⟨h', hresolve'⟩ := enter_at h₁ hname
      (fun hlive => sits_build hlive (by rw [hfilename]; exact hname))
      (fun _ => settles_build)
      (fun hbuilt => by rw [build_label hbuilt, hfilename]) hresolve₁ hlast
    refine ⟨h', ?_⟩
    rwa [Path.extend, if_pos hname, List.nil_append,
      Path.parentPath_filename hne] at hresolve'

end Lookups

end Fs

end Madbfs
