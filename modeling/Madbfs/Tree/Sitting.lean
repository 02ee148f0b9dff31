/-
Lookups keep nodes and handles where they belong: what they build is put into
the tree or goes at once, and what they replace takes its handles along.
-/
import Madbfs.Tree.Quiet

namespace Madbfs

/-- Nodes and handles stay where they belong. -/
def sitting (watched : Prop) : Discipline FileTree where
  holds := fun s => s.Sound watched []
  rel := fun s t => s.Sound watched [] → t.Sound watched []
  refl := fun _ h => h
  trans := fun hleft hright h => hright (hleft h)
  keeps := fun hrel h => hrel h

namespace Fs

open Program FileTree

variable {watched : Prop} {s s' : FileTree} {n m dir parent : Id}
  {name : Name} {node : Node}
  {env : Env} {α β : Type} {path : Path} {stat : Stat} {file : File}

/-- What its outcomes say. -/
theorem sits_of_run {x : Fs α} {Q : α → FileTree → Prop}
    (hrun : ∀ r s', s.Sound watched [] → x s = some (r, s') →
      s'.Sound watched [] ∧ ∀ a, r = .ok a → Q a s') :
    x.Obeys (sitting watched) s Q := by
  intro h r s' hx
  obtain ⟨h', hval⟩ := hrun r s' h hx
  exact ⟨fun _ => h', hval⟩

theorem allows_sitting : Allows (sitting watched) :=
  fun _ _ _ he h => h.apply he

theorem sits_invalidateOne : (invalidateOne n).Obeys (sitting watched) s
    fun _ s' => s' = { s with cache := s'.cache } := by
  apply sits_of_run
  intro r s' h hrun
  obtain ⟨-, hsame, -⟩ := invalidateOne_effect hrun
  exact ⟨h.recache hsame, fun _ _ => hsame⟩

theorem sits_rebuild (hn : n ≠ s.root) (hfile : file.children = []) :
    (rebuild n stat file).Obeys (sitting watched) s fun _ _ => True := by
  rw [rebuild_eq]
  apply quiet_bind_deref
  intro node hnode
  refine Obeys.bind (Q := fun _ _ => True) ?_ fun _ _ _ _ _ =>
    quiet_expiresAfter allows_sitting
  apply sits_of_run
  intro r s' h hrun
  exact ⟨convert_sound h hnode hn hfile hrun, fun _ _ => trivial⟩

theorem sits_mutate (hn : n ≠ s.root) (hfile : file.children = []) :
    (mutateAndInvalidate n file).Obeys (sitting watched) s fun _ _ => True := by
  apply quiet_bind_deref
  intro node hnode
  apply sits_of_run
  intro r s' h hrun
  exact ⟨convert_sound h hnode hn hfile hrun, fun _ _ => trivial⟩

theorem sits_update (hn : n ≠ s.root) :
    (update env n path).Obeys (sitting watched) s fun _ _ => True := by
  apply Obeys.bind (quiet_request_outcome allows_sitting)
  rintro answer s₁ - - ⟨rfl, -⟩
  apply quiet_bind_deref
  intro node hnode
  cases answer with
  | error err =>
      refine Obeys.bind (Q := fun _ _ => True) ?_ fun _ _ _ _ _ => Obeys.fail
      apply Obeys.when
      · intro _
        have hn' : n ≠ (s.apply (.clock (env.delay s.tick))).root := hn
        apply Obeys.bind (sits_mutate hn' rfl)
        exact fun _ _ _ _ _ => quiet_expiresAfter allows_sitting
      · exact fun _ _ => trivial
  | ok stat =>
      change (if _ then _ else if _ then _ else _ : Fs Unit).Obeys _ _ _
      split_ifs
      · exact quiet_expiresAfter allows_sitting
      · apply Obeys.bind (quiet_setStat allows_sitting)
        intro _ _ _ _ _
        apply Obeys.bind (quiet_setSynced allows_sitting)
        exact fun _ _ _ _ _ => quiet_expiresAfter allows_sitting
      · exact sits_rebuild hn (File.children_create _)

/-- A node in hand is put into a directory of the tree. -/
theorem attach_sound {hands hands' : List Id} (h : s.Sound watched hands)
    (hrest : ∀ k, k ∈ hands' ↔ k ∈ hands ∧ k ≠ n) (hisDir : s.isDir dir)
    (hdir : s.InTree dir) (hnode : s.nodes n = some node)
    (hparent : node.parent = some dir) (hvalid : ValidName node.name)
    (hlookup : (s.children dir).lookup node.name = none) :
    (s.apply (.attach dir n)).Sound watched hands' := by
  obtain ⟨d, hd, hdirectory⟩ := isDir_iff.mp hisDir
  exact ⟨h.tidy.attach hrest hd hdirectory hdir hnode hparent hvalid
    (lookup_eq_none_iff.mp hlookup), fun hw => (h.seated hw).apply rfl rfl⟩

/-- A node that is the only one in hand is put into a directory, or it goes if
the name is taken. -/
theorem insert_sound {r : Except Errc (Option Id)} (h : s.Sound watched [n])
    (hnode : s.nodes n = some node) (hparent : node.parent = some dir)
    (hvalid : ValidName node.name) (hdir : ¬s.Below n dir)
    (hclosed : watched → ∀ m, s.Below n m → ¬s.Opened m)
    (hrun : insert dir n false s = some (r, s')) :
    s'.Sound watched [] ∧ (r = .ok none ∧ s' = s.apply (.attach dir n) ∨
      r = .error Errc.fileExists) := by
  have hempty : ∀ k, k ∈ ([] : List Id) ↔ k ∈ [n] ∧ k ≠ n := by simp
  obtain ⟨hisDir, hcases⟩ := insert_cases hnode hrun
  rcases hcases with ⟨hlookup, hr, rfl⟩ | ⟨old, -, hcases⟩
  · refine ⟨?_, .inl ⟨hr, rfl⟩⟩
    obtain ⟨d, hd, -⟩ := isDir_iff.mp hisDir
    rcases h.tidy.placed dir (by rw [hd]; rfl) with hin | ⟨k, hk, hbelow⟩
    · exact attach_sound h hempty hisDir hin hnode hparent hvalid hlookup
    · rw [List.mem_singleton.mp hk] at hbelow
      exact absurd hbelow hdir
  · rcases hcases with ⟨hover, -⟩ | ⟨-, hr, rfl⟩
    · cases hover
    · exact ⟨h.destroy List.mem_cons_self hempty hclosed, .inr hr⟩

/-- A new node is in nobody's way. -/
theorem opened_alloc (h : s.Sound watched []) (node : Node)
    (hfile : node.file.children = []) (hparent : (s.nodes dir).isSome) :
    ¬(s.apply (.alloc ⟨s.nextId + 1⟩ node)).Below ⟨s.nextId + 1⟩ dir ∧
      (watched → ∀ m, (s.apply (.alloc ⟨s.nextId + 1⟩ node)).Below
        ⟨s.nextId + 1⟩ m → ¬(s.apply (.alloc ⟨s.nextId + 1⟩ node)).Opened m) := by
  have hleaf : (s.apply (.alloc ⟨s.nextId + 1⟩ node)).children
      ⟨s.nextId + 1⟩ = [] := by
    rw [children_alloc, if_pos rfl, hfile]
  refine ⟨fun hbelow => ?_, fun hw m hbelow hopened => ?_⟩
  · exact h.tidy.wf.fresh hparent (below_leaf hleaf hbelow)
  · have hold : s.Opened m := hopened
    exact h.tidy.wf.fresh ((h.seated hw).isSome hold) (below_leaf hleaf hbelow)

/-- A node is built in a directory, or it goes at once. -/
theorem sits_buildThenExpire (hparent : (s.nodes parent).isSome)
    (hvalid : ValidName name) (hfile : file.children = []) :
    (buildThenExpire parent name stat file).Obeys (sitting watched) s
      fun _ _ => True := by
  refine Obeys.bind (Q := fun _ _ => True) ?_ fun n s₁ _ _ _ => ?_
  · apply sits_of_run
    intro r s' h hrun
    refine ⟨?_, fun _ _ => trivial⟩
    set child := Node.create name (some parent) stat file with hchild
    have hsound : (s.apply (.alloc ⟨s.nextId + 1⟩ child)).Sound watched
        [⟨s.nextId + 1⟩] := h.alloc hfile
    obtain ⟨hbelow, hclosed⟩ := opened_alloc h child hfile hparent
    set s₁ := s.apply (.alloc ⟨s.nextId + 1⟩ child) with hs₁
    have hnode : s₁.nodes ⟨s.nextId + 1⟩ = some child :=
      Function.update_self _ _ _
    have halloc : alloc name parent stat file s =
        some (.ok ⟨s.nextId + 1⟩, s₁) := rfl
    unfold nodeBuild at hrun
    rw [bind_of_ok halloc] at hrun
    obtain ⟨d, hd, hrun⟩ := bind_deref_cases hrun
    cases hdirectory : d.file.asDirectory with
    | error err =>
        rw [hdirectory] at hrun
        dsimp only at hrun
        rw [bind_of_ok (destroy_apply _ _)] at hrun
        cases hrun
        exact hsound.destroy List.mem_cons_self (by simp) hclosed
    | ok list =>
        rw [hdirectory] at hrun
        dsimp only at hrun
        rcases bind_cases hrun with ⟨err, hinsert, -⟩ | ⟨u, t, hinsert, hret⟩
        · exact (insert_sound hsound hnode rfl hvalid hbelow hclosed hinsert).1
        · cases hret
          exact (insert_sound hsound hnode rfl hvalid hbelow hclosed hinsert).1
  · apply Obeys.bind (quiet_expiresAfter allows_sitting)
    exact fun _ _ _ _ _ => Obeys.pure fun _ => trivial

theorem sits_buildError {err : Errc} {Q : Id → FileTree → Prop}
    (hparent : (s.nodes parent).isSome) (hvalid : ValidName name) :
    (buildError parent name err).Obeys (sitting watched) s Q := by
  refine Obeys.bind (Q := fun _ _ => True) ?_ fun _ _ _ _ _ => Obeys.fail
  apply Obeys.when
  · intro _
    refine Obeys.bind (Q := fun _ _ => True) ?_ fun _ _ _ _ _ =>
      Obeys.pure fun _ => trivial
    exact Obeys.outcome (sits_buildThenExpire hparent hvalid rfl)
      fun _ _ _ _ => trivial
  · exact fun _ _ => trivial

theorem sits_build (hparent : (s.nodes parent).isSome)
    (hvalid : ValidName path.filename) :
    (build env parent path).Obeys (sitting watched) s fun _ _ => True := by
  apply Obeys.bind (quiet_request_outcome allows_sitting)
  rintro answer s₁ - - ⟨rfl, -⟩
  cases answer with
  | error err => exact sits_buildError hparent hvalid
  | ok stat =>
      exact sits_buildThenExpire hparent hvalid (File.children_create _)

theorem sits_buildDirectory (hparent : (s.nodes parent).isSome)
    (hvalid : ValidName path.filename) :
    (buildDirectory env parent path).Obeys (sitting watched) s fun _ _ => True := by
  apply Obeys.bind (quiet_request_outcome allows_sitting)
  rintro answer s₁ - - ⟨rfl, -⟩
  cases answer with
  | error err => exact sits_buildError hparent hvalid
  | ok stat =>
      change (if _ then _ else _ : Fs Id).Obeys _ _ _
      split_ifs
      · exact sits_buildThenExpire hparent hvalid rfl
      · exact Obeys.fail

theorem sits_enter {builder : Id → Path → Fs Id} {current : Id}
    (hbuilder : (s.nodes current).isSome →
      (builder current path).Obeys (sitting watched) s fun _ _ => True) :
    (enter env builder current name path).Obeys (sitting watched) s
      fun _ _ => True := by
  apply sits_of_run
  intro r s' h hrun
  refine ⟨?_, fun _ _ => trivial⟩
  rcases bind_cases hrun with ⟨err, hout, -⟩ | ⟨found, t, hout, hrest⟩
  · obtain ⟨p, -, heq⟩ := Option.map_eq_some_iff.mp hout
    cases heq
  · obtain ⟨p, htraverse, heq⟩ := Option.map_eq_some_iff.mp hout
    cases heq
    obtain ⟨hsame, hfound⟩ := traverseNode_cases htraverse
    have hlive : (s.nodes current).isSome := by
      unfold traverseNode asDirectory at htraverse
      rw [bind_assoc] at htraverse
      obtain ⟨node, hnode, -⟩ := bind_deref_cases htraverse
      rw [hnode]
      rfl
    rw [hsame] at hrest
    cases hp : p.1 with
    | error err =>
        rw [hp] at hrest
        exact (hbuilder hlive h r s' hrest).1 h
    | ok next =>
        rw [hp] at hrest
        have hmem := h.tidy.wf.lookup_iff.mp (hfound next hp)
        have hobeys : (do
            let node ← deref next
            let s ← state
            when (node.expired s.now) (update env next path)
            return next : Fs Id).Obeys (sitting watched) s fun _ _ => True := by
          apply quiet_bind_deref
          intro node _
          apply Obeys.bind_state
          refine Obeys.bind (Q := fun _ _ => True) ?_ fun _ _ _ _ _ =>
            Obeys.pure fun _ => trivial
          exact Obeys.when (fun _ => sits_update (h.tidy.wf.ne_root hmem))
            fun _ _ => trivial
        exact (hobeys h r s' hrest).1 h

theorem sits_descend {above : Path} {current : Id}
    (hvalid : ∀ name ∈ path, ValidName name) :
    (descend env path current above).Obeys (sitting watched) s fun _ _ => True := by
  induction path generalizing s current above with
  | nil => exact Obeys.pure fun _ => trivial
  | cons name rest ih =>
      have hname := hvalid name List.mem_cons_self
      refine Obeys.bind (sits_enter fun hlive => ?_) ?_
      · exact sits_buildDirectory hlive
          (by rw [filename_extend hname]; exact hname)
      · intro next s₁ _ _ _
        exact ih fun n hn => hvalid n (List.mem_cons_of_mem name hn)

/-- Lookups keep nodes and handles where they belong. -/
theorem sits_traverseOrBuild (hvalid : ∀ name ∈ path, ValidName name) :
    (traverseOrBuild env path).Obeys (sitting watched) s fun _ _ => True := by
  apply Obeys.bind_state
  split_ifs with hempty
  · exact Obeys.pure fun _ => trivial
  · apply Obeys.bind (sits_descend (valid_parentPath hvalid))
    rintro ⟨current, above⟩ s₁ _ _ _
    have hname : ValidName path.filename :=
      valid_filename (by simpa using hempty) hvalid
    exact sits_enter fun hlive => sits_build hlive
      (by rw [filename_extend hname]; exact hname)

end Fs

end Madbfs
