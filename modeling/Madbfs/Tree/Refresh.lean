/-
What becomes of a node that `update` asks the device about.  Nothing but the
cache and the handles changes besides the node and what was below it.
-/
import Madbfs.Tree.Types

namespace Madbfs

namespace FileTree

/-- The two states differ in the cache and in the handles only. -/
def SameTree (s s' : FileTree) : Prop :=
  s' = { s with cache := s'.cache, handles := s'.handles }

theorem SameTree.refl (s : FileTree) : SameTree s s :=
  rfl

theorem SameTree.trans {s t u : FileTree} (hleft : SameTree s t)
    (hright : SameTree t u) : SameTree s u := by
  unfold SameTree at *
  rw [hright, hleft]

theorem SameTree.nodes {s s' : FileTree} (h : SameTree s s') :
    s'.nodes = s.nodes := by
  rw [h]

/-- The nodes that go when a node loses this value. -/
def dropped (s : FileTree) : File → List Id
  | .directory children _ => children.flatMap fun e => s.walk e.2
  | _ => []

theorem apply_destroy_nil (s : FileTree) : s.apply (.destroy []) = s := by
  simp [apply]

/-- The path leads from the first node to the last one, and none of those it
goes through has expired. -/
def LeadsTo (s : FileTree) : Id → Path → Id → Prop
  | current, [], n => current = n
  | current, name :: rest, n => ∃ next node, s.child current name = some next ∧
      s.nodes next = some node ∧ node.expired s.now = false ∧
      s.LeadsTo next rest n

theorem LeadsTo.append {s : FileTree} {left right : Path} {a n : Id}
    (h : s.LeadsTo a (left ++ right) n) :
    ∃ m, s.LeadsTo a left m ∧ s.LeadsTo m right n := by
  induction left generalizing a with
  | nil => exact ⟨a, rfl, h⟩
  | cons name rest ih =>
      obtain ⟨next, node, hchild, hnode, hfresh, hrest⟩ := h
      obtain ⟨m, hleft, hright⟩ := ih hrest
      exact ⟨m, ⟨next, node, hchild, hnode, hfresh, hleft⟩, hright⟩

end FileTree

namespace Fs

open Program FileTree

variable {s s' : FileTree} {n : Id} {path : Path} {env : Env} {node : Node}

theorem invalidateOne_cases {r : Except Errc Unit}
    (hrun : invalidateOne n s = some (r, s')) :
    r = .ok () ∧ SameTree s s' := by
  unfold invalidateOne at hrun
  rw [bind_of_ok (state_apply s)] at hrun
  cases hcache : s.cache with
  | none =>
      rw [hcache] at hrun
      cases hrun
      exact ⟨rfl, rfl⟩
  | some c =>
      rw [hcache] at hrun
      dsimp only at hrun
      generalize c.extract n = x at hrun
      obtain ⟨c', flow⟩ := x
      cases flow with
      | done u =>
          cases hrun
          exact ⟨rfl, rfl⟩
      | _ => cases hrun

/-- The nodes below the old value are destroyed. -/
theorem invalidate_cases {file : File} {r : Except Errc Unit}
    (hrun : invalidate n file s = some (r, s')) :
    r = .ok () ∧ SameTree (s.apply (.destroy (s.dropped file))) s' := by
  cases file with
  | directory children synced =>
      rw [invalidate, bind_of_ok (state_apply s)] at hrun
      rcases bind_cases hrun with ⟨err, hloop, -⟩ | ⟨u, s₁, hloop, hrun⟩
      · cases (forEach_cases (I := fun _ => True)
          (fun m _ t r t' _ ht => by cases ht; exact ⟨rfl, trivial⟩)
          trivial hloop).1
      have hs₁ : SameTree s s₁ := (forEach_cases (I := SameTree s)
        (fun m _ t r t' hst ht => by
          cases ht
          exact ⟨rfl, hst.trans rfl⟩) (.refl s) hloop).2
      rcases bind_cases hrun with ⟨err, hloop, -⟩ | ⟨u, s₂, hloop, hrun⟩
      · cases (forEach_cases (I := fun _ => True)
          (fun m _ t r t' _ ht => ⟨(invalidateOne_cases ht).1, trivial⟩)
          trivial hloop).1
      have hs₂ : SameTree s s₂ := (forEach_cases (I := SameTree s)
        (fun m _ t r t' hst ht => ⟨(invalidateOne_cases ht).1,
          hst.trans (invalidateOne_cases ht).2⟩) hs₁ hloop).2
      cases hrun
      refine ⟨rfl, ?_⟩
      rw [hs₂]
      rfl
  | regular dirty =>
      rw [show s.dropped (.regular dirty) = [] from rfl, apply_destroy_nil]
      rcases bind_cases hrun with ⟨err, hone, -⟩ | ⟨u, s₁, hone, hrun⟩
      · cases (invalidateOne_cases hone).1
      · cases hrun
        exact ⟨rfl, (invalidateOne_cases hone).2.trans rfl⟩
  | link | other | error =>
      cases hrun
      exact ⟨rfl, s.apply_destroy_nil⟩

/-- A node that is rebuilt has the new stat and the new value. -/
theorem rebuild_node {stat : Stat} {file : File} {r : Except Errc Unit}
    (hnode : s.nodes n = some node)
    (hrun : rebuild n stat file s = some (r, s')) :
    s'.nodes n = some { node with
      stat := stat, file := file, expiration := s.deadline } := by
  rw [rebuild_eq, bind_of_ok (deref_apply hnode)] at hrun
  rcases bind_cases hrun with ⟨err, hconvert, -⟩ | ⟨u, s₁, hconvert, hexpire⟩
  · rw [bind_of_ok (edit_apply _ _)] at hconvert
    cases (invalidate_cases hconvert).1
  · rw [bind_of_ok (edit_apply _ _)] at hconvert
    have hsame := (invalidate_cases hconvert).2
    obtain ⟨node₁, hn, -⟩ := bind_deref_cases hexpire
    have hnode₁ : node₁ = { node with stat := stat, file := file } := by
      rw [hsame] at hn
      simp only [FileTree.apply, FileTree.modify, Function.update_self,
        hnode] at hn
      split_ifs at hn
      cases hn
      rfl
    have hdeadline : s₁.deadline = s.deadline := by
      rw [hsame]
      rfl
    rw [expiresAfter_apply hn] at hexpire
    cases hexpire
    rw [hnode₁] at hn
    rw [← hdeadline]
    exact nodes_modify_self hn

/-- What `update` leaves of a node when the device has a stat for it. -/
theorem update_node {stat : Stat} {r : Except Errc Unit}
    (hnode : s.nodes n = some node)
    (hstat : env.answer s.tick (.stat path) = .ok stat)
    (hrun : update env n path s = some (r, s')) :
    ∃ node', s'.nodes n = some node' ∧
      if node.file.isError = false ∧ detectModification node.stat stat = false
      then node'.file = node.file ∧ node'.stat = node.stat
      else if fileType stat.mode = .directory ∧
          fileType node.stat.mode = .directory
      then node'.file = node.file.setSynced false ∧ node'.stat = stat
      else node'.file = .create (fileType stat.mode) ∧ node'.stat = stat := by
  have hout := outcome_apply (request_apply env (.stat path) s)
  rw [hstat] at hout
  unfold update at hrun
  rw [bind_of_ok hout] at hrun
  set s₁ := s.apply (.clock (env.delay s.tick)) with hs₁
  have hnode₁ : s₁.nodes n = some node := hnode
  rw [bind_of_ok (deref_apply hnode₁)] at hrun
  dsimp only at hrun
  by_cases hsame : node.file.isError = false ∧
      detectModification node.stat stat = false
  · rw [if_pos (by simp [hsame])] at hrun
    rw [expiresAfter_apply hnode₁] at hrun
    cases hrun
    refine ⟨{ node with expiration := s₁.deadline }, ?_, ?_⟩
    · exact nodes_modify_self hnode₁
    · rw [if_pos hsame]
      exact ⟨rfl, rfl⟩
  · rw [if_neg (by simpa using hsame)] at hrun
    simp only [if_neg hsame]
    split_ifs at hrun with hdir
    · simp only [if_pos hdir]
      rw [bind_of_ok (setStat_apply hnode₁ stat)] at hrun
      have hnode₂ : (s₁.apply (.setStat n stat)).nodes n =
          some { node with stat := stat } := nodes_modify_self hnode₁
      unfold setSynced at hrun
      rw [bind_assoc, bind_of_ok (deref_apply hnode₂),
        bind_of_ok (edit_apply _ _)] at hrun
      have hnode₃ : ((s₁.apply (.setStat n stat)).apply
          (.setSynced n false)).nodes n = some { node with
            stat := stat, file := node.file.setSynced false } :=
        nodes_modify_self hnode₂
      rw [expiresAfter_apply hnode₃] at hrun
      cases hrun
      exact ⟨_, nodes_modify_self hnode₃, rfl, rfl⟩
    · simp only [if_neg hdir]
      exact ⟨_, rebuild_node hnode₁ hrun, rfl, rfl⟩

/-- A path whose nodes have not expired is looked up without a request. -/
theorem enter_fresh {builder : Id → Path → Fs Id} {current next : Id}
    {name : Name} (hchild : s.child current name = some next)
    (hnode : s.nodes next = some node)
    (hfresh : node.expired s.now = false) :
    enter env builder current name path s = some (.ok next, s) := by
  have htraverse : traverseNode current name s = some (.ok next, s) := by
    have hresolve : [name].foldlM s.child current = some next := by
      rw [List.foldlM_cons, hchild]
      rfl
    have hrun := traverseFrom_eq hresolve
    rcases bind_cases hrun with ⟨err, -, herr⟩ | ⟨c, s₁, hstep, hrest⟩
    · cases herr
    · cases hrest
      exact hstep
  unfold enter
  rw [bind_of_ok (outcome_apply htraverse)]
  dsimp only
  rw [bind_of_ok (deref_apply hnode), bind_of_ok (state_apply s), hfresh]
  rfl

theorem descend_fresh {current : Id} {above : Path}
    (hleads : s.LeadsTo current path n) :
    ∃ above', descend env path current above s = some (.ok (n, above'), s) := by
  induction path generalizing current above with
  | nil =>
      cases hleads
      exact ⟨above, rfl⟩
  | cons name rest ih =>
      obtain ⟨next, node, hchild, hnode, hfresh, hrest⟩ := hleads
      unfold descend
      rw [bind_of_ok (enter_fresh hchild hnode hfresh)]
      exact ih hrest

/-- A path whose nodes have not expired is looked up without a request. -/
theorem traverseOrBuild_fresh (hleads : s.LeadsTo s.root path n) :
    traverseOrBuild env path s = some (.ok n, s) := by
  unfold traverseOrBuild
  rw [bind_of_ok (state_apply s)]
  cases path using List.reverseRecOn with
  | nil =>
      cases hleads
      rfl
  | append_singleton above name =>
      obtain ⟨m, habove, next, node, hchild, hnode, hfresh, rfl⟩ :=
        hleads.append
      obtain ⟨above', hdescend⟩ : ∃ above', descend env above s.root [] s =
          some (.ok (m, above'), s) := descend_fresh habove
      have hparent : Path.parentPath (above ++ [name]) = above :=
        List.dropLast_concat
      have hname : Path.filename (above ++ [name]) = name := by
        rw [Path.filename, List.getLast?_concat]
        rfl
      rw [if_neg (by simp), hparent, hname, bind_of_ok hdescend]
      exact enter_fresh hchild hnode hfresh

theorem getattr_fresh (hleads : s.LeadsTo s.root path n)
    (hnode : s.nodes n = some node) (hfile : node.file.isError = false) :
    getattr env path s = some (.ok (n, node.stat), s) := by
  unfold getattr getattrAt
  rw [bind_of_ok (traverseOrBuild_fresh hleads),
    bind_of_ok (deref_apply hnode)]
  cases hvalue : node.file with
  | error err =>
      rw [hvalue] at hfile
      cases hfile
  | _ => rfl

/-- What a refresh is for: the node has the variant for its stat, and a
`getattr` before it expires succeeds. -/
def Refreshed (s : FileTree) (n : Id) : Prop :=
  ∃ node, s.nodes n = some node ∧ node.file.isError = false ∧
    node.file.type = some (fileType node.stat.mode) ∧
    ∀ env path, (s.start env).LeadsTo s.root path n →
      s.exec (.getattr path) env =
        some (.ok (.attr n node.stat), s.start env)

theorem refreshed_of_node (hnode : s.nodes n = some node)
    (hfile : node.file.isError = false)
    (htype : node.file.type = some (fileType node.stat.mode)) :
    Refreshed s n := by
  refine ⟨node, hnode, hfile, htype, fun env path hleads => ?_⟩
  have hrun : getattr env path (s.start env) =
      some (.ok (n, node.stat), s.start env) :=
    getattr_fresh hleads hnode hfile
  rw [exec, Op.body, bind_of_ok hrun]
  rfl

theorem isError_create (type : FileType) :
    (File.create type).isError = false := by
  cases type <;> rfl

theorem isError_setSynced (file : File) (synced : Bool) :
    (file.setSynced synced).isError = file.isError := by
  cases file <;> rfl

/-- A refresh that succeeds is one, except for an `Error` node that was a
directory and is one again: it stays an `Error`. -/
theorem update_refreshes_iff {stat : Stat} (hnode : s.nodes n = some node)
    (htyped : node.Typed)
    (hstat : env.answer s.tick (.stat path) = .ok stat)
    (hrun : update env n path s = some (.ok (), s')) :
    Refreshed s' n ↔ ¬(node.file.isError ∧
      fileType node.stat.mode = .directory ∧
      fileType stat.mode = .directory) := by
  obtain ⟨node', hnode', hcases⟩ := update_node hnode hstat hrun
  constructor
  · rintro ⟨node'', hnode'', hfile, -⟩ ⟨herror, hold, hnew⟩
    cases hnode'.symm.trans hnode''
    rw [if_neg (by simp [herror]), if_pos ⟨hnew, hold⟩] at hcases
    rw [hcases.1, isError_setSynced, herror] at hfile
    cases hfile
  · intro hcond
    split_ifs at hcases with hsame hdir
    · have htype := htyped.resolve_left (by simp [hsame.1])
      apply refreshed_of_node hnode'
      · rw [hcases.1]
        exact hsame.1
      · rw [hcases.1, hcases.2]
        exact htype
    · have hfile : node.file.isError = false := by
        by_contra herror
        exact hcond ⟨by simpa using herror, hdir.2, hdir.1⟩
      have htype := htyped.resolve_left (by simp [hfile])
      apply refreshed_of_node hnode'
      · rw [hcases.1, isError_setSynced]
        exact hfile
      · rw [hcases.1, hcases.2, File.type_setSynced, htype, hdir.1, hdir.2]
    · apply refreshed_of_node hnode'
      · rw [hcases.1]
        exact isError_create _
      · rw [hcases.1, hcases.2]
        exact File.type_create _

/-- A device without any file, a while later. -/
def gone : Env :=
  { Env.obliging (fun _ => .error .noSuchFileOrDirectory) fun _ => .ok [] with
    idle := 31 * nanosPerSec }

theorem proper_gone : gone.Proper := by
  intro t path entries hentries e he
  cases hentries
  exact absurd he List.not_mem_nil

theorem update_refreshes_iff_file : ∃ s s' : FileTree,
    update (.ofMode sIfreg) ⟨2⟩ ["f"] s = some (.ok (), s') ∧
      Refreshed s' ⟨2⟩ := by
  have hruns : ∃ s s' node, Runs step Proper (create none (some 30))
      [(.getattr ["f"], .ofMode sIfreg), (.getattr ["f"], gone)] s ∧
      s.nodes ⟨2⟩ = some node ∧ node.file = .error .noSuchFileOrDirectory ∧
      node.stat = { Stat.empty with mode := sIfreg } ∧
      update (.ofMode sIfreg) ⟨2⟩ ["f"] s = some (.ok (), s') :=
    ⟨_, _, _, .cons rfl ⟨(by decide : ∀ name ∈ ["f"], ValidName name),
      Env.proper_ofMode _⟩ (.cons rfl ⟨(by decide : ∀ name ∈ ["f"],
      ValidName name), proper_gone⟩ (.nil _)), rfl, rfl, rfl, rfl⟩
  obtain ⟨s, s', node, -, hnode, hfile, hstat, hrun⟩ := hruns
  refine ⟨s, s', hrun, (update_refreshes_iff hnode ?_ rfl hrun).mpr ?_⟩
  · refine .inl ?_
    rw [hfile]
    rfl
  · rintro ⟨-, -, hdir⟩
    exact absurd hdir (by decide)

/-- A directory that was gone for a while stays an `Error` when the device has
it again. -/
theorem update_directory_stays_error : ∃ s s' node,
    Runs step Proper (create none (some 30))
      [(.getattr ["d"], .ofMode sIfdir), (.getattr ["d"], gone)] s ∧
    s.nodes ⟨2⟩ = some node ∧ node.Typed ∧
    update (.ofMode sIfdir) ⟨2⟩ ["d"] s = some (.ok (), s') ∧
    ¬Refreshed s' ⟨2⟩ := by
  refine ⟨_, _, _, .cons rfl ⟨(by decide : ∀ name ∈ ["d"], ValidName name),
    Env.proper_ofMode _⟩ (.cons rfl ⟨(by decide : ∀ name ∈ ["d"],
    ValidName name), proper_gone⟩ (.nil _)), rfl, .inl rfl, rfl, ?_⟩
  rintro ⟨node, hnode, hfile, -⟩
  cases hnode
  cases hfile

end Fs

end Madbfs
