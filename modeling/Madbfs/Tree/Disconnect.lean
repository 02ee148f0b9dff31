/-
What a failed stat does to the tree.  `should_cache_error` takes three codes
for those of a connection that is gone: with them an operation only ends.  Any
other code is kept as an `Error` node, which replaces what was known.  `rename`
with `RENAME_NOREPLACE` takes the failed lookup of its target for an answer and
goes on.
-/
import Madbfs.Tree.Atomic
import Madbfs.Tree.Looked
import Madbfs.Tree.Refresh
import Madbfs.Tree.Rename

namespace Madbfs

namespace FileTree

/-- No node has another variant or has lost a child, there is no new `Error`
node, and cache and handles are as they were. -/
structure Unharmed (s s' : FileTree) : Prop where
  variants : ∀ n node, s.nodes n = some node →
    ∃ node', s'.nodes n = some node' ∧ node'.file.type = node.file.type
  children : ∀ dir, s.children dir ⊆ s'.children dir
  errors : ∀ n node', s'.nodes n = some node' → node'.file.isError →
    (s.nodes n).isSome
  cache : s'.cache = s.cache
  handles : s'.handles = s.handles

/-- The variant and the children of a node. -/
def outline (s : FileTree) (n : Id) :
    Option (Option FileType × List (Name × Id)) :=
  (s.nodes n).map fun node => (node.file.type, node.file.children)

/-- Not even the children of a node are other ones. -/
structure Calm (s s' : FileTree) : Prop where
  outline : ∀ n, s'.outline n = s.outline n
  cache : s'.cache = s.cache
  handles : s'.handles = s.handles

section Calm

variable {s t u : FileTree} {n m : Id} {node : Node}

theorem Calm.trans (hleft : Calm s t) (hright : Calm t u) : Calm s u where
  outline := fun n => (hright.outline n).trans (hleft.outline n)
  cache := hright.cache.trans hleft.cache
  handles := hright.handles.trans hleft.handles

theorem Calm.symm (h : Calm s t) : Calm t s where
  outline := fun n => (h.outline n).symm
  cache := h.cache.symm
  handles := h.handles.symm

theorem outline_eq (hnode : s.nodes n = some node) :
    s.outline n = some (node.file.type, node.file.children) := by
  rw [outline, hnode]
  rfl

theorem Calm.same (h : Calm s t) {known : Node}
    (hknown : s.nodes n = some known) :
    ∃ node', t.nodes n = some node' ∧ node'.file.type = known.file.type ∧
      node'.file.children = known.file.children := by
  obtain ⟨node', hnode', heq⟩ :=
    Option.map_eq_some_iff.mp ((h.outline n).trans (outline_eq hknown))
  exact ⟨node', hnode', (Prod.mk.inj heq).1, (Prod.mk.inj heq).2⟩

theorem Calm.children (h : Calm s t) (dir : Id) :
    t.children dir = s.children dir := by
  have hchildren : ∀ u : FileTree,
      u.children dir = ((u.outline dir).map Prod.snd).getD [] := by
    intro u
    unfold FileTree.children FileTree.outline
    cases u.nodes dir <;> rfl
  rw [hchildren, hchildren, h.outline]

theorem Calm.isSome (h : Calm s t) (n : Id) :
    (t.nodes n).isSome = (s.nodes n).isSome := by
  have houtline := congrArg Option.isSome (h.outline n)
  rwa [FileTree.outline, FileTree.outline, Option.isSome_map,
    Option.isSome_map] at houtline

theorem isDirectory_of_type {file file' : File}
    (htype : file'.type = file.type) :
    file'.isDirectory = file.isDirectory := by
  cases file <;> cases file' <;> first | rfl | cases htype

theorem Calm.isDir (h : Calm s t) (n : Id) : t.isDir n = s.isDir n := by
  cases hknown : s.nodes n with
  | none =>
      have hnone := h.isSome n
      rw [hknown, Option.isSome_none, Option.isSome_eq_false_iff,
        Option.isNone_iff_eq_none] at hnone
      rw [FileTree.isDir, FileTree.isDir, hknown, hnone]
  | some known =>
      obtain ⟨node', hnode', htype, -⟩ := h.same hknown
      rw [FileTree.isDir, FileTree.isDir, hknown, hnode']
      exact isDirectory_of_type htype

theorem Calm.unharmed (h : Calm s t) : Unharmed s t where
  variants := by
    intro n known hknown
    obtain ⟨node', hnode', htype, -⟩ := h.same hknown
    exact ⟨node', hnode', htype⟩
  children := by
    intro dir
    rw [h.children]
    exact List.Subset.refl _
  errors := by
    intro n node' hnode' _
    rw [← h.isSome, hnode']
    rfl
  cache := h.cache
  handles := h.handles

/-- What comes after the harm does not make up for it. -/
theorem Unharmed.before (h : Unharmed s u) (hcalm : Calm t u) :
    Unharmed s t where
  variants := by
    intro n known hknown
    obtain ⟨node', hnode', htype⟩ := h.variants n known hknown
    obtain ⟨node'', hnode'', htype', -⟩ := hcalm.symm.same hnode'
    exact ⟨node'', hnode'', htype'.trans htype⟩
  children := by
    intro dir
    rw [← hcalm.children]
    exact h.children dir
  errors := by
    intro n known hknown herror
    obtain ⟨node', hnode', htype, -⟩ := hcalm.same hknown
    exact h.errors n node' hnode' ((isError_of_type htype).trans herror)
  cache := hcalm.cache.symm.trans h.cache
  handles := hcalm.handles.symm.trans h.handles

theorem calm_of_nodes (hnodes : t.nodes = s.nodes) (hcache : t.cache = s.cache)
    (hhandles : t.handles = s.handles) : Calm s t where
  outline := fun n => by rw [FileTree.outline, FileTree.outline, hnodes]
  cache := hcache
  handles := hhandles

theorem calm_clock (delay : Nat) : Calm s (s.apply (.clock delay)) :=
  calm_of_nodes rfl rfl rfl

/-- A change of a node that keeps its variant and its children. -/
theorem calm_modify {f : Node → Node}
    (hf : ∀ node, s.nodes m = some node →
      (f node).file.type = node.file.type ∧
        (f node).file.children = node.file.children) :
    Calm s (s.modify m f) where
  outline := by
    intro n
    rw [FileTree.outline, FileTree.outline, nodes_modify]
    split_ifs with hn
    · subst hn
      cases hknown : s.nodes n with
      | none => rfl
      | some known => simp [hf known hknown]
    · rfl
  cache := rfl
  handles := rfl

end Calm

end FileTree

/-- A stat request that a lookup makes: in which state, for which name in which
directory, and with which path. -/
structure Question where
  tree : FileTree
  dir : Id
  name : Name
  path : Path

/-- The node that is asked about, if it is known already. -/
def Question.child (q : Question) : Option Id :=
  q.tree.child q.dir q.name

namespace Fs

open Program FileTree

/-- The program has no outcome that is an error. -/
def Succeeds {α : Type} (x : Fs α) : Prop :=
  ∀ s e s', x s ≠ some (.error e, s')

section Succeeds

variable {α β : Type} {n dir : Id} {path : Path}

theorem Succeeds.pure (a : α) : Succeeds (pure a : Fs α) := by
  intro s e s' hrun
  cases hrun

theorem Succeeds.bind {x : Fs α} {f : α → Fs β} (hx : Succeeds x)
    (hf : ∀ a, Succeeds (f a)) : Succeeds (x >>= f) := by
  intro s e s' hrun
  rcases bind_cases hrun with ⟨e', hrunx, -⟩ | ⟨a, t, -, hrunf⟩
  · exact hx _ _ _ hrunx
  · exact hf a _ _ _ hrunf

theorem succeeds_edit (e : Edit) : Succeeds (edit e) := by
  intro s e s' hrun
  cases hrun

theorem succeeds_state : Succeeds (state : Fs FileTree) := by
  intro s e s' hrun
  cases hrun

theorem succeeds_wrong : Succeeds (wrong : Fs α) := by
  intro s e s' hrun
  cases hrun

theorem succeeds_deref : Succeeds (deref n) := by
  intro s e s' hrun
  unfold deref at hrun
  split at hrun <;> cases hrun

theorem succeeds_directory : Succeeds (directory n) := by
  refine succeeds_deref.bind fun node => ?_
  split
  · exact .pure _
  · exact succeeds_wrong

theorem succeeds_destroy : Succeeds (destroy n) :=
  succeeds_state.bind fun _ => succeeds_edit _

theorem succeeds_invalidateOne : Succeeds (invalidateOne n) := by
  intro s e s' hrun
  cases (invalidateOne_cases hrun).1

theorem succeeds_refreshStat {env : Env} {atime mtime : TimeArg} :
    Succeeds (refreshStat env n atime mtime) := by
  refine succeeds_deref.bind fun node => ?_
  exact succeeds_state.bind fun s => succeeds_edit _

theorem succeeds_moveTo : Succeeds (moveTo n dir path) := by
  refine Succeeds.bind (succeeds_state.bind fun s => ?_) fun _ => ?_
  · split
    · exact .pure _
    · exact succeeds_edit _
  · exact (succeeds_edit _).bind fun _ => succeeds_edit _

/-- `Directory::insert` that may overwrite. -/
theorem succeeds_insert : Succeeds (insert dir n true) := by
  refine succeeds_directory.bind fun list => ?_
  refine succeeds_deref.bind fun node => ?_
  split
  · exact (succeeds_edit _).bind fun _ => .pure _
  · refine (succeeds_edit _).bind fun _ => ?_
    exact (succeeds_edit _).bind fun _ => .pure _

end Succeeds

/-- The name is not known in the directory, or its node has expired. -/
def NeedsStat (s : FileTree) (dir : Id) (name : Name) : Prop :=
  (s.nodes dir).isSome ∧ ∀ n, s.child dir name = some n →
    ∃ node, s.nodes n = some node ∧ node.expired s.now

/-- The lookup of a path makes this request, after those before it have been
answered. -/
inductive Asks (env : Env) :
    FileTree → Id → Path → Path → Question → Prop
  | here {s : FileTree} {current : Id} {above rest : Path} {name : Name}
      (hneeds : NeedsStat s current name) :
      Asks env s current above (name :: rest)
        ⟨s, current, name, above.extend name⟩
  | further {s s₁ : FileTree} {current next : Id} {above rest : Path}
      {name : Name} {q : Question}
      (henter : enter env (buildDirectory env) current name
        (above.extend name) s = some (.ok next, s₁))
      (hrest : Asks env s₁ next (above.extend name) rest q) :
      Asks env s current above (name :: rest) q

/-- The error is taken for one of the connection, or there is nothing that it
can replace: the node is an `Error` already, or there is no directory for a new
one. -/
def Harmless (q : Question) (err : Errc) : Prop :=
  shouldCacheError err = false ∨
    match q.child with
    | some n => ∃ node, q.tree.nodes n = some node ∧ node.file.isError
    | none => ¬q.tree.isDir q.dir

/-- What a lookup keeps of the failure. -/
def keep (q : Question) (err : Errc) : Fs Unit :=
  when (shouldCacheError err)
    (match q.child with
    | some n => do
        mutateAndInvalidate n (.error err)
        expiresAfter n
    | none => do
        let _ ← (buildThenExpire q.dir q.path.filename .empty
          (.error err)).outcome)

/-- What a stat that fails is followed by. -/
def aftermath {α : Type} (q : Question) (err : Errc) : Fs α := do
  keep q err
  fail err

/-- The state in which the answer comes. -/
def answered (env : Env) (q : Question) : FileTree :=
  q.tree.apply (.clock (env.delay q.tree.tick))

section Lookups

variable {q : Question} {err : Errc} {env : Env} {s s' : FileTree}
  {builder : Id → Path → Fs Id} {α β : Type}

theorem aftermath_bind (f : α → Fs β) :
    (aftermath q err : Fs α) >>= f = aftermath q err := by
  unfold aftermath
  rw [bind_assoc]
  rfl

theorem traverseNode_apply {n : Id} (name : Name)
    (hsome : (s.nodes n).isSome) : ∃ r, traverseNode n name s = some (r, s) ∧
      ∀ c, r = .ok c ↔ s.child n name = some c := by
  obtain ⟨node, hnode⟩ := Option.isSome_iff_exists.mp hsome
  have hchild : s.child n name = node.file.children.lookup name := by
    rw [FileTree.child, hnode]
    rfl
  rw [hchild, traverseNode, asDirectory, bind_assoc,
    bind_of_ok (deref_apply hnode)]
  cases hfile : node.file with
  | directory children synced =>
      change ∃ r, (match children.lookup name with
        | some c => pure c
        | none => fail Errc.noSuchFileOrDirectory : Fs Id) s = some (r, s) ∧
        ∀ c, r = .ok c ↔ children.lookup name = some c
      cases children.lookup name with
      | none => exact ⟨_, rfl, fun c => by simp⟩
      | some c => exact ⟨_, rfl, fun c' => by simp⟩
  | _ => exact ⟨_, rfl, fun c => by simp [File.children]⟩

/-- A step of a lookup whose stat fails. -/
theorem enter_asks (hbuilder : builder = build env ∨
      builder = buildDirectory env)
    (hneeds : NeedsStat q.tree q.dir q.name)
    (hfail : env.answer q.tree.tick (.stat q.path) = .error err) :
    enter env builder q.dir q.name q.path q.tree =
      aftermath q err (answered env q) := by
  obtain ⟨r, htraverse, hfound⟩ := traverseNode_apply q.name hneeds.1
  have hout := outcome_apply (request_apply env (.stat q.path) q.tree)
  rw [hfail] at hout
  unfold enter
  rw [bind_of_ok (outcome_apply htraverse)]
  cases r with
  | ok n =>
      have hchild : q.child = some n := (hfound n).mp rfl
      obtain ⟨node, hnode, hexpired⟩ := hneeds.2 n hchild
      have hanswered : (answered env q).nodes n = some node := hnode
      have hupdate : update env n q.path q.tree =
          (aftermath q err : Fs Unit) (answered env q) := by
        unfold update
        rw [bind_of_ok hout]
        change (deref n >>= _) (answered env q) = _
        rw [bind_of_ok (deref_apply hanswered), aftermath, keep, hchild]
      change (deref n >>= _) q.tree = _
      rw [bind_of_ok (deref_apply hnode), bind_of_ok (state_apply _), hexpired]
      change (update env n q.path >>= fun _ => pure n) q.tree = _
      rw [bind_apply, hupdate, ← bind_apply, aftermath_bind]
  | error e =>
      have hchild : q.child = none := by
        cases hchild : q.child with
        | none => rfl
        | some n => cases (hfound n).mpr hchild
      have hbuild : builder q.dir q.path q.tree =
          buildError q.dir q.path.filename err (answered env q) := by
        rcases hbuilder with rfl | rfl
        · rw [build, bind_of_ok hout]
          rfl
        · rw [buildDirectory, bind_of_ok hout]
          rfl
      change builder q.dir q.path q.tree = _
      rw [hbuild, buildError, aftermath, keep, hchild]

/-- A lookup whose stat fails. -/
theorem lookup_asks {current : Id} {above path : Path}
    (hasks : Asks env s current above path q)
    (hfail : env.answer q.tree.tick (.stat q.path) = .error err) :
    (do
      let (dir, above) ← descend env path.parentPath current above
      enter env (build env) dir path.filename
        (above.extend path.filename)) s =
      (aftermath q err : Fs Id) (answered env q) := by
  induction hasks with
  | @here s current above rest name hneeds =>
      cases rest with
      | nil => exact enter_asks (.inl rfl) hneeds hfail
      | cons next rest =>
          have henter := enter_asks (.inr rfl) hneeds hfail
          change (descend env (name :: (next :: rest).dropLast) current above
            >>= _) s = _
          rw [descend, bind_assoc, bind_apply, henter, ← bind_apply,
            aftermath_bind]
  | @further s s₁ current next above rest name q henter hrest ih =>
      cases rest with
      | nil => cases hrest
      | cons name' rest =>
          have hpath : Path.filename (name :: name' :: rest) =
              Path.filename (name' :: rest) := by
            rw [Path.filename, Path.filename, List.getLast?_cons_cons]
          change (descend env (name :: (name' :: rest).dropLast) current above
            >>= _) s = _
          rw [descend, bind_assoc, bind_of_ok henter, hpath]
          exact ih hfail

theorem traverseOrBuild_asks {path : Path}
    (hasks : Asks env s s.root [] path q)
    (hfail : env.answer q.tree.tick (.stat q.path) = .error err) :
    traverseOrBuild env path s =
      (aftermath q err : Fs Id) (answered env q) := by
  unfold traverseOrBuild
  rw [bind_of_ok (state_apply s)]
  cases path with
  | nil => cases hasks
  | cons name rest => exact lookup_asks hasks hfail

/-- The state in which a lookup asks is one that an operation can get to. -/
theorem Asks.good {ctx : Ctx} {current : Id} {above path : Path}
    (hasks : Asks env s current above path q) (hgood : s.Good ctx)
    (hcurrent : s.Reached ctx current)
    (hvalid : ∀ name ∈ path, ValidName name) :
    q.tree.Good ctx ∧ q.tree.Reached ctx q.dir ∧
      q.path.filename = q.name := by
  induction hasks with
  | @here s current above rest name hneeds =>
      exact ⟨hgood, hcurrent,
        filename_extend (hvalid name List.mem_cons_self)⟩
  | @further s s₁ current next above rest name q henter hrest ih =>
      have hname := hvalid name List.mem_cons_self
      obtain ⟨hchain, hnext⟩ := obeys_enter hcurrent
        (obeys_buildDirectory hcurrent
          (by rw [filename_extend hname]; exact hname)) hgood _ _ henter
      exact ih (hchain.good hgood) (hnext next rfl) fun name hmem =>
        hvalid name (List.mem_cons_of_mem _ hmem)

theorem Asks.needsStat {current : Id} {above path : Path}
    (hasks : Asks env s current above path q) :
    NeedsStat q.tree q.dir q.name := by
  induction hasks with
  | here hneeds => exact hneeds
  | further henter hrest ih => exact ih

end Lookups

section Aftermath

variable {q : Question} {err : Errc} {env : Env} {s s' : FileTree} {α : Type}

theorem calm_answered (env : Env) (q : Question) :
    Calm q.tree (answered env q) :=
  calm_clock _

/-- The `Error` node of a name that is not known. -/
theorem buildThenExpire_apply {dir : Id} {name : Name} (err : Errc)
    (hwf : s.WellFormed) (hdir : s.isDir dir)
    (hfresh : s.child dir name = none) :
    ∃ s', buildThenExpire dir name .empty (.error err) s =
        some (.ok (nextNode s), s') ∧ s'.tick = s.tick ∧
      ∃ node, s'.nodes (nextNode s) = some node ∧ node.file = .error err := by
  obtain ⟨d, hd, hdirectory⟩ := isDir_iff.mp hdir
  have hne : nextNode s ≠ dir := by
    rintro rfl
    exact absurd (hwf.known hd) (Nat.not_succ_le_self _)
  set child := Node.create name (some dir) .empty (.error err) with hchild
  set s₁ := s.apply (.alloc (nextNode s) child) with hs₁
  have halloc : alloc name dir .empty (.error err) s =
      some (.ok (nextNode s), s₁) := rfl
  have hnode₁ : s₁.nodes (nextNode s) = some child :=
    Function.update_self _ _ _
  have hd₁ : s₁.nodes dir = some d :=
    (Function.update_of_ne hne.symm _ _).trans hd
  obtain ⟨list, synced, hvalue⟩ : ∃ list synced,
      d.file = .directory list synced := by
    cases hvalue : d.file with
    | directory list synced => exact ⟨list, synced, rfl⟩
    | _ =>
        rw [hvalue] at hdirectory
        cases hdirectory
  have hlookup : list.lookup name = none := by
    rw [FileTree.child, hd, Option.bind_some, Node.find, hvalue] at hfresh
    exact hfresh
  set s₂ := s₁.apply (.attach dir (nextNode s)) with hs₂
  have hnode₂ : s₂.nodes (nextNode s) = some child := by
    rw [hs₂, FileTree.apply, FileTree.attach, hnode₁]
    exact (Function.update_of_ne hne _ _).trans hnode₁
  have hinsert : insert dir (nextNode s) false s₁ = some (.ok none, s₂) :=
    insert_apply_none hd₁ hvalue hnode₁ hlookup
  refine ⟨s₂.apply (.expire (nextNode s) s₂.deadline), ?_, ?_, _,
    nodes_modify_self hnode₂, rfl⟩
  · unfold buildThenExpire nodeBuild
    simp only [bind_assoc]
    rw [bind_of_ok halloc, bind_of_ok (deref_apply hd₁), hvalue]
    simp only [File.asDirectory, bind_assoc]
    rw [bind_of_ok hinsert]
    change (expiresAfter _ >>= fun _ => pure _) _ = _
    rw [bind_of_ok (expiresAfter_apply hnode₂)]
    rfl
  · change s₂.tick = s.tick
    rw [hs₂, FileTree.apply, FileTree.attach, hnode₁]
    rfl

/-- Without a directory the `Error` node goes at once. -/
theorem buildThenExpire_refused {dir : Id} (name : Name) (err : Errc)
    (hwf : s.WellFormed) (hsome : (s.nodes dir).isSome)
    (hdir : s.isDir dir = false) :
    ∃ r s', buildThenExpire dir name .empty (.error err) s =
      some (r, s') ∧ s'.tick = s.tick ∧ Calm s s' := by
  obtain ⟨d, hd⟩ := Option.isSome_iff_exists.mp hsome
  have hnone : s.nodes (nextNode s) = none := by
    cases hknown : s.nodes (nextNode s) with
    | none => rfl
    | some known => exact absurd (hwf.known hknown) (Nat.not_succ_le_self _)
  have hne : dir ≠ nextNode s := by
    rintro rfl
    rw [hnone] at hd
    cases hd
  set child := Node.create name (some dir) .empty (.error err) with hchild
  set s₁ := s.apply (.alloc (nextNode s) child) with hs₁
  have halloc : alloc name dir .empty (.error err) s =
      some (.ok (nextNode s), s₁) := rfl
  have hd₁ : s₁.nodes dir = some d :=
    (Function.update_of_ne hne _ _).trans hd
  obtain ⟨e, he⟩ : ∃ e, d.file.asDirectory = .error e := by
    cases hvalue : d.file with
    | directory list synced =>
        rw [FileTree.isDir, hd, Option.any_some, hvalue] at hdir
        cases hdir
    | _ => exact ⟨_, rfl⟩
  have hwalk : s₁.walk (nextNode s) = [nextNode s] := by
    apply walk_leaf
    rw [hs₁, children_alloc, if_pos rfl]
    rfl
  refine ⟨.error e, s₁.apply (.destroy [nextNode s]), ?_, rfl, ?_⟩
  · unfold buildThenExpire nodeBuild
    simp only [bind_assoc]
    rw [bind_of_ok halloc, bind_of_ok (deref_apply hd₁), he]
    simp only [bind_assoc]
    rw [bind_of_ok (destroy_apply _ _), hwalk]
    rfl
  · refine calm_of_nodes ?_ rfl rfl
    funext m
    simp only [hs₁, FileTree.apply, List.mem_singleton]
    split_ifs with hm
    · rw [hm, hnone]
    · exact Function.update_of_ne hm _ _

/-- An `Error` node stays one. -/
theorem mutate_error {n : Id} {node : Node} {old : Errc} (err : Errc)
    (hnode : s.nodes n = some node) (hfile : node.file = .error old) :
    ∃ s', (do
        mutateAndInvalidate n (.error err)
        expiresAfter n : Fs Unit) s = some (.ok (), s') ∧
      s'.tick = s.tick ∧ Calm s s' := by
  set s₁ := s.apply (.convert n node.stat (.error err)) with hs₁
  have hnode₁ : s₁.nodes n = some { node with
      stat := node.stat, file := .error err } := nodes_modify_self hnode
  refine ⟨s₁.apply (.expire n s₁.deadline), ?_, rfl, ?_⟩
  · unfold mutateAndInvalidate
    rw [bind_assoc, bind_of_ok (deref_apply hnode), bind_assoc,
      bind_of_ok (edit_apply _ _), hfile]
    exact expiresAfter_apply hnode₁
  · have hconvert : Calm s s₁ := by
      apply calm_modify
      intro known hknown
      cases hnode.symm.trans hknown
      rw [hfile]
      exact ⟨rfl, rfl⟩
    have hexpire : Calm s₁ (s₁.apply (.expire n s₁.deadline)) := by
      have hcalm : Calm s₁ (s₁.modify n fun node =>
          { node with expiration := s₁.deadline }) :=
        calm_modify fun known _ => ⟨rfl, rfl⟩
      exact ⟨hcalm.outline, rfl, rfl⟩
    exact hconvert.trans hexpire

/-- A node that is replaced becomes an `Error`. -/
theorem mutate_cases {n : Id} {node : Node} {r : Except Errc Unit}
    (hnode : s.nodes n = some node)
    (hrun : (do
        mutateAndInvalidate n (.error err)
        expiresAfter n : Fs Unit) s = some (r, s')) :
    ∃ node', s'.nodes n = some node' ∧ node'.file = .error err := by
  have heq : (do
      mutateAndInvalidate n (.error err)
      expiresAfter n : Fs Unit) s = rebuild n node.stat (.error err) s := by
    rw [rebuild_eq, bind_of_ok (deref_apply hnode), mutateAndInvalidate,
      bind_assoc, bind_of_ok (deref_apply hnode)]
  rw [heq] at hrun
  exact ⟨_, rebuild_node hnode hrun, rfl⟩

/-- Where it does no harm, the failure leaves the tree alone. -/
theorem keep_run (env : Env) (hwf : q.tree.WellFormed)
    (hneeds : NeedsStat q.tree q.dir q.name) (hharmless : Harmless q err) :
    ∃ s', keep q err (answered env q) = some (.ok (), s') ∧
      s'.tick = q.tree.tick + 1 ∧ Calm q.tree s' := by
  have hanswered := calm_answered env q
  unfold keep
  by_cases hcache : shouldCacheError err = true
  · have hcases := hharmless.resolve_left (by simp [hcache])
    rw [hcache, Program.when, if_pos rfl]
    cases hchild : q.child with
    | some n =>
        rw [hchild] at hcases
        obtain ⟨node, hnode, herror⟩ := hcases
        obtain ⟨old, hfile⟩ : ∃ old, node.file = .error old := by
          cases hfile : node.file with
          | error old => exact ⟨old, rfl⟩
          | _ =>
              rw [hfile] at herror
              cases herror
        obtain ⟨s', hrun, htick, hcalm⟩ :=
          mutate_error (s := answered env q) err hnode hfile
        exact ⟨s', hrun, htick, hanswered.trans hcalm⟩
    | none =>
        rw [hchild] at hcases
        have hwf' : (answered env q).WellFormed :=
          hwf.congr (sameShape_apply rfl)
        obtain ⟨r, s', hrun, htick, hcalm⟩ :=
          buildThenExpire_refused (s := answered env q) q.path.filename err
            hwf' hneeds.1
            (Bool.eq_false_iff.mpr hcases)
        refine ⟨s', ?_, htick, hanswered.trans hcalm⟩
        change (outcome _ >>= fun _ => pure () : Fs Unit) _ = _
        rw [bind_of_ok (outcome_apply hrun)]
        rfl
  · rw [Bool.not_eq_true] at hcache
    rw [hcache]
    exact ⟨answered env q, rfl, rfl, hanswered⟩

/-- Elsewhere there is a new `Error` node in every state it can end in. -/
theorem keep_harms {r : Except Errc Unit} (hwf : q.tree.WellFormed)
    (hneeds : NeedsStat q.tree q.dir q.name)
    (hname : q.path.filename = q.name) (hharm : ¬Harmless q err)
    (hrun : keep q err (answered env q) = some (r, s')) :
    ¬Unharmed q.tree s' := by
  obtain ⟨hcache, hcases⟩ := not_or.mp hharm
  rw [keep, Bool.eq_true_of_not_eq_false hcache, Program.when,
    if_pos rfl] at hrun
  intro hunharmed
  cases hchild : q.child with
  | some n =>
      rw [hchild] at hcases hrun
      obtain ⟨node, hnode, -⟩ := hneeds.2 n hchild
      obtain ⟨node', hnode', hfile⟩ :=
        mutate_cases (s := answered env q) hnode hrun
      obtain ⟨node'', hnode'', htype⟩ := hunharmed.variants n node hnode
      cases hnode'.symm.trans hnode''
      refine hcases ⟨node, hnode, ?_⟩
      rw [← isError_of_type htype, hfile]
      rfl
  | none =>
      rw [hchild] at hcases hrun
      have hwf' : (answered env q).WellFormed :=
        hwf.congr (sameShape_apply rfl)
      rw [hname] at hrun
      obtain ⟨t, hbuild, -, node, hnode, hfile⟩ :=
        buildThenExpire_apply (s := answered env q) err hwf'
          (not_not.mp hcases) hchild
      change (outcome _ >>= fun _ => pure () : Fs Unit) _ = _ at hrun
      rw [bind_of_ok (outcome_apply hbuild)] at hrun
      cases hrun
      have hknown := hunharmed.errors _ node hnode (by rw [hfile]; rfl)
      obtain ⟨old, hold⟩ := Option.isSome_iff_exists.mp hknown
      exact absurd (hwf.known hold) (Nat.not_succ_le_self _)

/-- A lookup that fails is over, harmed or not. -/
theorem aftermath_cases {r : Except Errc α} (hwf : q.tree.WellFormed)
    (hneeds : NeedsStat q.tree q.dir q.name)
    (hname : q.path.filename = q.name)
    (hrun : (aftermath q err : Fs α) (answered env q) = some (r, s')) :
    (Harmless q err → Calm q.tree s') ∧
      (¬Harmless q err → ¬Unharmed q.tree s') := by
  have hkeep : ∃ r₁, keep q err (answered env q) = some (r₁, s') := by
    rcases bind_cases hrun with ⟨e, hkeep, -⟩ | ⟨u, t, hkeep, hfail⟩
    · exact ⟨.error e, hkeep⟩
    · cases hfail
      exact ⟨.ok u, hkeep⟩
  obtain ⟨r₁, hkeep⟩ := hkeep
  refine ⟨fun hharmless => ?_, fun hharm =>
    keep_harms hwf hneeds hname hharm hkeep⟩
  obtain ⟨t, hrun', -, hcalm⟩ := keep_run env hwf hneeds hharmless
  cases hkeep.symm.trans hrun'
  exact hcalm

theorem aftermath_run (env : Env) (hwf : q.tree.WellFormed)
    (hneeds : NeedsStat q.tree q.dir q.name) (hharmless : Harmless q err) :
    ∃ s', (aftermath q err : Fs α) (answered env q) =
        some (.error err, s') ∧ s'.tick = q.tree.tick + 1 ∧
      Calm q.tree s' := by
  obtain ⟨s', hkeep, htick, hcalm⟩ :=
    keep_run env hwf hneeds hharmless
  refine ⟨s', ?_, htick, hcalm⟩
  rw [aftermath, bind_of_ok hkeep]
  rfl

theorem aftermath_error {a : α} : (aftermath q err : Fs α) s ≠
    some (.ok a, s') := by
  intro hrun
  rcases bind_cases hrun with ⟨e, -, hr⟩ | ⟨u, t, -, hfail⟩
  · cases hr
  · cases hfail

end Aftermath

section Renames

variable {env : Env} {s s' : FileTree} {fromParent toParent : Id}
  {source target : Path} {flags : Nat}

/-- The device has not renamed, or the source is not in its directory any
more. -/
def Stopped (env : Env) (s : FileTree) (fromParent toParent : Id)
    (source target : Path) (flags : Nat) : Prop :=
  (∃ e, env.answer s.tick (.rename source target flags) = .error e) ∨
    (s.isDir fromParent ∧ (s.nodes toParent).isSome ∧
      (s.children fromParent).lookup source.filename = none)

theorem calm_refresh {n : Id} {stat : Stat} :
    Calm s (s.apply (.setStat n stat)) :=
  calm_modify fun _ _ => ⟨rfl, rfl⟩

/-- What is taken out is put somewhere. -/
theorem relink_error {e : Errc} (hflags : hasFlag flags renameExchange = false)
    (hrun : relink fromParent toParent source target flags s =
      some (.error e, s')) :
    s' = s ∧ s.isDir fromParent ∧
      (s.children fromParent).lookup source.filename = none := by
  rcases bind_cases hrun with ⟨e', hextract, -⟩ | ⟨found, t, hextract, hrest⟩
  · cases (extract_cases hextract).2.1
  obtain ⟨hdir, hfound, hsame⟩ := extract_cases hextract
  cases hfound
  cases hlookup : (s.children fromParent).lookup source.filename with
  | none =>
      rw [hlookup] at hrest
      cases hrest
      exact ⟨hsame hlookup, hdir, rfl⟩
  | some n =>
      rw [hlookup] at hrest
      refine absurd hrest (Succeeds.bind succeeds_moveTo (fun _ => ?_) t e s')
      refine succeeds_insert.bind fun overwritten => ?_
      rw [hflags, if_neg Bool.false_ne_true]
      split
      · exact .pure _
      · refine succeeds_invalidateOne.bind fun _ => ?_
        exact (succeeds_edit _).bind fun _ => succeeds_destroy

/-- `rename` with no exchange fails before anything is moved. -/
theorem renameAt_error {e : Errc}
    (hflags : hasFlag flags renameExchange = false)
    (hrun : renameAt env fromParent toParent source target flags s =
      some (.error e, s')) :
    Calm s s' ∧ Stopped env s fromParent toParent source target flags := by
  have hreq := request_apply env (.rename source target flags) s
  cases hanswer : env.answer s.tick (.rename source target flags) with
  | error err =>
      rw [NameOp.renameAt_refused hanswer] at hrun
      cases hrun
      exact ⟨calm_clock _, .inl ⟨e, hanswer⟩⟩
  | ok _ =>
      rw [hanswer] at hreq
      rw [renameAt, bind_of_ok hreq] at hrun
      rcases bind_cases hrun with ⟨e', hrefresh, -⟩ | ⟨_, s₁, hrefresh, hrest⟩
      · exact absurd hrefresh (succeeds_refreshStat _ _ _)
      obtain ⟨d, hd, -, hs₁⟩ := refreshStat_cases hrefresh
      rcases bind_cases hrest with
        ⟨e', hrefresh', -⟩ | ⟨_, s₂, hrefresh', hrest'⟩
      · exact absurd hrefresh' (succeeds_refreshStat _ _ _)
      obtain ⟨d', hd', -, hs₂⟩ := refreshStat_cases hrefresh'
      have hcalm₁ : Calm s s₁ := by
        rw [hs₁]
        exact (calm_clock _).trans calm_refresh
      have hcalm : Calm s s₂ := by
        rw [hs₂]
        exact hcalm₁.trans calm_refresh
      obtain ⟨rfl, hdir, hlookup⟩ := relink_error hflags hrest'
      refine ⟨hcalm, .inr ⟨?_, ?_, ?_⟩⟩
      · rwa [hcalm.isDir] at hdir
      · rw [← hcalm₁.isSome, hd']
        rfl
      · rwa [hcalm.children] at hlookup

theorem renameAt_stopped
    (hstopped : Stopped env s fromParent toParent source target flags) :
    ∃ e s', renameAt env fromParent toParent source target flags s =
      some (.error e, s') := by
  have hreq := request_apply env (.rename source target flags) s
  cases hanswer : env.answer s.tick (.rename source target flags) with
  | error err => exact ⟨_, _, NameOp.renameAt_refused hanswer⟩
  | ok _ =>
      obtain ⟨e, herr⟩ | ⟨hdir, hsome, hlookup⟩ := hstopped
      · cases hanswer.symm.trans herr
      obtain ⟨d, hd, hfile⟩ := isDir_iff.mp hdir
      obtain ⟨d', hd'⟩ := Option.isSome_iff_exists.mp hsome
      rw [hanswer] at hreq
      have hrefresh : ∃ s₁ s₂,
          refreshStat env fromParent .omit .now
            (s.apply (.clock (env.delay s.tick))) = some (.ok (), s₁) ∧
          refreshStat env toParent .omit .now s₁ = some (.ok (), s₂) ∧
          SameShape (s.apply (.clock (env.delay s.tick))) s₂ := by
        obtain ⟨s₁, s₂, hfrom, hto, hshape, -⟩ :=
          refresh_run (s := s.apply (.clock (env.delay s.tick))) hd hd'
        exact ⟨s₁, s₂, hfrom, hto, hshape⟩
      obtain ⟨s₁, s₂, hfrom, hto, hshape⟩ := hrefresh
      have hshape' : SameShape s s₂ := (sameShape_apply rfl).trans hshape
      have hdir₂ : s₂.isDir fromParent := by
        obtain ⟨d₂, hd₂, hsame⟩ := hshape'.symm.node hd
        have hsame' : d.file.isDirectory = d₂.file.isDirectory :=
          congrArg (fun shape => shape.2.2.2) hsame
        exact isDir_iff.mpr ⟨d₂, hd₂, hsame' ▸ hfile⟩
      have hextract : extract fromParent source.filename s₂ =
          some (.ok none, s₂) := by
        rw [extract, bind_of_ok (directory_run hdir₂), hshape'.children,
          hlookup]
        rfl
      refine ⟨Errc.ioError, s₂, ?_⟩
      rw [renameAt, bind_of_ok hreq, bind_of_ok hfrom, bind_of_ok hto, relink,
        bind_of_ok hextract]
      rfl

end Renames

end Fs

namespace Op

open Program FileTree Fs

/-- The path of the lookup that an operation begins with. -/
def first : Op → Option Path
  | .readdir path | .getattr path | .readlink path | .utimens path _ _
  | .truncate path _ | .open path _ => some path
  | .mknod path _ _ | .mkdir path _ | .unlink path | .rmdir path =>
      some path.parentPath
  | .rename source _ _ => some source
  | _ => none

/-- The first lookup of `rename`. -/
def FindsSource (env : Env) (s₀ : FileTree) (source : Path) (fromParent : Id)
    (s : FileTree) : Prop :=
  source ≠ [] ∧ ∃ n, traverseOrBuild env source s₀ = some (.ok n, s) ∧
    parentOf n s = some (.ok fromParent, s)

/-- The first two lookups of `rename`. -/
def FindsParents (env : Env) (s₀ : FileTree) (source target : Path)
    (fromParent toParent : Id) (s : FileTree) : Prop :=
  ∃ s₁ list, FindsSource env s₀ source fromParent s₁ ∧
    traverseOrBuild env target.parentPath s₁ = some (.ok toParent, s) ∧
    asDirectory toParent s = some (.ok list, s)

/-- The operation makes this stat request in one of its lookups. -/
inductive Asks (env : Env) (s₀ : FileTree) : Op → Question → Prop
  | first {op : Op} {path : Path} {q : Question}
      (hfirst : op.first = some path)
      (hasks : Fs.Asks env s₀ s₀.root [] path q) : Asks env s₀ op q
  | parent {source target : Path} {flags : Nat} {fromParent : Id}
      {s : FileTree} {q : Question}
      (hsource : FindsSource env s₀ source fromParent s)
      (hasks : Fs.Asks env s s.root [] target.parentPath q) :
      Asks env s₀ (.rename source target flags) q
  | target {source target : Path} {flags : Nat} {fromParent toParent : Id}
      {s : FileTree} {q : Question}
      (hparents : FindsParents env s₀ source target fromParent toParent s)
      (hflags : hasFlag flags renameExchange ∨ hasFlag flags renameNoreplace)
      (hasks : Fs.Asks env s s.root [] target q) :
      Asks env s₀ (.rename source target flags) q

/-- The request is for the target that `RENAME_NOREPLACE` has `rename` look
up, and nothing stops `rename` afterwards. -/
inductive Ignored (env : Env) (s₀ : FileTree) : Op → Question → Prop
  | target {source target : Path} {flags : Nat} {fromParent toParent : Id}
      {s : FileTree} {q : Question}
      (hparents : FindsParents env s₀ source target fromParent toParent s)
      (hexchange : hasFlag flags renameExchange = false)
      (hnoreplace : hasFlag flags renameNoreplace)
      (hasks : Fs.Asks env s s.root [] target q)
      (hgoes : ¬Stopped env (answered env q) fromParent toParent source target
        flags) :
      Ignored env s₀ (.rename source target flags) q

section Phases

variable {env : Env} {s s₀ : FileTree} {op : Op} {q : Question} {err : Errc}
  {source target : Path} {flags : Nat} {fromParent toParent : Id}

theorem rename_eq (hne : source ≠ []) :
    Fs.rename env source target flags = (do
      let n ← traverseOrBuild env source
      let fromParent ← parentOf n
      let toParent ← traverseOrBuild env target.parentPath
      let _ ← asDirectory toParent
      renameCheck env target flags
      renameAt env fromParent toParent source target flags) := by
  have hrequire : (Program.require (!source.isEmpty)
      Errc.operationNotSupported : Fs Unit) = Pure.pure () := by
    cases source with
    | nil => exact absurd rfl hne
    | cons name rest => rfl
  unfold Fs.rename
  rw [hrequire]
  rfl

theorem body_first {path : Path} (hfirst : op.first = some path)
    (hne : path ≠ []) :
    ∃ f : Id → Fs Value, op.body env = traverseOrBuild env path >>= f := by
  cases op with
  | rename source target flags =>
      cases hfirst
      rw [body, rename_eq hne]
      exact ⟨_, bind_assoc _ _ _⟩
  | readdir | getattr | readlink | mknod | mkdir | unlink | rmdir | utimens
  | truncate | «open» =>
      cases hfirst
      exact ⟨_, bind_assoc _ _ _⟩
  | _ => cases hfirst

/-- The lookup of the source is over. -/
theorem body_source (hsource : FindsSource env s₀ source fromParent s) :
    (Op.rename source target flags).body env s₀ = (do
      let toParent ← traverseOrBuild env target.parentPath
      let _ ← asDirectory toParent
      renameCheck env target flags
      renameAt env fromParent toParent source target flags
      return Value.done : Fs Value) s := by
  obtain ⟨hne, n, hlookup, hparent⟩ := hsource
  rw [body, rename_eq hne]
  simp only [bind_assoc]
  rw [bind_of_ok hlookup, bind_of_ok hparent]

/-- The lookups of the two directories are over. -/
theorem body_parents
    (hparents : FindsParents env s₀ source target fromParent toParent s) :
    (Op.rename source target flags).body env s₀ = (do
      renameCheck env target flags
      renameAt env fromParent toParent source target flags
      return Value.done : Fs Value) s := by
  obtain ⟨s₁, list, hsource, hlookup, hlist⟩ := hparents
  rw [body_source hsource, bind_of_ok hlookup, bind_of_ok hlist]

theorem asks_ne_nil {current : Id} {above path : Path}
    (hasks : Fs.Asks env s current above path q) : path ≠ [] := by
  rintro rfl
  cases hasks

/-- A lookup that fails ends the operation. -/
theorem bind_asks {α : Type} {path : Path} {f : Id → Fs α}
    (hasks : Fs.Asks env s s.root [] path q)
    (hfail : env.answer q.tree.tick (.stat q.path) = .error err) :
    (traverseOrBuild env path >>= f) s =
      (aftermath q err : Fs α) (answered env q) := by
  rw [bind_apply, traverseOrBuild_asks hasks hfail, ← bind_apply,
    aftermath_bind]

/-- But `RENAME_NOREPLACE` takes the failure for an answer. -/
theorem body_noreplace
    (hparents : FindsParents env s₀ source target fromParent toParent s)
    (hexchange : hasFlag flags renameExchange = false)
    (hnoreplace : hasFlag flags renameNoreplace)
    (hasks : Fs.Asks env s s.root [] target q)
    (hfail : env.answer q.tree.tick (.stat q.path) = .error err) :
    (Op.rename source target flags).body env s₀ = (do
      let _ ← (aftermath q err : Fs Id).outcome
      renameAt env fromParent toParent source target flags
      return Value.done : Fs Value) (answered env q) := by
  have houtcome : (traverseOrBuild env target).outcome s =
      (aftermath q err : Fs Id).outcome (answered env q) := by
    rw [Program.outcome, Program.outcome, traverseOrBuild_asks hasks hfail]
  rw [body_parents hparents, renameCheck, hexchange,
    if_neg Bool.false_ne_true, if_pos hnoreplace, bind_assoc, bind_apply,
    houtcome, bind_apply]
  cases hrun : (aftermath q err : Fs Id) (answered env q) with
  | none => rw [Program.outcome, hrun]; rfl
  | some p =>
      obtain ⟨r, t⟩ := p
      cases r with
      | ok n => exact absurd hrun aftermath_error
      | error e => rw [outcome_apply hrun]; rfl

theorem body_exchange
    (hparents : FindsParents env s₀ source target fromParent toParent s)
    (hexchange : hasFlag flags renameExchange)
    (hasks : Fs.Asks env s s.root [] target q)
    (hfail : env.answer q.tree.tick (.stat q.path) = .error err) :
    (Op.rename source target flags).body env s₀ =
      (aftermath q err : Fs Value) (answered env q) := by
  rw [body_parents hparents, renameCheck, if_pos hexchange, bind_assoc]
  exact bind_asks hasks hfail

/-- What a failed stat leads to: the end of the operation, or the rest of a
`rename` with `RENAME_NOREPLACE`. -/
theorem body_asks (hasks : op.Asks env s₀ q)
    (hfail : env.answer q.tree.tick (.stat q.path) = .error err) :
    op.body env s₀ = (aftermath q err : Fs Value) (answered env q) ∨
      ∃ source target flags fromParent toParent s,
        op = .rename source target flags ∧
        FindsParents env s₀ source target fromParent toParent s ∧
        hasFlag flags renameExchange = false ∧
        hasFlag flags renameNoreplace ∧
        Fs.Asks env s s.root [] target q := by
  cases hasks with
  | first hfirst hasks =>
      obtain ⟨f, hbody⟩ := body_first hfirst (asks_ne_nil hasks)
      left
      rw [hbody]
      exact bind_asks hasks hfail
  | parent hsource hasks =>
      left
      rw [body_source hsource]
      exact bind_asks hasks hfail
  | @target source target flags fromParent toParent s q hparents hflags hasks =>
      cases hexchange : hasFlag flags renameExchange with
      | true =>
          left
          exact body_exchange hparents hexchange hasks hfail
      | false =>
          right
          have hnoreplace := hflags.resolve_left (by simp [hexchange])
          exact ⟨source, target, flags, fromParent, toParent, s, rfl, hparents,
            hexchange, hnoreplace, hasks⟩

end Phases

end Op

namespace FileTree

open Program Fs

variable {env : Env} {s : FileTree} {op : Op} {q : Question} {err : Errc}

/-- The operation returns an error and does no harm after its stat request. -/
def Withstands (env : Env) (s : FileTree) (op : Op) (q : Question) : Prop :=
  ∃ e s', s.exec op env = some (.error e, s') ∧ Unharmed q.tree s'

theorem valid_first {path : Path} (hop : op.Proper)
    (hfirst : op.first = some path) : ∀ name ∈ path, ValidName name := by
  cases op with
  | mknod | mkdir =>
      cases hfirst
      exact valid_parentPath hop.2
  | unlink | rmdir =>
      cases hfirst
      exact valid_parentPath hop
  | rename source target flags =>
      cases hfirst
      exact hop.2.1
  | readdir | getattr | readlink | utimens | truncate | «open» =>
      cases hfirst
      exact hop
  | _ => cases hfirst

/-- The state in which an operation asks. -/
theorem good_of_asks (hwf : s.WellFormed) (hop : op.Proper)
    (hasks : op.Asks env (s.start env) q) :
    q.tree.WellFormed ∧ q.path.filename = q.name := by
  have hgood : (s.start env).Good (op.ctx env s) := good_start hwf
  have hlookup : ∀ {t t' : FileTree} {path : Path} {n : Id},
      t.Good (op.ctx env s) → (∀ name ∈ path, ValidName name) →
      traverseOrBuild env path t = some (.ok n, t') →
      t'.Good (op.ctx env s) := fun ht hvalid hrun =>
    (obeys_traverseOrBuild hvalid ht _ _ hrun).1.good ht
  have hlast : ∀ {t : FileTree} {path : Path}, t.Good (op.ctx env s) →
      (∀ name ∈ path, ValidName name) → Fs.Asks env t t.root [] path q →
      q.tree.WellFormed ∧ q.path.filename = q.name := by
    intro t path ht hvalid hasks
    obtain ⟨hgood', -, hname⟩ :=
      hasks.good ht (Fs.Good.reached_root ht) hvalid
    exact ⟨hgood'.wf, hname⟩
  cases hasks with
  | first hfirst hasks => exact hlast hgood (valid_first hop hfirst) hasks
  | parent hsource hasks =>
      obtain ⟨-, n, hrun, -⟩ := hsource
      have ht := hlookup hgood hop.2.1 hrun
      exact hlast ht (valid_parentPath hop.2.2) hasks
  | target hparents hflags hasks =>
      obtain ⟨s₁, list, ⟨-, n, hrun, -⟩, hrun', -⟩ := hparents
      have ht := hlookup hgood hop.2.1 hrun
      have ht' := hlookup ht (valid_parentPath hop.2.2) hrun'
      exact hlast ht' hop.2.2 hasks

theorem needsStat_of_asks (hasks : op.Asks env s q) :
    NeedsStat q.tree q.dir q.name := by
  cases hasks with
  | first hfirst hasks => exact hasks.needsStat
  | parent hsource hasks => exact hasks.needsStat
  | target hparents hflags hasks => exact hasks.needsStat

theorem Stopped.calm_iff {s t : FileTree} {fromParent toParent : Id}
    {source target : Path} {flags : Nat} (hcalm : Calm s t)
    (htick : t.tick = s.tick) :
    Stopped env t fromParent toParent source target flags ↔
      Stopped env s fromParent toParent source target flags := by
  rw [Stopped, Stopped, htick, hcalm.isDir, hcalm.isSome, hcalm.children]

/-- An error of a `rename` that goes on after the failure. -/
theorem noreplace_cases {fromParent toParent : Id} {source target : Path}
    {flags : Nat} {e : Errc} {s s' : FileTree}
    (hrun : (do
      let _ ← (aftermath q err : Fs Id).outcome
      renameAt env fromParent toParent source target flags
      return Value.done : Fs Value) s = some (.error e, s')) :
    ∃ r t, (aftermath q err : Fs Id) s = some (r, t) ∧
      renameAt env fromParent toParent source target flags t =
        some (.error e, s') := by
  rcases bind_cases hrun with ⟨e', hout, -⟩ | ⟨r, t, hout, hrest⟩
  · obtain ⟨p, -, heq⟩ := Option.map_eq_some_iff.mp hout
    cases heq
  · obtain ⟨p, hrun', heq⟩ := Option.map_eq_some_iff.mp hout
    cases heq
    refine ⟨p.1, p.2, hrun', ?_⟩
    rcases bind_cases hrest with ⟨e', hrename, heq⟩ | ⟨u, t', -, hret⟩
    · cases heq
      exact hrename
    · cases hret

/-- A failed stat is withstood when it does no harm and is not ignored. -/
theorem withstands_of_wellFormed (hwf : s.WellFormed) (hop : op.Proper)
    (hasks : op.Asks env (s.start env) q)
    (hfail : env.answer q.tree.tick (.stat q.path) = .error err) :
    Withstands env s op q ↔
      Harmless q err ∧ ¬op.Ignored env (s.start env) q := by
  obtain ⟨hwf', hname⟩ := good_of_asks hwf hop hasks
  have hneeds := needsStat_of_asks hasks
  constructor
  · rintro ⟨e, s', hexec, hunharmed⟩
    have hharmless : Harmless q err := by
      by_contra hharm
      rcases Op.body_asks hasks hfail with hbody |
        ⟨source, target, flags, fromParent, toParent, t, rfl, hparents,
          hexchange, hnoreplace, hlookup⟩
      · rw [FileTree.exec, hbody] at hexec
        exact (aftermath_cases hwf' hneeds hname hexec).2 hharm hunharmed
      · rw [FileTree.exec, Op.body_noreplace hparents hexchange hnoreplace
          hlookup hfail] at hexec
        obtain ⟨r, u, hafter, hrename⟩ := noreplace_cases hexec
        have hcalm := (renameAt_error hexchange hrename).1
        exact (aftermath_cases hwf' hneeds hname hafter).2 hharm
          (hunharmed.before hcalm)
    refine ⟨hharmless, ?_⟩
    rintro ⟨hparents, hexchange, hnoreplace, hlookup, hgoes⟩
    rw [FileTree.exec, Op.body_noreplace hparents hexchange hnoreplace hlookup
      hfail] at hexec
    obtain ⟨r, u, hafter, hrename⟩ := noreplace_cases hexec
    obtain ⟨u', hrun, htick, hcalm⟩ :=
      aftermath_run (α := Id) env hwf' hneeds hharmless
    cases hafter.symm.trans hrun
    have hcalm' := (calm_answered env q).symm.trans hcalm
    exact hgoes ((Stopped.calm_iff hcalm' htick).mp
      (renameAt_error hexchange hrename).2)
  · rintro ⟨hharmless, hnot⟩
    rcases Op.body_asks hasks hfail with hbody |
      ⟨source, target, flags, fromParent, toParent, t, rfl, hparents,
        hexchange, hnoreplace, hlookup⟩
    · obtain ⟨s', hrun, -, hcalm⟩ :=
        aftermath_run env hwf' hneeds hharmless
      refine ⟨err, s', ?_, hcalm.unharmed⟩
      rw [FileTree.exec, hbody, hrun]
    · obtain ⟨u, hrun, htick, hcalm⟩ :=
        aftermath_run (α := Id) env hwf' hneeds hharmless
      have hcalm' := (calm_answered env q).symm.trans hcalm
      have hstopped : Stopped env u fromParent toParent source target
          flags := by
        by_contra hgoes
        refine hnot (.target hparents hexchange hnoreplace hlookup ?_)
        rwa [← Stopped.calm_iff hcalm' htick]
      obtain ⟨e, s', hrename⟩ := renameAt_stopped hstopped
      refine ⟨e, s', ?_, ?_⟩
      · rw [FileTree.exec, Op.body_noreplace hparents hexchange hnoreplace
          hlookup hfail, bind_of_ok (outcome_apply hrun),
          bind_of_error hrename]
      · exact (hcalm.trans (renameAt_error hexchange hrename).1).unharmed

/-- In every state a run reaches, an operation whose lookup has a stat fail
returns an error and leaves variants, children, cache and handles alone exactly
if the error is not kept or has nothing to replace, and it is not ignored. -/
theorem withstands_iff {caching : Option (Nat × Nat)} {ttl : Option Nat}
    {events : List (Op × Env)}
    (hruns : Runs step Proper (create caching ttl) events s)
    (hop : op.Proper) (hasks : op.Asks env (s.start env) q)
    (hfail : env.answer q.tree.tick (.stat q.path) = .error err) :
    Withstands env s op q ↔
      Harmless q err ∧ ¬op.Ignored env (s.start env) q :=
  withstands_of_wellFormed (wellFormed_of_runs hruns) hop hasks hfail

/-- A device whose connection is gone, a while later. -/
def lost (err : Errc) : Env :=
  { Env.obliging (fun _ => .error err) fun _ => .ok [] with
    idle := 31 * nanosPerSec }

theorem withstands_iff_not_connected : ∃ (s : FileTree) (q : Question),
    q.child = some ⟨2⟩ ∧
      Withstands (lost Errc.notConnected) s (.getattr ["f"]) q := by
  have hruns : ∃ s, Runs step Proper (create none (some 30))
      [(.getattr ["f"], .ofMode sIfreg)] s ∧
      (Op.getattr ["f"]).Asks (lost Errc.notConnected)
        (s.start (lost Errc.notConnected))
        ⟨s.start (lost Errc.notConnected), ⟨1⟩, "f", ["f"]⟩ ∧
      s.child ⟨1⟩ "f" = some ⟨2⟩ := by
    refine ⟨_, .cons rfl ⟨(by decide : ∀ name ∈ ["f"], ValidName name),
      Env.proper_ofMode _⟩ (.nil _), .first rfl (.here ⟨rfl, ?_⟩), rfl⟩
    intro n hn
    cases hn
    exact ⟨_, rfl, by decide +kernel⟩
  obtain ⟨s, hs, hasks, hchild⟩ := hruns
  have hop : (Op.getattr ["f"]).Proper :=
    (by decide : ∀ name ∈ ["f"], ValidName name)
  have hfail : (lost Errc.notConnected).answer 0 (.stat ["f"]) =
      .error Errc.notConnected := rfl
  refine ⟨s, ⟨s.start (lost Errc.notConnected), ⟨1⟩, "f", ["f"]⟩, hchild,
    (withstands_iff hs hop hasks hfail).mpr ⟨.inl rfl, ?_⟩⟩
  rintro ⟨⟩

/-- A request that is cancelled makes an `Error` of an open file. -/
theorem cancelled_stat_harms : ∃ (s : FileTree) (q : Question)
    (r : Except Errc Value) (s' : FileTree),
    Runs step Proper (create none (some 30))
      [(.getattr ["f"], .ofMode sIfreg), (.open ["f"] 0, .ofMode sIfreg)] s ∧
    (Op.getattr ["f"]).Asks (lost Errc.operationCanceled)
      (s.start (lost Errc.operationCanceled)) q ∧
    (lost Errc.operationCanceled).answer q.tree.tick (.stat q.path) =
      .error Errc.operationCanceled ∧
    s.exec (.getattr ["f"]) (lost Errc.operationCanceled) = some (r, s') ∧
    s.handles.nodeAt 0 = some ⟨2⟩ ∧ s'.handles.nodeAt 0 = none ∧
    ¬Withstands (lost Errc.operationCanceled) s (.getattr ["f"]) q := by
  refine ⟨_, ⟨_, ⟨1⟩, "f", ["f"]⟩, _, _, .cons rfl
    ⟨(by decide : ∀ name ∈ ["f"], ValidName name), Env.proper_ofMode _⟩
    (.cons rfl ⟨(by decide : ∀ name ∈ ["f"], ValidName name),
      Env.proper_ofMode _⟩ (.nil _)), .first rfl (.here ⟨rfl, ?_⟩), rfl, rfl,
    rfl, rfl, ?_⟩
  · intro n hn
    cases hn
    exact ⟨_, rfl, by decide +kernel⟩
  · rintro ⟨e, s', hexec, hunharmed⟩
    cases hexec
    obtain ⟨node, hnode, htype⟩ := hunharmed.variants ⟨2⟩ _ rfl
    cases hnode
    cases htype

end FileTree

end Madbfs
