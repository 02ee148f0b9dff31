/-
Every operation of the filesystem is a chain of permitted changes, of which a
few belong to the operation alone.
-/
import Madbfs.Tree.Chains

namespace Madbfs

/-- The operation puts a new node into the tree and does not call
`expires_after`: the device makes the file and has a stat for it, or there is
room for the link. -/
def Op.Creates (env : Env) (s₀ : FileTree) : Op → Prop
  | .mknod path mode dev => ∃ t stat,
      env.answer t (.mknod path mode dev) = .ok () ∧
        env.answer (t + 1) (.stat path) = .ok stat
  | .mkdir path mode => ∃ t stat, env.answer t (.mkdir path mode) = .ok () ∧
      env.answer (t + 1) (.stat path) = .ok stat
  | .symlink path _ => ∃ parent, s₀.resolve path.parentPath = some parent ∧
      (s₀.children parent).lookup path.filename = none
  | _ => False

/-- The changes that belong to one operation, from the state it starts in. -/
def Op.extra (env : Env) (s₀ : FileTree) : Op → FileTree → Edit → Prop
  | .mknod path mode dev, _, .alloc _ node => node.expiration = none ∧
      node.file = .create .regular ∧
      ∃ t, env.answer t (.mknod path mode dev) = .ok () ∧
        env.answer (t + 1) (.stat path) = .ok node.stat
  | .mkdir path mode, _, .alloc _ node => node.expiration = none ∧
      node.file = .create .directory ∧
      ∃ t, env.answer t (.mkdir path mode) = .ok () ∧
        env.answer (t + 1) (.stat path) = .ok node.stat
  | .utimens path _ _, s, .setStat n stat =>
      ∃ s₁, Fs.traverseOrBuild env path s₀ = some (.ok n, s₁) ∧
        s.nodes = s₁.nodes ∧ env.answer (s₁.tick + 1) (.stat path) = .ok stat
  | .copyFileRange inPath inFd _ outPath outFd _ _, s, .setStat n stat =>
      ∃ s₁ inNode, Fs.copyLookup env inPath inFd outPath outFd s₀ =
          some (.ok (inNode, n), s₁) ∧
        (∀ node, s.nodes n = some node → ∃ old, s₁.nodes n = some old ∧
          old.file = node.file ∧ old.stat.mode = node.stat.mode) ∧
        env.answer (s₁.tick + 1) (.stat outPath) = .ok stat
  | .initializeRoot, s, .setStat n _ => n = s.root
  | .open path _, s, .store handle =>
      ∃ n s₁, Fs.traverseOrBuild env path s₀ = some (.ok n, s₁) ∧
        s.handles = s₁.handles ∧ handle.node = some n
  | .release fd, s, .release fd' => fd' = fd ∧ s.handles = s₀.handles
  | .setTtl ttl, s, .setTtl ttl' ns => ttl' = ttl ∧ ns = s.walk s.root
  | .expiresAll, s, .expireAll ns time =>
      ns = s.walk s.root ∧ time = some s.now
  | _, _, _ => False

/-- What FUSE promises of the paths it passes: their components are names of
files, and a path at which a file is to be made or put is not the root. -/
def Op.Proper : Op → Prop
  | .readdir path | .getattr path | .readlink path | .unlink path
  | .rmdir path | .utimens path _ _ | .truncate path _ | .open path _ =>
      ∀ name ∈ path, ValidName name
  | .mknod path _ _ | .mkdir path _ | .symlink path _ =>
      path ≠ [] ∧ ∀ name ∈ path, ValidName name
  | .rename source target _ => target ≠ [] ∧
      (∀ name ∈ source, ValidName name) ∧ ∀ name ∈ target, ValidName name
  | .copyFileRange inPath _ _ outPath _ _ _ =>
      (∀ name ∈ inPath, ValidName name) ∧ ∀ name ∈ outPath, ValidName name
  | _ => True

/-- The device lists names of files. -/
def Env.Proper (env : Env) : Prop :=
  ∀ t path entries, env.answer t (.statdir path) = .ok entries →
    ∀ e ∈ entries, ValidName e.2

namespace Fs

open Program FileTree

variable {ctx : Ctx} {s s₀ : FileTree} {n m dir : Id} {name : Name}
  {path : Path} {α : Type} {env : Env}

theorem valid_filename (hne : path ≠ []) (hvalid : ∀ name ∈ path, ValidName name) :
    ValidName path.filename := by
  cases hlast : path.getLast? with
  | none => exact absurd (List.getLast?_eq_none_iff.mp hlast) hne
  | some name =>
      rw [Path.filename, hlast]
      exact hvalid name (List.mem_of_getLast? hlast)

theorem valid_parentPath (hvalid : ∀ name ∈ path, ValidName name) :
    ∀ name ∈ path.parentPath, ValidName name :=
  fun n hn => hvalid n (List.mem_of_mem_dropLast hn)

theorem obeys_refreshStat {atime mtime : TimeArg} :
    (refreshStat env n atime mtime).Obeys ctx.discipline s
      fun _ _ => True := by
  apply bind_deref
  intro node hnode
  apply Obeys.bind_state
  refine obeys_edit trivial (.inl ?_) fun _ => trivial
  intro node' hnode'
  cases hnode.symm.trans hnode'
  rfl

theorem obeys_setSynced {synced : Bool} :
    (setSynced n synced).Obeys ctx.discipline s fun _ _ => True := by
  apply bind_deref
  intro node hnode
  exact obeys_edit trivial (.inl trivial) fun _ => trivial

theorem obeys_addEntry {stat : Stat} (hdir : s.Reached ctx dir)
    (hvalid : ValidName name) :
    (addEntry dir stat name).Obeys ctx.discipline s fun _ _ => True := by
  unfold addEntry
  refine bind_alloc (File.children_create _) hdir.inside
    (.inl ⟨rfl, .inr (by exact File.type_create _)⟩) ?_
  intro s₁ hs₁ hgood₁ hheld
  have hne : dir ≠ ⟨s.nextId + 1⟩ := by
    rintro rfl
    exact absurd hdir.known (Nat.not_succ_le_self _)
  generalize (⟨s.nextId + 1⟩ : Id) = n at hheld hne
  apply bind_expiresAfter
  intro hgood₂
  have hshape : SameShape s₁ (s₁.apply (.expire n s₁.deadline)) :=
    sameShape_apply rfl
  have hheld' : (s₁.apply (.expire n s₁.deadline)).Held ctx n
      { Node.create name (some dir) stat (.create (fileType stat.mode)) with
        expiration := s₁.deadline } := by
    refine ⟨?_, ?_, hheld.ne_root, hheld.inside⟩
    · simp only [FileTree.apply, FileTree.modify, Function.update_self,
        hheld.node]
      rfl
    · intro d nm hmem
      rw [hshape.children] at hmem
      exact hheld.unlisted d nm hmem
  apply bind_directory
  intro hisDir
  split
  · next hlookup =>
    refine obeys_edit ⟨hheld.inside, hisDir, ⟨_, hheld'.node, rfl, hvalid,
      lookup_eq_none_iff.mp hlookup⟩, .inr (.inr ?_)⟩ (.inl trivial)
      fun _ => trivial
    intro httl node hnode
    cases hheld'.node.symm.trans hnode
    exact Option.isSome_map.trans httl
  · exact obeys_destroy hheld'

theorem obeys_mergeEntry {stat : Stat} (hdir : s.Reached ctx dir)
    (hvalid : ValidName name) :
    (mergeEntry dir stat name).Obeys ctx.discipline s fun _ _ => True := by
  apply bind_directory
  intro _
  split
  · exact obeys_addEntry hdir hvalid
  · next n hlookup =>
    apply bind_deref
    intro node hnode
    apply Obeys.bind_state
    apply Obeys.when
    · intro _ h
      have hmem := h.wf.lookup_iff.mp hlookup
      exact obeys_rebuild (h.wf.ne_root hmem) (File.children_create _)
        (.inr (File.type_create _)) h
    · exact fun _ _ => trivial

/-- The children know that they are listed in the directory, under their
keys. -/
def Labelled (s : FileTree) (dir : Id) (list : List (Name × Id)) : Prop :=
  ∀ e ∈ list, ∀ l, s.label e.2 = some l → l = (e.1, some dir)

/-- A child that the device does not have is taken out and destroyed. -/
theorem obeys_pruneEntry {names : List Name} {list : List (Name × Id)}
    {e : Name × Id} (he : e ∈ list) (hlabel : Labelled s dir list) :
    (pruneEntry dir names e).Obeys ctx.discipline s fun _ s' =>
      Labelled s' dir list := by
  apply bind_deref
  intro node hnode
  apply Obeys.when
  · intro _
    apply Obeys.bind obeys_invalidateOne
    intro _ s₁ hgood₁ _ hs₁
    have hsame : ∀ m, s₁.label m = s.label m := fun m => by
      rw [FileTree.label, hs₁.1]
      rfl
    have hplace : s₁.label e.2 = some (e.1, some dir) := by
      have hl := label_eq hnode
      rw [hsame, hl]
      exact congrArg some (hlabel e he _ hl)
    have hne : e.2 ≠ s₁.root := by
      intro heq
      rw [heq, hgood₁.wf.label_root] at hplace
      have hparent := congrArg (Option.map Prod.snd) hplace
      cases hparent
    have hunlisted : (s₁.apply (.detach dir e.1)).Unlisted e.2 := by
      intro d name hmem
      rw [children_detach] at hmem
      split_ifs at hmem with hd
      · obtain ⟨hold, hkept⟩ := List.mem_filter.mp hmem
        have heq := (hgood₁.wf.label hold).symm.trans hplace
        simp only [Option.some.injEq, Prod.mk.injEq] at heq
        simp [heq.1] at hkept
      · have heq := (hgood₁.wf.label hmem).symm.trans hplace
        simp only [Option.some.injEq, Prod.mk.injEq] at heq
        exact hd heq.2
    refine bind_edit trivial (.inl trivial) fun hgood₂ => ?_
    intro h r s' hrun
    rw [destroy_apply] at hrun
    cases hrun
    refine ⟨.step (hgood₂.wf.permits_destroy_one (by rw [root_apply]; exact hne)
      hunlisted) (.inl trivial) (.refl _), fun _ _ e' he' l hl => ?_⟩
    rw [label_destroy] at hl
    split_ifs at hl
    rw [label_detach, hsame] at hl
    exact hlabel e' he' l hl
  · exact fun _ _ => hlabel

theorem obeys_takeEntries {entries : List (Stat × Name)}
    (hdir : s.Reached ctx dir) (hvalid : ∀ e ∈ entries, ValidName e.2) :
    (takeEntries dir entries).Obeys ctx.discipline s fun _ _ => True := by
  apply bind_directory
  intro _
  split_ifs
  · exact (Obeys.forEach (J := fun t => t.Reached ctx dir)
      (fun e he t _ ht h r s' hrun => by
        obtain ⟨hchain, -⟩ := obeys_addEntry ht (hvalid e he) h r s' hrun
        exact ⟨hchain, fun _ _ => ht.chain hchain⟩) hdir).mono
      fun _ _ _ _ => trivial
  · apply Obeys.bind (Obeys.forEach (J := fun t => t.Reached ctx dir)
      (fun e he t _ ht h r s' hrun => by
        obtain ⟨hchain, -⟩ := obeys_mergeEntry ht (hvalid e he) h r s' hrun
        exact ⟨hchain, fun _ _ => ht.chain hchain⟩) hdir)
    intro _ s₁ _ _ _
    apply bind_directory
    intro _ h
    refine ((Obeys.forEach (J := fun t => Labelled t dir (s₁.children dir))
      (fun e he t _ ht => obeys_pruneEntry he ht) ?_).mono
      fun _ _ _ _ => trivial) h
    intro e he l hl
    exact Option.some.inj (hl.symm.trans (h.wf.label he))

theorem obeys_readdir (henv : env.Proper) (hvalid : ∀ name ∈ path, ValidName name) :
    (readdir env path).Obeys ctx.discipline s fun _ _ => True := by
  apply Obeys.bind (obeys_traverseOrBuild hvalid)
  intro dir s₁ _ _ hdir
  apply bind_asDirectory
  intro _
  apply bind_deref
  intro node hnode
  refine Obeys.bind (Q := fun _ _ => True) ?_ fun _ s₂ _ _ _ => ?_
  · apply Obeys.when
    · intro _
      apply bind_request
      intro entries hentries _
      have hdir' := hdir.chain (chain_clock (env.delay s₁.tick))
      apply Obeys.bind (obeys_takeEntries hdir' (henv _ _ _ hentries))
      exact fun _ _ _ _ _ => obeys_setSynced
    · exact fun _ _ => trivial
  · apply bind_directory
    intro _
    apply Obeys.bind_state
    exact Obeys.pure fun _ => trivial

theorem obeys_getattr (hvalid : ∀ name ∈ path, ValidName name) :
    (getattr env path).Obeys ctx.discipline s fun _ _ => True := by
  apply Obeys.bind (obeys_traverseOrBuild hvalid)
  intro n s₁ _ _ _
  apply bind_deref
  intro node hnode
  split
  · exact Obeys.fail
  · exact Obeys.pure fun _ => trivial

theorem obeys_readlink (hvalid : ∀ name ∈ path, ValidName name) :
    (readlink env path).Obeys ctx.discipline s fun _ _ => True := by
  apply Obeys.bind (obeys_traverseOrBuild hvalid)
  intro n s₁ _ _ _
  apply bind_deref
  intro node hnode
  apply Obeys.bind_ofExcept
  intro target htarget
  split
  · exact Obeys.pure fun _ => trivial
  · apply bind_request
    intro target' _ _
    exact bind_edit trivial (.inl trivial) fun _ => Obeys.pure fun _ => trivial

theorem obeys_vacancy : (vacancy n name).Obeys ctx.discipline s
    fun _ s' => s' = s := by
  apply bind_asDirectory
  intro _
  split
  · exact Obeys.pure fun _ => rfl
  · apply bind_deref
    intro node hnode
    exact Obeys.bind_require fun _ => Obeys.pure fun _ => rfl

/-- `mknod` and `mkdir` after their lookups. -/
theorem obeys_createAt {req : Req Unit} {file : File} {parent : Id}
    {overwrite : Bool} (hfile : file.children = [])
    (hparent : s.Reached ctx parent) (hvalid : ValidName path.filename)
    (hcreating : ∀ stat, env.answer s.tick req = .ok () →
      env.answer (s.tick + 1) (.stat path) = .ok stat → ctx.creating)
    (hextra : ∀ (s' : FileTree) (stat : Stat),
      env.answer s.tick req = .ok () →
      env.answer (s.tick + 1) (.stat path) = .ok stat →
      ctx.extra s' (.alloc ⟨s'.nextId + 1⟩
        (Node.create path.filename (some parent) stat file))) :
    (createAt env req file parent path overwrite).Obeys ctx.discipline s
      fun _ _ => True := by
  apply bind_request_outcome
  intro _
  cases hanswer : env.answer s.tick req with
  | error err =>
      exact Obeys.bind obeys_refreshStat fun _ _ _ _ _ => Obeys.fail
  | ok _ =>
      apply bind_request
      intro stat hstat _
      apply bind_alloc hfile hparent.inside (.inr (hextra _ stat hanswer hstat))
      intro s₁ hs₁ hgood₁ hheld
      apply Obeys.bind (obeys_insert hheld rfl hvalid hparent.inside
        (.inl (hcreating stat hanswer hstat)))
      intro old s₂ _ _ hold
      cases old with
      | none => exact Obeys.pure fun _ => trivial
      | some old =>
          obtain ⟨node, hheld', -⟩ := hold old rfl
          apply Obeys.bind (obeys_destroy hheld')
          exact fun _ _ _ _ _ => Obeys.pure fun _ => trivial

theorem obeys_mknod {mode dev : Nat} (hne : path ≠ [])
    (hvalid : ∀ name ∈ path, ValidName name)
    (hcreating : ∀ t stat, env.answer t (.mknod path mode dev) = .ok () →
      env.answer (t + 1) (.stat path) = .ok stat → ctx.creating)
    (hextra : ∀ (s' : FileTree) (n : Id) (node : Node) (t : Nat),
      node.expiration = none → node.file = .create .regular →
      env.answer t (.mknod path mode dev) = .ok () →
      env.answer (t + 1) (.stat path) = .ok node.stat →
      ctx.extra s' (.alloc n node)) :
    (mknod env path mode dev).Obeys ctx.discipline s fun _ _ => True := by
  apply Obeys.bind (obeys_traverseOrBuild (valid_parentPath hvalid))
  intro parent s₁ _ _ hparent
  apply Obeys.bind obeys_vacancy
  rintro overwrite s₂ _ _ rfl
  exact obeys_createAt rfl hparent (valid_filename hne hvalid) (hcreating _)
    fun s' stat hmade hstat => hextra s' _ _ _ rfl rfl hmade hstat

theorem obeys_mkdir {mode : Nat} (hne : path ≠ [])
    (hvalid : ∀ name ∈ path, ValidName name)
    (hcreating : ∀ t stat, env.answer t (.mkdir path mode) = .ok () →
      env.answer (t + 1) (.stat path) = .ok stat → ctx.creating)
    (hextra : ∀ (s' : FileTree) (n : Id) (node : Node) (t : Nat),
      node.expiration = none → node.file = .create .directory →
      env.answer t (.mkdir path mode) = .ok () →
      env.answer (t + 1) (.stat path) = .ok node.stat →
      ctx.extra s' (.alloc n node)) :
    (mkdir env path mode).Obeys ctx.discipline s fun _ _ => True := by
  apply Obeys.bind (obeys_traverseOrBuild (valid_parentPath hvalid))
  intro parent s₁ _ _ hparent
  apply Obeys.bind obeys_vacancy
  rintro overwrite s₂ _ _ rfl
  exact obeys_createAt rfl hparent (valid_filename hne hvalid) (hcreating _)
    fun s' stat hmade hstat => hextra s' _ _ _ rfl rfl hmade hstat

/-- `unlink` after its lookups. -/
theorem obeys_unlinkAt {parent : Id} (hparent : s.Reached ctx parent)
    (hmem : (path.filename, n) ∈ s.children parent) :
    (unlinkAt env parent n path).Obeys ctx.discipline s fun _ _ => True := by
  intro h
  obtain ⟨node, hheld, hname, hplace⟩ := h.held_detach hmem hparent.inside
  have hdetach : s.Permits ctx (.detach parent path.filename) := trivial
  have htimely := (h.timely hmem).apply
    (h.reached_child hparent.inside hmem).known hdetach
  refine bind_edit hdetach (.inl trivial) (fun hgood₁ => ?_) h
  apply bind_request_outcome
  intro _
  set s₁ := s.apply (.detach parent path.filename)
  have hheld' : (s₁.apply (.clock (env.delay s₁.tick))).Held ctx n node :=
    hheld.congr rfl rfl
  have htimely' := htimely.apply (hheld.known hgood₁.wf)
    (e := .clock (env.delay s₁.tick)) (by exact trivial)
  cases hanswer : env.answer s₁.tick (.unlink path) with
  | error err =>
      apply Obeys.bind (obeys_insert hheld' hplace
        (by rw [hname]; exact h.wf.valid hmem) hparent.inside htimely')
      intro _ _ _ _ _
      exact Obeys.bind obeys_refreshStat fun _ _ _ _ _ => Obeys.fail
  | ok _ =>
      refine bind_edit (by exact trivial) (.inl (by exact trivial)) fun _ => ?_
      apply Obeys.bind obeys_invalidateOne
      intro _ s₂ _ _ hs₂
      exact obeys_destroy (hheld'.congr hs₂.1 hs₂.2)

theorem obeys_unlink (hvalid : ∀ name ∈ path, ValidName name) :
    (unlink env path).Obeys ctx.discipline s fun _ _ => True := by
  apply Obeys.bind (obeys_traverseOrBuild (valid_parentPath hvalid))
  intro parent s₁ _ _ hparent
  apply bind_traverseNode
  intro n hmem
  apply bind_deref
  intro node hnode
  exact Obeys.bind_require fun _ => obeys_unlinkAt hparent hmem

theorem obeys_rmdir (hvalid : ∀ name ∈ path, ValidName name) :
    (rmdir env path).Obeys ctx.discipline s fun _ _ => True := by
  apply Obeys.bind (obeys_traverseOrBuild (valid_parentPath hvalid))
  intro parent s₁ _ _ hparent
  apply bind_traverseNode
  intro n hmem
  apply bind_asDirectory
  intro _
  apply Obeys.bind_state
  refine Obeys.bind_require fun _ => ?_
  apply bind_request
  intro _ _ _
  apply Obeys.bind obeys_refreshStat
  intro _ s₂ _ _ _
  apply Obeys.bind (obeys_extract hparent.inside)
  intro r s₃ _ _ hr
  cases r with
  | none => exact Obeys.pure fun _ => trivial
  | some m =>
      obtain ⟨node, hheld, -⟩ := hr m rfl
      exact obeys_destroy hheld

theorem obeys_cacheRename : (cacheRename n path).Obeys ctx.discipline s
    fun _ s' => s'.nodes = s.nodes ∧ s'.root = s.root ∧ s'.ttl = s.ttl := by
  apply Obeys.bind_state
  split
  · exact Obeys.pure fun _ => ⟨rfl, rfl, rfl⟩
  · exact obeys_edit trivial (.inl trivial) fun _ => ⟨rfl, rfl, rfl⟩

/-- A node in hand gets its new place. -/
theorem obeys_moveTo {node : Node} (hheld : s.Held ctx n node)
    (htimely : s.Timely ctx n) (hdir : ctx.inside dir) :
    (moveTo n dir path).Obeys ctx.discipline s fun _ s' =>
      ∃ node', s'.Held ctx n node' ∧ s'.Timely ctx n ∧
        node'.name = path.filename ∧ node'.parent = some dir := by
  apply Obeys.bind obeys_cacheRename
  rintro _ s₁ hgood₁ _ ⟨hnodes, hroot, httl⟩
  have hheld₁ : s₁.Held ctx n node := hheld.congr hnodes hroot
  have htimely₁ : s₁.Timely ctx n := by
    rcases htimely with hcreating | hold | hset
    · exact .inl hcreating
    · exact .inr (.inl hold)
    · refine .inr (.inr ?_)
      unfold TimeSet
      rw [httl, hnodes]
      exact hset
  have hname : s₁.Permits ctx (.setName n path.filename) :=
    ⟨hheld₁.ne_root, hheld₁.unlisted⟩
  refine bind_edit hname (.inl trivial) fun hgood₂ => ?_
  set s₂ := s₁.apply (.setName n path.filename) with hs₂
  have hheld₂ : s₂.Held ctx n { node with name := path.filename } := by
    refine ⟨?_, ?_, hheld₁.ne_root, hheld.inside⟩
    · rw [hs₂, FileTree.apply, nodes_modify, if_pos rfl, hheld₁.node]
      rfl
    · intro d nm hmem
      rw [hs₂, children_setName] at hmem
      exact hheld₁.unlisted d nm hmem
  have htimely₂ : s₂.Timely ctx n :=
    htimely₁.apply (hheld₁.known hgood₁.wf) hname
  have hparent : s₂.Permits ctx (.setParent n dir) :=
    ⟨hheld₂.ne_root, hheld₂.unlisted, hdir⟩
  refine obeys_edit hparent (.inl trivial) fun hgood₃ => ?_
  refine ⟨{ node with name := path.filename, parent := some dir },
    ⟨?_, ?_, hheld₂.ne_root, hheld.inside⟩,
    htimely₂.apply (hheld₂.known hgood₂.wf) hparent, rfl, rfl⟩
  · rw [FileTree.apply, nodes_modify, if_pos rfl, hheld₂.node]
    rfl
  · intro d nm hmem
    rw [children_setParent] at hmem
    exact hheld₂.unlisted d nm hmem

/-- `rename` after its lookups. -/
theorem obeys_renameAt {fromParent toParent : Id} {source target : Path}
    {flags : Nat} (hfrom : ctx.inside fromParent) (hto : ctx.inside toParent)
    (hsource : ValidName source.filename) (htarget : ValidName target.filename) :
    (renameAt env fromParent toParent source target flags).Obeys
      ctx.discipline s fun _ _ => True := by
  apply bind_request
  intro _ _ _
  apply Obeys.bind obeys_refreshStat
  intro _ s₁ _ _ _
  apply Obeys.bind obeys_refreshStat
  intro _ s₂ _ _ _
  apply Obeys.bind (obeys_extract hfrom)
  intro r s₃ _ _ hr
  cases r with
  | none => exact Obeys.fail
  | some n =>
      obtain ⟨node, hheld, htimely⟩ := hr n rfl
      apply Obeys.bind (obeys_moveTo hheld htimely hto)
      rintro _ s₄ _ _ ⟨node', hheld', htimely', hname, hplace⟩
      apply Obeys.bind (obeys_insert hheld' hplace (by rw [hname]; exact htarget)
        hto htimely')
      intro overwritten s₅ _ _ hover
      split_ifs
      · cases overwritten with
        | none => exact Obeys.wrong
        | some old =>
            obtain ⟨onode, hold, hotimely⟩ := hover old rfl
            apply Obeys.bind (obeys_moveTo hold hotimely hfrom)
            rintro _ s₆ _ _ ⟨onode', hold', hotimely', honame, hoplace⟩
            apply Obeys.bind (obeys_insert hold' hoplace
              (by rw [honame]; exact hsource) hfrom hotimely')
            exact fun _ _ _ _ _ => Obeys.pure fun _ => trivial
      · cases overwritten with
        | none => exact Obeys.pure fun _ => trivial
        | some old =>
            obtain ⟨onode, hold, -⟩ := hover old rfl
            apply Obeys.bind obeys_invalidateOne
            intro _ s₆ _ _ hs₆
            refine bind_edit (by exact trivial) (.inl (by exact trivial))
              fun _ => ?_
            exact obeys_destroy ((hold.congr hs₆.1 hs₆.2).congr rfl rfl)

theorem obeys_renameCheck {target : Path} {flags : Nat}
    (hvalid : ∀ name ∈ target, ValidName name) :
    (renameCheck env target flags).Obeys ctx.discipline s fun _ _ => True := by
  unfold renameCheck
  split_ifs
  · apply Obeys.bind (obeys_traverseOrBuild hvalid)
    intro n s₁ _ _ _
    apply bind_deref
    intro node hnode
    split
    · exact Obeys.fail
    · exact Obeys.pure fun _ => trivial
  · refine Obeys.bind (Q := fun _ _ => True) ?_ ?_
    · apply Obeys.outcome
      · exact (obeys_traverseOrBuild hvalid).mono fun _ _ _ _ => trivial
      · exact fun _ _ _ _ => trivial
    · intro r s₁ _ _ _
      cases r with
      | error err => exact Obeys.pure fun _ => trivial
      | ok n =>
          apply bind_deref
          intro node hnode
          unfold Program.require
          split_ifs
          · exact Obeys.pure fun _ => trivial
          · exact Obeys.fail
  · exact Obeys.pure fun _ => trivial

theorem obeys_rename {source target : Path} {flags : Nat} (hne : target ≠ [])
    (hsource : ∀ name ∈ source, ValidName name)
    (htarget : ∀ name ∈ target, ValidName name) :
    (rename env source target flags).Obeys ctx.discipline s
      fun _ _ => True := by
  apply Obeys.bind_require
  intro hnonempty
  apply Obeys.bind (obeys_traverseOrBuild hsource)
  intro n s₁ _ _ hn
  unfold parentOf
  simp only [bind_assoc]
  apply bind_deref
  intro node hnode
  cases hplace : node.parent with
  | none => exact fun _ => Sat.bind Sat.wrong
  | some fromParent =>
      intro h
      have hfrom : ctx.inside fromParent :=
        h.above hn.inside (label_eq_some.mpr ⟨node, hnode, rfl, hplace⟩)
      refine Obeys.bind (Q := fun a s' => a = fromParent ∧ s' = s₁)
        (Obeys.pure fun _ => ⟨rfl, rfl⟩) ?_ h
      rintro _ _ _ _ ⟨rfl, rfl⟩
      apply Obeys.bind (obeys_traverseOrBuild (valid_parentPath htarget))
      intro toParent s₂ _ _ hto
      apply bind_asDirectory
      intro _
      apply Obeys.bind (obeys_renameCheck htarget)
      intro _ s₃ _ _ _
      refine obeys_renameAt hfrom hto.inside (valid_filename ?_ hsource)
        (valid_filename hne htarget)
      rintro rfl
      cases hnonempty

theorem obeys_utimens {atime mtime : Timespec}
    (hvalid : ∀ name ∈ path, ValidName name)
    (hextra : ∀ (s₁ s' : FileTree) (n : Id) (stat : Stat),
      traverseOrBuild env path s = some (.ok n, s₁) → s'.nodes = s₁.nodes →
      env.answer (s₁.tick + 1) (.stat path) = .ok stat →
      ctx.extra s' (.setStat n stat)) :
    (utimens env path atime mtime).Obeys ctx.discipline s
      fun _ _ => True := by
  intro h r s' hrun
  rcases bind_cases hrun with ⟨err, hlookup, rfl⟩ | ⟨n, s₁, hlookup, hrest⟩
  · exact ⟨(obeys_traverseOrBuild hvalid h _ _ hlookup).1,
      fun _ _ => trivial⟩
  · have hchain := (obeys_traverseOrBuild hvalid h _ _ hlookup).1
    have hobeys : (do
        request env (.utimens path atime mtime)
        let stat ← request env (.stat path)
        setStat n stat : Fs Unit).Obeys ctx.discipline s₁ fun _ _ => True := by
      apply bind_request
      intro _ _ _
      apply bind_request
      intro stat hstat _
      apply bind_deref
      intro node hnode
      exact obeys_edit trivial (.inr (hextra s₁ _ n stat hlookup rfl hstat))
        fun _ => trivial
    obtain ⟨hchain', hval⟩ := hobeys (hchain.good h) r s' hrest
    exact ⟨hchain.trans hchain', hval⟩

theorem obeys_request {β : Type} {req : Req β} :
    (request env req).Obeys ctx.discipline s fun _ _ => True := by
  apply Obeys.bind_state
  refine bind_edit (by exact trivial) (.inl (by exact trivial)) fun _ => ?_
  exact Obeys.ofExcept fun _ _ _ => trivial

theorem obeys_serve {req : CacheReq} {c : Cache} :
    (serve env req c).Obeys ctx.discipline s fun _ _ => True := by
  apply Obeys.bind_state
  refine bind_edit (by exact trivial) (.inl (by exact trivial)) fun _ => ?_
  refine bind_edit (by exact trivial) (.inl (by exact trivial)) fun _ => ?_
  exact Obeys.ofExcept fun _ _ _ => trivial

theorem obeys_setSize {size : Int} :
    (setSize n size).Obeys ctx.discipline s fun _ _ => True := by
  apply bind_deref
  intro node hnode
  refine obeys_edit trivial (.inl ?_) fun _ => trivial
  intro node' hnode'
  cases hnode.symm.trans hnode'
  rfl

theorem obeys_truncate {size : Int} (hvalid : ∀ name ∈ path, ValidName name) :
    (truncate env path size).Obeys ctx.discipline s fun _ _ => True := by
  apply Obeys.bind (obeys_traverseOrBuild hvalid)
  intro n s₁ _ _ _
  apply bind_deref
  intro node hnode
  apply Obeys.bind_ofExcept
  intro dirty hdirty
  apply bind_request
  intro _ _ _
  refine Obeys.bind (Q := fun _ _ => True) ?_ fun _ s₂ _ _ _ => ?_
  · apply Obeys.bind_state
    split
    · exact Obeys.pure fun _ => trivial
    · refine Obeys.bind (Q := fun _ _ => True) ?_ fun _ _ _ _ _ =>
        Obeys.pure fun _ => trivial
      exact Obeys.outcome obeys_serve fun _ _ _ _ => trivial
  · exact Obeys.bind obeys_setSize fun _ _ _ _ _ => obeys_refreshStat

theorem obeys_open {flags : Nat} (hvalid : ∀ name ∈ path, ValidName name)
    (hextra : ∀ (s₁ s' : FileTree) (n : Id) (handle : FileHandle),
      traverseOrBuild env path s = some (.ok n, s₁) →
      s'.handles = s₁.handles → handle.node = some n →
      ctx.extra s' (.store handle)) :
    («open» env path flags).Obeys ctx.discipline s fun _ _ => True := by
  intro h r s' hrun
  rcases bind_cases hrun with ⟨err, hlookup, rfl⟩ | ⟨n, s₁, hlookup, hrest⟩
  · exact ⟨(obeys_traverseOrBuild hvalid h _ _ hlookup).1,
      fun _ _ => trivial⟩
  · have hchain := (obeys_traverseOrBuild hvalid h _ _ hlookup).1
    have hstore : ∀ (t : FileTree) (mode : OpenMode) (realFd : Fd),
        t.handles = s₁.handles →
        (storeHandle n mode realFd).Obeys ctx.discipline t
          fun _ _ => True := by
      intro t mode realFd ht
      apply Obeys.bind_state
      exact bind_edit trivial (.inr (hextra s₁ t n _ hlookup ht rfl))
        fun _ => Obeys.pure fun _ => trivial
    have hobeys : (openAt env n path flags).Obeys ctx.discipline s₁
        fun _ _ => True := by
      apply bind_deref
      intro node hnode
      apply Obeys.bind_ofExcept
      intro dirty hdirty
      apply Obeys.bind_state
      split
      · refine bind_edit (by exact trivial) (.inl (by exact trivial))
          fun _ => ?_
        apply Obeys.bind_ofExcept
        intro _ _
        exact hstore _ _ _ rfl
      · apply bind_request
        intro realFd _ _
        exact hstore _ _ _ rfl
    obtain ⟨hchain', hval⟩ := hobeys (hchain.good h) r s' hrest
    exact ⟨hchain.trans hchain', hval⟩

theorem bind_found {handle : Option FileHandle} {f : FileHandle → Fs α}
    {Q : α → FileTree → Prop}
    (hf : ∀ h, handle = some h → (f h).Obeys ctx.discipline s Q) :
    (found handle >>= f).Obeys ctx.discipline s Q := by
  cases handle with
  | none => exact fun _ => Sat.bind (Sat.fail fun _ => ⟨.refl _, fun _ h => by cases h⟩)
  | some handle => exact hf handle rfl

theorem bind_handleNode {handle : FileHandle} {f : Id → Fs α}
    {Q : α → FileTree → Prop}
    (hf : ∀ n, handle.node = some n → (f n).Obeys ctx.discipline s Q) :
    (handleNode handle >>= f).Obeys ctx.discipline s Q := by
  unfold handleNode
  split
  · next n hn => exact hf n hn
  · exact fun _ => Sat.bind Sat.wrong

theorem obeys_transfer {cached : CacheReq} {direct : Req Nat} :
    (transfer env cached direct).Obeys ctx.discipline s fun _ _ => True := by
  apply Obeys.bind_state
  split
  · exact obeys_serve
  · exact obeys_request

theorem obeys_readThrough {handle : FileHandle} {len : Nat} {offset : Int} :
    (readThrough env handle len offset).Obeys ctx.discipline s
      fun _ _ => True := by
  apply Obeys.bind_state
  split
  · apply bind_handleNode
    intro n _
    apply bind_deref
    exact fun _ _ => obeys_serve
  · exact obeys_request

theorem obeys_read {fd len : Nat} {offset : Int} :
    (read env fd len offset).Obeys ctx.discipline s fun _ _ => True := by
  apply Obeys.bind_state
  apply bind_found
  intro handle _
  apply Obeys.bind obeys_readThrough
  intro count s₁ _ _ _
  apply bind_handleNode
  intro n _
  apply Obeys.bind obeys_refreshStat
  exact fun _ _ _ _ _ => Obeys.pure fun _ => trivial

theorem bind_openFile {f : Bool → Fs α} {Q : α → FileTree → Prop}
    (hf : ∀ dirty, (f dirty).Obeys ctx.discipline s Q) :
    (openFile n >>= f).Obeys ctx.discipline s Q := by
  unfold openFile
  simp only [bind_assoc]
  apply bind_deref
  intro node _
  split
  · exact hf _
  · exact fun _ => Sat.bind (Sat.fail fun _ => ⟨.refl _, fun _ h => by cases h⟩)

theorem obeys_write {fd : Nat} {input : List Byte} {offset : Int} :
    (write env fd input offset).Obeys ctx.discipline s fun _ _ => True := by
  apply Obeys.bind_state
  apply bind_found
  intro handle _
  apply bind_handleNode
  intro n _
  apply bind_openFile
  intro dirty
  apply Obeys.bind obeys_transfer
  intro count s₁ _ _ _
  apply bind_deref
  intro node _
  apply Obeys.bind obeys_setSize
  intro _ s₂ _ _ _
  apply Obeys.bind obeys_refreshStat
  intro _ s₃ _ _ _
  exact bind_edit trivial (.inl trivial) fun _ => Obeys.pure fun _ => trivial

theorem obeys_flushDirty :
    (flushDirty env n).Obeys ctx.discipline s fun _ _ => True := by
  apply Obeys.bind_state
  split
  · apply Obeys.bind obeys_serve
    intro _ s₁ _ _ _
    apply Obeys.bind obeys_refreshStat
    exact fun _ _ _ _ _ => obeys_edit trivial (.inl trivial) fun _ => trivial
  · exact obeys_edit trivial (.inl trivial) fun _ => trivial

theorem obeys_flush {fd : Nat} :
    (flush env fd).Obeys ctx.discipline s fun _ _ => True := by
  apply Obeys.bind_state
  apply bind_found
  intro handle _
  apply bind_handleNode
  intro n _
  apply bind_openFile
  intro dirty
  exact Obeys.when (fun _ => obeys_flushDirty) fun _ _ => trivial

theorem obeys_release {fd : Nat} (hextra : ctx.extra s (.release fd)) :
    (release env fd).Obeys ctx.discipline s fun _ _ => True := by
  apply Obeys.bind_state
  refine bind_edit (by exact trivial) (.inr hextra) fun _ => ?_
  apply bind_found
  intro handle _
  apply bind_handleNode
  intro n _
  apply bind_openFile
  intro dirty
  refine Obeys.bind (Q := fun _ _ => True)
    (Obeys.when (fun _ => obeys_flushDirty) fun _ _ => trivial)
    fun _ s₁ _ _ _ => ?_
  apply Obeys.bind_state
  split
  · refine bind_edit (by exact trivial) (.inl (by exact trivial)) fun _ => ?_
    exact Obeys.ofExcept fun _ _ _ => trivial
  · exact obeys_request

/-- A traversal leaves the state as it is. -/
theorem traverseFrom_cases {current : Id} {r : Except Errc Id} {s' : FileTree}
    (hrun : traverseFrom current path s = some (r, s')) : s' = s ∧
      ∀ n, r = .ok n → path.foldlM s.child current = some n := by
  induction path generalizing current with
  | nil =>
      cases hrun
      refine ⟨rfl, fun n hn => ?_⟩
      cases hn
      rfl
  | cons name rest ih =>
      rcases bind_cases hrun with ⟨err, hnode, rfl⟩ | ⟨c, s₁, hnode, hrest⟩
      · exact ⟨(traverseNode_cases hnode).1, fun _ h => by cases h⟩
      · obtain ⟨rfl, hlookup⟩ := traverseNode_cases hnode
        obtain ⟨rfl, hfound⟩ := ih hrest
        refine ⟨rfl, fun n hn => ?_⟩
        have hchild : s'.child current name = some c := by
          have hc := hlookup c rfl
          unfold FileTree.children at hc
          unfold FileTree.child Node.find
          cases hcurrent : s'.nodes current with
          | none =>
              rw [hcurrent] at hc
              cases hc
          | some node =>
              rw [hcurrent] at hc
              exact hc
        rw [List.foldlM_cons, hchild]
        exact hfound n hn

theorem traverse_cases {r : Except Errc Id} {s' : FileTree}
    (hrun : traverse path s = some (r, s')) :
    s' = s ∧ ∀ n, r = .ok n → s.resolve path = some n :=
  traverseFrom_cases hrun

/-- A node that a path leads to can be worked on. -/
theorem reached_foldlM {current : Id} (h : s.Good ctx)
    (hcurrent : s.Reached ctx current)
    (hresolve : path.foldlM s.child current = some n) : s.Reached ctx n := by
  induction path generalizing current with
  | nil =>
      cases hresolve
      exact hcurrent
  | cons name rest ih =>
      rw [List.foldlM_cons] at hresolve
      obtain ⟨c, hc, hrest⟩ := Option.bind_eq_some_iff.mp hresolve
      obtain ⟨node, hnode, hfind⟩ := Option.bind_eq_some_iff.mp hc
      have hlookup : (s.children current).lookup name = some c := by
        rw [children_of_nodes hnode]
        exact hfind
      exact ih (h.reached_child hcurrent.inside (h.wf.lookup_iff.mp hlookup))
        hrest

theorem Good.reached_root (h : s.Good ctx) : s.Reached ctx s.root := by
  obtain ⟨node, hnode, -⟩ := h.wf.root
  exact ⟨h.root, h.wf.known hnode⟩

theorem obeys_traverse : (traverse path).Obeys ctx.discipline s
    fun n s' => s'.Reached ctx n ∧ s.resolve path = some n ∧ s' = s := by
  intro h r s' hrun
  obtain ⟨rfl, hresolve⟩ := traverse_cases hrun
  refine ⟨.refl _, fun n hn => ⟨?_, hresolve n hn, rfl⟩⟩
  exact reached_foldlM h (Good.reached_root h) (hresolve n hn)

theorem obeys_copyLookup {inPath outPath : Path} {inFd outFd : Nat} :
    (copyLookup env inPath inFd outPath outFd).Obeys ctx.discipline s
      fun _ _ => True := by
  refine Obeys.bind (Q := fun _ _ => True)
    (Obeys.outcome obeys_flush fun _ _ _ _ => trivial) fun _ _ _ _ _ => ?_
  refine Obeys.bind (Q := fun _ _ => True)
    (Obeys.outcome obeys_flush fun _ _ _ _ => trivial) fun _ _ _ _ _ => ?_
  apply Obeys.bind obeys_traverse
  intro inNode _ _ _ _
  apply Obeys.bind obeys_traverse
  exact fun _ _ _ _ _ => Obeys.pure fun _ => trivial

/-- What `refresh_stat` leaves of a node. -/
theorem refreshStat_node {atime mtime : TimeArg} {s' : FileTree}
    {r : Except Errc Unit} (hrun : refreshStat env m atime mtime s = some (r, s')) :
    s'.tick = s.tick ∧ ∀ n node, s'.nodes n = some node →
      ∃ old, s.nodes n = some old ∧ old.file = node.file ∧
        old.stat.mode = node.stat.mode := by
  obtain ⟨mnode, hm, -, rfl⟩ := refreshStat_cases hrun
  refine ⟨rfl, fun n node hnode => ?_⟩
  rw [FileTree.apply, nodes_modify] at hnode
  split_ifs at hnode with heq
  · subst heq
    rw [hm] at hnode
    cases hnode
    exact ⟨mnode, hm, rfl, rfl⟩
  · exact ⟨node, hnode, rfl, rfl⟩

theorem obeys_copyFileRange {inPath outPath : Path} {inFd outFd : Nat}
    {inOff outOff : Int} {size : Nat}
    (hextra : ∀ (s₁ s' : FileTree) (inNode n : Id) (stat : Stat),
      copyLookup env inPath inFd outPath outFd s = some (.ok (inNode, n), s₁) →
      (∀ node, s'.nodes n = some node → ∃ old, s₁.nodes n = some old ∧
        old.file = node.file ∧ old.stat.mode = node.stat.mode) →
      env.answer (s₁.tick + 1) (.stat outPath) = .ok stat →
      ctx.extra s' (.setStat n stat)) :
    (copyFileRange env inPath inFd inOff outPath outFd outOff size).Obeys
      ctx.discipline s fun _ _ => True := by
  intro h r s' hrun
  rcases bind_cases hrun with
    ⟨err, hlookup, rfl⟩ | ⟨⟨inNode, outNode⟩, s₁, hlookup, hrest⟩
  · exact ⟨(obeys_copyLookup h _ _ hlookup).1, fun _ _ => trivial⟩
  · have hchain := (obeys_copyLookup h _ _ hlookup).1
    have hobeys : (do
        let copied ← request env
          (.copyFileRange inPath inOff outPath outOff size)
        let stat ← request env (.stat outPath)
        refreshStat env inNode .now .omit
        setStat outNode stat
        return copied : Fs Nat).Obeys ctx.discipline s₁ fun _ _ => True := by
      apply bind_request
      intro copied _ _
      apply bind_request
      intro stat hstat hgood h₂ r s' hrun
      rcases bind_cases hrun with ⟨err, hrefresh, rfl⟩ | ⟨_, s₂, hrefresh, hrest⟩
      · exact ⟨(obeys_refreshStat h₂ _ _ hrefresh).1, fun _ _ => trivial⟩
      · have hchain₂ := (obeys_refreshStat h₂ _ _ hrefresh).1
        have hnodes := (refreshStat_node hrefresh).2 outNode
        have hobeys : (do
            setStat outNode stat
            return copied : Fs Nat).Obeys ctx.discipline s₂
              fun _ _ => True := by
          unfold setStat
          simp only [bind_assoc]
          apply bind_deref
          intro node hnode
          exact bind_edit trivial
            (.inr (hextra s₁ s₂ inNode outNode stat hlookup hnodes hstat))
            fun _ => Obeys.pure fun _ => trivial
        obtain ⟨hchain₃, hval⟩ := hobeys (hchain₂.good h₂) r s' hrest
        exact ⟨hchain₂.trans hchain₃, hval⟩
    obtain ⟨hchain', hval⟩ := hobeys (hchain.good h) r s' hrest
    exact ⟨hchain.trans hchain', hval⟩

theorem obeys_symlink {target : String} (hne : path ≠ [])
    (hvalid : ∀ name ∈ path, ValidName name)
    (hcreating : ∀ parent, s.resolve path.parentPath = some parent →
      (s.children parent).lookup path.filename = none → ctx.creating) :
    (symlink env path target).Obeys ctx.discipline s fun _ _ => True := by
  apply Obeys.bind obeys_traverse
  rintro parent s₁ _ _ ⟨hparent, hresolve, rfl⟩
  apply bind_asDirectory
  intro _
  apply Obeys.bind_require
  intro hnone
  have hcreating' := hcreating parent hresolve (Option.isNone_iff_eq_none.mp hnone)
  apply Obeys.bind_state
  refine bind_alloc rfl hparent.inside
    (.inl ⟨rfl, .inr (by exact (by decide : some FileType.link =
      some (fileType symlinkMode)))⟩) ?_
  intro s₂ _ _ hheld
  apply Obeys.bind (obeys_insert hheld rfl (valid_filename hne hvalid)
    hparent.inside (.inl hcreating'))
  exact fun _ _ _ _ _ => Obeys.pure fun _ => trivial

theorem obeys_initializeRoot
    (hextra : ∀ (s' : FileTree) (stat : Stat), s'.root = s.root →
      ctx.extra s' (.setStat s.root stat)) :
    (initializeRoot env).Obeys ctx.discipline s fun _ _ => True := by
  apply Obeys.bind_state
  apply Obeys.when
  · intro _
    refine bind_edit (by exact trivial) (.inl (by exact trivial)) fun _ => ?_
    apply bind_request
    intro stat _ _
    apply bind_deref
    intro node _
    exact obeys_edit trivial (.inr (hextra _ stat rfl)) fun _ => trivial
  · exact fun _ _ => trivial

theorem obeys_setTtl {ttl : Option Nat} (hbase : s.nextId = ctx.base)
    (hextra : ctx.extra s (.setTtl ttl (s.walk s.root))) :
    (setTtl ttl).Obeys ctx.discipline s fun _ _ => True := by
  apply Obeys.bind_state
  apply Obeys.when
  · exact fun _ => obeys_edit hbase (.inr hextra) fun _ => trivial
  · exact fun _ _ => trivial

theorem obeys_expiresAll (hbase : s.nextId = ctx.base)
    (hextra : ctx.extra s (.expireAll (s.walk s.root) (some s.now))) :
    expiresAll.Obeys ctx.discipline s fun _ _ => True := by
  apply Obeys.bind_state
  exact obeys_edit hbase (.inr hextra) fun _ => trivial

theorem obeys_shutdown :
    (shutdown env).Obeys ctx.discipline s fun _ _ => True := by
  apply Obeys.bind_state
  split
  · refine Obeys.bind (Q := fun _ _ => True)
      (Obeys.outcome obeys_serve fun _ _ _ _ => trivial) fun _ _ _ _ _ => ?_
    exact Obeys.pure fun _ => trivial
  · exact Obeys.pure fun _ => trivial

end Fs

end Madbfs
