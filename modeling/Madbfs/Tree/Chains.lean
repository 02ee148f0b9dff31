/-
The operations are chains of permitted changes: first the helpers, then the
lookup of a path, then the operations.
-/
import Madbfs.Tree.Edits

namespace Madbfs

namespace FileTree

variable {ctx : Ctx} {s s' : FileTree} {n m dir : Id} {name : Name} {e : Edit}

/-- A node gets its expiration before or after it is listed. -/
theorem attach_expire (hne : n ≠ dir) (time : Option Nat) :
    (s.apply (.attach dir n)).apply (.expire n time) =
      (s.apply (.expire n time)).apply (.attach dir n) := by
  simp only [apply, attach, modify]
  cases hnode : s.nodes n with
  | none => simp [hnode]
  | some node =>
      simp only [Function.update_self, Function.update_of_ne hne,
        Function.update_of_ne hne.symm, Option.map_some, hnode]
      rw [Function.update_comm hne]

theorem setStat_convert (stat : Stat) (file : File) :
    (s.apply (.setStat n stat)).apply (.convert n stat file) =
      s.apply (.convert n stat file) := by
  simp only [apply, modify, Function.update_self, Function.update_idem]
  cases s.nodes n <;> rfl

theorem Held.detach {node : Node} (h : s.Held ctx n node) (dir : Id)
    (name : Name) : ∃ node', (s.apply (.detach dir name)).Held ctx n node' ∧
      node'.name = node.name ∧ node'.parent = node.parent := by
  have hlabel : (s.apply (.detach dir name)).label n =
      some (node.name, node.parent) := by
    rw [label_detach]
    exact label_eq h.node
  obtain ⟨node', hnode', hname, hparent⟩ := label_eq_some.mp hlabel
  refine ⟨node', ⟨hnode', ?_, ?_, h.inside⟩, hname, hparent⟩
  · intro dir' name' hmem
    rw [children_detach] at hmem
    split_ifs at hmem with heq
    · exact h.unlisted dir name' (List.mem_of_mem_filter hmem)
    · exact h.unlisted dir' name' hmem
  · rw [root_apply]
    exact h.ne_root

/-- A node in hand when another one is put into the tree. -/
theorem Held.attach {node : Node} (h : s.Held ctx n node)
    (hpermits : s.Permits ctx (.attach dir m)) (hne : n ≠ m) :
    ∃ node', (s.apply (.attach dir m)).Held ctx n node' ∧
      node'.name = node.name ∧ node'.parent = node.parent := by
  have hlabel : (s.apply (.attach dir m)).label n =
      some (node.name, node.parent) := by
    rw [label_attach]
    exact label_eq h.node
  obtain ⟨node', hnode', hname, hparent⟩ := label_eq_some.mp hlabel
  refine ⟨node', ⟨hnode', ?_, ?_, h.inside⟩, hname, hparent⟩
  · intro dir' name' hmem
    rcases children_apply hpermits hmem with hold | heq
    · exact h.unlisted dir' name' hold
    · cases heq
      exact hne rfl
  · rw [root_apply]
    exact h.ne_root

theorem Held.known {node : Node} (h : s.Held ctx n node) (hwf : s.WellFormed) :
    n.inner ≤ s.nextId :=
  hwf.known h.node

theorem deadline_attach : (s.apply (.attach dir n)).deadline = s.deadline := by
  simp only [apply, attach]
  split <;> rfl

/-- A new node is listed first and gets its expiration then. -/
theorem Held.chain_attach_expire {node : Node} (hheld : s.Held ctx n node)
    (hdir : s.isDir dir) (hparent : node.parent = some dir)
    (hvalid : ValidName node.name)
    (hname : node.name ∉ (s.children dir).map Prod.fst) (hne : n ≠ dir) :
    Chain ctx s ((s.apply (.attach dir n)).apply (.expire n s.deadline)) := by
  rw [attach_expire hne]
  have hshape : SameShape s (s.apply (.expire n s.deadline)) :=
    sameShape_apply rfl
  have hnode : (s.apply (.expire n s.deadline)).nodes n =
      some { node with expiration := s.deadline } := by
    simp only [apply, modify, Function.update_self, hheld.node]
    rfl
  have hattach : (s.apply (.expire n s.deadline)).Permits ctx
      (.attach dir n) := by
    refine ⟨hheld.inside, ?_, ⟨_, hnode, hparent, hvalid, ?_⟩, .inr (.inr ?_)⟩
    · exact (isDir_modify (by intro node; rfl)).trans hdir
    · rw [hshape.children]
      exact hname
    · intro httl node' hnode'
      cases hnode.symm.trans hnode'
      exact Option.isSome_map.trans httl
  have hexpire : s.Permits ctx (.expire n s.deadline) := rfl
  exact .step hexpire (.inl trivial) (.step hattach (.inl trivial) (.refl _))

end FileTree

namespace Fs

open Program FileTree

variable {ctx : Ctx} {s : FileTree} {n m dir : Id} {name : Name} {α : Type}
  {env : Env}

theorem obeys_destroy {node : Node} (hheld : s.Held ctx n node) :
    (destroy n).Obeys ctx.discipline s fun _ _ => True := by
  apply Obeys.bind_state
  intro h
  exact obeys_edit (hheld.permits_destroy h.wf) (.inl trivial)
    (fun _ => trivial) h

theorem bind_expiresAfter {f : Unit → Fs α} {Q : α → FileTree → Prop}
    (hf : (s.apply (.expire n s.deadline)).Good ctx →
      (f ()).Obeys ctx.discipline (s.apply (.expire n s.deadline)) Q) :
    (expiresAfter n >>= f).Obeys ctx.discipline s Q := by
  unfold expiresAfter
  simp only [bind_assoc]
  apply bind_deref
  intro node hnode
  apply Obeys.bind_state
  exact bind_edit rfl (.inl trivial) hf

theorem obeys_expiresAfter :
    (expiresAfter n).Obeys ctx.discipline s fun _ _ => True := by
  apply bind_deref
  intro node hnode
  apply Obeys.bind_state
  exact obeys_edit rfl (.inl trivial) fun _ => trivial

theorem bind_directory {f : List (Name × Id) → Fs α}
    {Q : α → FileTree → Prop}
    (hf : s.isDir dir → (f (s.children dir)).Obeys ctx.discipline s Q) :
    (directory dir >>= f).Obeys ctx.discipline s Q := by
  unfold directory
  simp only [bind_assoc]
  apply bind_deref
  intro node hnode
  split
  · next children synced hfile =>
    have hlist : s.children dir = children := by
      rw [children_of_nodes hnode, hfile]
      rfl
    have hdir : s.isDir dir :=
      isDir_iff.mpr ⟨node, hnode, by rw [hfile]; rfl⟩
    rw [← hlist]
    exact hf hdir
  · exact fun _ => Sat.bind Sat.wrong

theorem bind_asDirectory {f : List (Name × Id) → Fs α}
    {Q : α → FileTree → Prop}
    (hf : s.isDir dir → (f (s.children dir)).Obeys ctx.discipline s Q) :
    (asDirectory dir >>= f).Obeys ctx.discipline s Q := by
  unfold asDirectory
  simp only [bind_assoc]
  apply bind_deref
  intro node hnode
  apply Obeys.bind_ofExcept
  intro list hlist
  obtain ⟨synced, hfile⟩ := File.asDirectory_eq_ok hlist
  have hchildren : s.children dir = list := by
    rw [children_of_nodes hnode, hfile]
    rfl
  have hdir : s.isDir dir :=
    isDir_iff.mpr ⟨node, hnode, by rw [hfile]; rfl⟩
  rw [← hchildren]
  exact hf hdir

/-- `Directory::insert` of a node in hand.  The node it replaces is in hand
afterwards. -/
theorem obeys_insert {node : Node} {overwrite : Bool}
    (hheld : s.Held ctx n node) (hparent : node.parent = some dir)
    (hvalid : ValidName node.name) (hdir : ctx.inside dir)
    (htimely : s.Timely ctx n) :
    (insert dir n overwrite).Obeys ctx.discipline s fun r s' =>
      ∀ old, r = some old → ∃ node', s'.Held ctx old node' ∧
        s'.Timely ctx old := by
  intro h
  revert h
  apply bind_directory
  intro hisDir
  apply bind_deref
  intro node' hnode'
  cases hheld.node.symm.trans hnode'
  cases hlookup : (s.children dir).lookup node.name with
  | none =>
      refine bind_edit ⟨hheld.inside, hisDir, ⟨node, hnode', hparent, hvalid,
        lookup_eq_none_iff.mp hlookup⟩, htimely⟩ (.inl trivial) fun _ => ?_
      apply Obeys.pure
      intro _ old hold
      cases hold
  | some old =>
      cases overwrite with
      | false =>
          apply Obeys.bind (obeys_destroy hheld)
          intro _ _ _ _ _
          exact Obeys.fail
      | true =>
          intro h
          have hmem := h.wf.lookup_iff.mp hlookup
          have hne : old ≠ n := by
            rintro rfl
            exact hheld.unlisted dir node.name hmem
          obtain ⟨node₁, hheld₁, hname₁, hparent₁⟩ :=
            hheld.detach dir node.name
          obtain ⟨onode, hold, -, -⟩ := h.held_detach hmem hdir
          have hdetach : s.Permits ctx (.detach dir node.name) := trivial
          have hattach : (s.apply (.detach dir node.name)).Permits ctx
              (.attach dir n) := by
            refine ⟨hheld.inside, ?_, ⟨node₁, hheld₁.node,
              hparent₁.trans hparent, hname₁ ▸ hvalid, ?_⟩,
              htimely.apply (hheld.known h.wf) hdetach⟩
            · exact (isDir_modify fun node =>
                isDirectory_setChildren node.file _).trans hisDir
            · rw [hname₁, children_detach, if_pos rfl]
              simp
          obtain ⟨onode', hold', -, -⟩ := hold.attach hattach hne
          have htimely' := ((h.timely hmem).apply
            (h.wf.label_known old (by rw [h.wf.label hmem]; rfl))
            hdetach).apply (hold.known (h.wf_apply hdetach)) hattach
          refine bind_edit hdetach (.inl trivial) (fun _ => ?_) h
          refine bind_edit hattach (.inl trivial) fun _ => ?_
          apply Obeys.pure
          intro _ old' heq
          cases heq
          exact ⟨onode', hold', htimely'⟩

/-- `Directory::extract`.  The node is in hand afterwards. -/
theorem obeys_extract (hdir : ctx.inside dir) :
    (extract dir name).Obeys ctx.discipline s fun r s' =>
      ∀ n, r = some n → ∃ node, s'.Held ctx n node ∧ s'.Timely ctx n := by
  intro h
  revert h
  apply bind_directory
  intro _
  cases hlookup : (s.children dir).lookup name with
  | none =>
      apply Obeys.pure
      intro _ n hn
      cases hn
  | some n =>
      intro h
      have hmem := h.wf.lookup_iff.mp hlookup
      have hdetach : s.Permits ctx (.detach dir name) := trivial
      obtain ⟨node, hheld, -, -⟩ := h.held_detach hmem hdir
      have htimely := (h.timely hmem).apply
        (h.wf.label_known n (by rw [h.wf.label hmem]; rfl)) hdetach
      refine bind_edit hdetach (.inl trivial) (fun _ => ?_) h
      apply Obeys.pure
      intro _ n' hn'
      cases hn'
      exact ⟨node, hheld, htimely⟩

/-- A new node is in hand. -/
theorem bind_alloc {parent : Id} {stat : Stat} {file : File} {f : Id → Fs α}
    {Q : α → FileTree → Prop} (hfile : file.children = [])
    (hparent : ctx.inside parent)
    (hplain : s.Plain (.alloc ⟨s.nextId + 1⟩
        (Node.create name (some parent) stat file)) ∨
      ctx.extra s (.alloc ⟨s.nextId + 1⟩
        (Node.create name (some parent) stat file)))
    (hf : ∀ s₁, s₁ = s.apply (.alloc ⟨s.nextId + 1⟩
        (Node.create name (some parent) stat file)) → s₁.Good ctx →
      s₁.Held ctx ⟨s.nextId + 1⟩ (Node.create name (some parent) stat file) →
      (f ⟨s.nextId + 1⟩).Obeys ctx.discipline s₁ Q) :
    (alloc name parent stat file >>= f).Obeys ctx.discipline s Q := by
  unfold alloc
  simp only [bind_assoc]
  apply Obeys.bind_state
  intro h
  refine bind_edit ⟨rfl, hfile, ?_⟩ hplain (fun hgood => ?_) h
  · intro p hp
    cases hp
    exact hparent
  · exact hf _ rfl hgood (h.held_alloc hfile)

/-- The node `build_then_expire` returns is new. -/
theorem obeys_buildThenExpire {parent : Id} {stat : Stat} {file : File}
    (hfile : file.children = []) (hparent : s.Reached ctx parent)
    (hvalid : ValidName name)
    (hmatch : file.isError ∨ file.type = some (fileType stat.mode)) :
    (buildThenExpire parent name stat file).Obeys ctx.discipline s
      fun n s' => s'.Reached ctx n := by
  unfold buildThenExpire nodeBuild
  simp only [bind_assoc]
  apply bind_alloc hfile hparent.inside (.inl ⟨rfl, hmatch⟩)
  intro s₁ hs₁ hgood₁ hheld
  have hne : (⟨s.nextId + 1⟩ : Id) ≠ parent := by
    rintro rfl
    exact absurd hparent.known (Nat.not_succ_le_self _)
  generalize (⟨s.nextId + 1⟩ : Id) = n at hheld hne
  apply bind_deref
  intro pnode hpnode
  cases hdirectory : pnode.file.asDirectory with
  | error err =>
      simp only [bind_assoc]
      apply Obeys.bind (obeys_destroy hheld)
      intro _ _ _ _ _
      exact fun _ => Sat.bind (Sat.fail fun _ => ⟨.refl _, fun _ h => by cases h⟩)
  | ok list =>
      simp only [bind_assoc]
      obtain ⟨synced, hpfile⟩ := File.asDirectory_eq_ok hdirectory
      have hisDir : s₁.isDir parent :=
        isDir_iff.mpr ⟨pnode, hpnode, by rw [hpfile]; rfl⟩
      have hchildren : s₁.children parent = list := by
        rw [children_of_nodes hpnode, hpfile]
        rfl
      cases hlookup : list.lookup name with
      | some old =>
          have hinsert := insert_apply_exists hpnode hpfile hheld.node hlookup
          intro h r s' hrun
          rw [bind_of_error hinsert] at hrun
          cases hrun
          exact ⟨.step (hheld.permits_destroy h.wf) (.inl trivial) (.refl _),
            fun _ h => by cases h⟩
      | none =>
          have hinsert := insert_apply_none (o := false) hpnode hpfile
            hheld.node hlookup
          have hlabel : (s₁.apply (.attach parent n)).label n = _ :=
            label_attach.trans (label_eq hheld.node)
          obtain ⟨node', hnode', -⟩ := label_eq_some.mp hlabel
          have hexpire := expiresAfter_apply hnode'
          intro h r s' hrun
          rw [bind_of_ok hinsert] at hrun
          change (expiresAfter n >>= fun _ => pure n) _ = _ at hrun
          rw [bind_of_ok hexpire, deadline_attach] at hrun
          cases hrun
          have hchain := hheld.chain_attach_expire hisDir rfl hvalid
            (by rw [hchildren]; exact lookup_eq_none_iff.mp hlookup) hne
          refine ⟨hchain, fun a ha => ?_⟩
          cases ha
          exact Reached.chain ⟨hheld.inside, hheld.known h.wf⟩ hchain

theorem obeys_buildError {parent : Id} {err : Errc}
    (hparent : s.Reached ctx parent) (hvalid : ValidName name)
    {Q : Id → FileTree → Prop} :
    (buildError parent name err).Obeys ctx.discipline s Q := by
  refine Obeys.bind (Q := fun _ _ => True) ?_ fun _ _ _ _ _ => Obeys.fail
  apply Obeys.when
  · intro _
    refine Obeys.bind (Q := fun _ _ => True) ?_ fun _ _ _ _ _ =>
      Obeys.pure fun _ => trivial
    apply Obeys.outcome
    · exact (obeys_buildThenExpire rfl hparent hvalid (.inl rfl)).mono
        fun _ _ _ _ => trivial
    · exact fun _ _ _ _ => trivial
  · exact fun _ _ => trivial

theorem chain_clock (delay : Nat) : Chain ctx s (s.apply (.clock delay)) :=
  .step (by exact trivial) (.inl (by exact trivial)) (.refl _)

theorem obeys_build {parent : Id} {path : Path} (hparent : s.Reached ctx parent)
    (hvalid : ValidName path.filename) :
    (build env parent path).Obeys ctx.discipline s
      fun n s' => s'.Reached ctx n := by
  apply bind_request_outcome
  intro _
  have hparent' := hparent.chain (chain_clock (env.delay s.tick))
  cases hanswer : env.answer s.tick (.stat path) with
  | error err => exact obeys_buildError hparent' hvalid
  | ok stat =>
      exact obeys_buildThenExpire (File.children_create _) hparent' hvalid
        (.inr (File.type_create _))

theorem obeys_buildDirectory {parent : Id} {path : Path}
    (hparent : s.Reached ctx parent) (hvalid : ValidName path.filename) :
    (buildDirectory env parent path).Obeys ctx.discipline s
      fun n s' => s'.Reached ctx n := by
  apply bind_request_outcome
  intro _
  have hparent' := hparent.chain (chain_clock (env.delay s.tick))
  cases hanswer : env.answer s.tick (.stat path) with
  | error err => exact obeys_buildError hparent' hvalid
  | ok stat =>
      change (if _ then _ else _ : Fs Id).Obeys _ _ _
      split_ifs with htype
      · exact obeys_buildThenExpire rfl hparent' hvalid
          (.inr (by rw [htype]; rfl))
      · exact Obeys.fail

theorem bind_traverseNode {f : Id → Fs α} {Q : α → FileTree → Prop}
    (hf : ∀ c, (name, c) ∈ s.children n →
      (f c).Obeys ctx.discipline s Q) :
    (traverseNode n name >>= f).Obeys ctx.discipline s Q := by
  unfold traverseNode
  simp only [bind_assoc]
  apply bind_asDirectory
  intro _
  cases hlookup : (s.children n).lookup name with
  | none => exact fun _ => Sat.bind (Sat.fail fun _ => ⟨.refl _, fun _ h => by cases h⟩)
  | some c => exact fun h => hf c (h.wf.lookup_iff.mp hlookup) h

/-- The nodes stay as they are. -/
theorem obeys_invalidateOne :
    (invalidateOne n).Obeys ctx.discipline s fun _ s' =>
      s'.nodes = s.nodes ∧ s'.root = s.root := by
  apply Obeys.bind_state
  split
  · exact Obeys.pure fun _ => ⟨rfl, rfl⟩
  · split
    · exact obeys_edit trivial (.inl trivial) fun _ => ⟨rfl, rfl⟩
    · exact Obeys.wrong

theorem permits_destroy_congr {s' : FileTree} {ns : List Id}
    (hpermits : s.Permits ctx (.destroy ns)) (hnodes : s'.nodes = s.nodes)
    (hroot : s'.root = s.root) : s'.Permits ctx (.destroy ns) := by
  have hchildren : ∀ d, s'.children d = s.children d := by
    intro d
    unfold FileTree.children
    rw [hnodes]
  constructor
  · rw [hroot]
    exact hpermits.1
  · intro dir name n hmem hn
    rw [hchildren] at hmem
    exact hpermits.2 hmem hn

/-- The old value of a node is dropped with everything below it. -/
theorem obeys_invalidate {file : File}
    (hchildren : ∀ e ∈ file.children, e.2 ≠ s.root ∧ s.Unlisted e.2) :
    (invalidate n file).Obeys ctx.discipline s fun _ _ => True := by
  cases file with
  | directory children synced =>
      apply Obeys.bind_state
      intro h
      have hpermits : s.Permits ctx
          (.destroy (children.flatMap fun e => s.walk e.2)) := by
        have hroots := h.wf.permits_destroy ctx (children.map Prod.snd) ?_
        · rw [List.flatMap_map] at hroots
          exact hroots
        · intro r hr
          obtain ⟨e, he, rfl⟩ := List.mem_map.mp hr
          exact hchildren e he
      revert h
      have hsame : ∀ e, (∃ m, e = Edit.eraseHandles m) → ∀ t : FileTree,
          t.nodes = s.nodes ∧ t.root = s.root →
          (edit e).Obeys ctx.discipline t fun _ t' =>
            t'.nodes = s.nodes ∧ t'.root = s.root := by
        rintro e ⟨m, rfl⟩ t ht
        exact obeys_edit trivial (.inl trivial) fun _ => ht
      apply Obeys.bind (Obeys.forEach (J := fun t =>
        t.nodes = s.nodes ∧ t.root = s.root)
        (fun m _ t _ ht => hsame _ ⟨m, rfl⟩ t ht) ⟨rfl, rfl⟩)
      intro _ s₁ _ _ hs₁
      apply Obeys.bind (Obeys.forEach (J := fun t =>
        t.nodes = s.nodes ∧ t.root = s.root) (fun m _ t _ ht =>
          obeys_invalidateOne.mono fun _ t' _ ht' =>
            ⟨ht'.1.trans ht.1, ht'.2.trans ht.2⟩) hs₁)
      intro _ s₂ _ _ hs₂
      refine bind_edit trivial (.inl trivial) fun _ => ?_
      exact obeys_edit (permits_destroy_congr hpermits hs₂.1 hs₂.2)
        (.inl trivial) fun _ => trivial
  | regular dirty =>
      apply Obeys.bind obeys_invalidateOne
      intro _ s₁ _ _ _
      exact obeys_edit trivial (.inl trivial) fun _ => trivial
  | _ => exact Obeys.pure fun _ => trivial

/-- A node gets another value. -/
theorem obeys_convert {node : Node} {stat : Stat} {file : File}
    (hnode : s.nodes n = some node) (hn : n ≠ s.root)
    (hfile : file.children = [])
    (hmatch : file.isError ∨ file.type = some (fileType stat.mode)) :
    (edit (.convert n stat file) >>= fun _ => invalidate n node.file).Obeys
      ctx.discipline s fun _ _ => True := by
  intro h
  refine bind_edit ⟨hn, hfile⟩ (.inl hmatch) (fun _ => ?_) h
  apply obeys_invalidate
  rintro ⟨name, c⟩ he
  have hmem : (name, c) ∈ s.children n := by
    rw [children_of_nodes hnode]
    exact he
  refine ⟨?_, ?_⟩
  · rw [root_apply]
    exact h.wf.ne_root hmem
  · intro dir name' hmem'
    rw [children_convert hfile] at hmem'
    split_ifs at hmem' with hdir
    · exact absurd hmem' List.not_mem_nil
    · exact hdir (h.wf.listed_once hmem hmem').2

/-- A change of the stat and of the value of a node is one change. -/
theorem rebuild_eq (n : Id) (stat : Stat) (file : File) :
    rebuild n stat file = (do
      let node ← deref n
      (edit (.convert n stat file) >>= fun _ => invalidate n node.file)
      expiresAfter n) := by
  funext s
  cases hnode : s.nodes n with
  | none =>
      have hwrong : deref n s = none := by rw [deref, hnode]
      rw [rebuild, setStat, bind_apply, bind_apply, hwrong, bind_apply, hwrong]
  | some node =>
      have hnode' : (s.apply (.setStat n stat)).nodes n =
          some { node with stat := stat } := by
        rw [apply, nodes_modify, if_pos rfl, hnode]
        rfl
      rw [rebuild, bind_of_ok (setStat_apply hnode stat), mutateAndInvalidate,
        bind_of_ok (deref_apply hnode)]
      simp only [bind_assoc]
      rw [bind_of_ok (deref_apply hnode'), bind_of_ok (edit_apply _ _),
        bind_of_ok (edit_apply _ _), setStat_convert]

theorem obeys_rebuild {stat : Stat} {file : File} (hn : n ≠ s.root)
    (hfile : file.children = [])
    (hmatch : file.isError ∨ file.type = some (fileType stat.mode)) :
    (rebuild n stat file).Obeys ctx.discipline s fun _ _ => True := by
  rw [rebuild_eq]
  apply bind_deref
  intro node hnode
  apply Obeys.bind (obeys_convert hnode hn hfile hmatch)
  intro _ s₁ _ _ _
  exact obeys_expiresAfter

theorem obeys_update {path : Path} (hn : n ≠ s.root) :
    (update env n path).Obeys ctx.discipline s fun _ _ => True := by
  apply bind_request_outcome
  intro _
  apply bind_deref
  intro node hnode
  cases hanswer : env.answer s.tick (.stat path) with
  | error err =>
      refine Obeys.bind (Q := fun _ _ => True) ?_ fun _ _ _ _ _ => Obeys.fail
      apply Obeys.when
      · intro _
        unfold mutateAndInvalidate
        apply Obeys.bind (Q := fun _ _ => True)
        · apply bind_deref
          intro node' hnode'
          exact obeys_convert hnode' hn rfl (.inl rfl)
        · exact fun _ _ _ _ _ => obeys_expiresAfter
      · exact fun _ _ => trivial
  | ok stat =>
      change (if _ then _ else if _ then _ else _ : Fs Unit).Obeys _ _ _
      split_ifs with hsame hdir
      · exact obeys_expiresAfter
      · unfold setStat setSynced
        apply Obeys.bind (Q := fun _ _ => True)
        · apply bind_deref
          intro node' hnode'
          refine obeys_edit trivial (.inl ?_) fun _ => trivial
          intro node'' hnode''
          cases hnode.symm.trans hnode''
          rw [hdir.1, hdir.2]
        · intro _ s₁ _ _ _
          apply Obeys.bind (Q := fun _ _ => True)
          · apply bind_deref
            intro node' hnode'
            exact obeys_edit trivial (.inl trivial) fun _ => trivial
          · exact fun _ _ _ _ _ => obeys_expiresAfter
      · exact obeys_rebuild hn (File.children_create _)
          (.inr (File.type_create _))

theorem filename_extend {path : Path} (hvalid : ValidName name) :
    (path.extend name).filename = name := by
  rw [Path.extend, if_pos hvalid, Path.filename, List.getLast?_concat]
  rfl

/-- A step of the traversal leaves the state as it is. -/
theorem traverseNode_cases {r : Except Errc Id} {s' : FileTree}
    (hrun : traverseNode n name s = some (r, s')) : s' = s ∧
      ∀ c, r = .ok c → (s.children n).lookup name = some c := by
  unfold traverseNode asDirectory at hrun
  rw [bind_assoc] at hrun
  obtain ⟨node, hnode, hrun⟩ := bind_deref_cases hrun
  cases hlist : node.file.asDirectory with
  | error err =>
      rw [hlist] at hrun
      cases hrun
      exact ⟨rfl, fun c hc => by cases hc⟩
  | ok list =>
      obtain ⟨synced, hfile⟩ := File.asDirectory_eq_ok hlist
      have hchildren : s.children n = list := by
        rw [children_of_nodes hnode, hfile]
        rfl
      have hok : (ofExcept (.ok list) : Fs (List (Name × Id))) s =
          some (.ok list, s) := rfl
      rw [hlist, bind_of_ok hok] at hrun
      rw [hchildren]
      cases hlookup : list.lookup name with
      | none =>
          simp only [hlookup] at hrun
          cases hrun
          exact ⟨rfl, fun c hc => by cases hc⟩
      | some c =>
          simp only [hlookup] at hrun
          cases hrun
          refine ⟨rfl, fun c' hc' => ?_⟩
          cases hc'
          rfl

theorem bind_traverseNode_outcome {f : Except Errc Id → Fs α}
    {Q : α → FileTree → Prop}
    (hok : ∀ c, (name, c) ∈ s.children n →
      (f (.ok c)).Obeys ctx.discipline s Q)
    (herr : ∀ err, (f (.error err)).Obeys ctx.discipline s Q) :
    ((traverseNode n name).outcome >>= f).Obeys ctx.discipline s Q := by
  intro h r s' hrun
  rcases bind_cases hrun with ⟨err, hout, -⟩ | ⟨found, s₁, hout, hrest⟩
  · obtain ⟨p, -, heq⟩ := Option.map_eq_some_iff.mp hout
    cases heq
  · obtain ⟨⟨found, t⟩, htraverse, heq⟩ := Option.map_eq_some_iff.mp hout
    cases heq
    obtain ⟨rfl, hfound⟩ := traverseNode_cases htraverse
    cases found with
    | error err => exact herr err h r s' hrest
    | ok c => exact hok c (h.wf.lookup_iff.mp (hfound c rfl)) h r s' hrest

theorem obeys_enter {builder : Id → Path → Fs Id} {current : Id} {path : Path}
    (hcurrent : s.Reached ctx current)
    (hbuilder : (builder current path).Obeys ctx.discipline s
      fun n s' => s'.Reached ctx n) :
    (enter env builder current name path).Obeys ctx.discipline s
      fun n s' => s'.Reached ctx n := by
  intro h
  revert h
  apply bind_traverseNode_outcome
  · intro next hmem
    apply bind_deref
    intro node hnode
    apply Obeys.bind_state
    intro h
    have hreached := h.reached_child hcurrent.inside hmem
    refine Obeys.bind (Q := fun _ s' => s'.Reached ctx next) ?_ ?_ h
    · apply Obeys.when
      · intro _ h r s' hrun
        obtain ⟨hchain, -⟩ := obeys_update (h.wf.ne_root hmem) h r s' hrun
        exact ⟨hchain, fun _ _ => hreached.chain hchain⟩
      · exact fun _ _ => hreached
    · exact fun _ s' _ _ hreached' => Obeys.pure fun _ => hreached'
  · exact fun err => hbuilder

theorem obeys_descend {path : Path} {current : Id} {above : Path}
    (hcurrent : s.Reached ctx current) (hvalid : ∀ name ∈ path, ValidName name) :
    (descend env path current above).Obeys ctx.discipline s
      fun r s' => s'.Reached ctx r.1 := by
  induction path generalizing s current above with
  | nil => exact Obeys.pure fun _ => hcurrent
  | cons name rest ih =>
      have hname := hvalid name List.mem_cons_self
      refine Obeys.bind (obeys_enter hcurrent ?_) ?_
      · exact obeys_buildDirectory hcurrent (by rw [filename_extend hname]; exact hname)
      · intro next s₁ _ _ hnext
        exact ih hnext fun n hn => hvalid n (List.mem_cons_of_mem name hn)

/-- The lookup of a path is a chain, and it ends at a node of the tree. -/
theorem obeys_traverseOrBuild {path : Path}
    (hvalid : ∀ name ∈ path, ValidName name) :
    (traverseOrBuild env path).Obeys ctx.discipline s
      fun n s' => s'.Reached ctx n := by
  intro h
  have hroot : s.Reached ctx s.root := by
    obtain ⟨node, hnode, -⟩ := h.wf.root
    exact ⟨h.root, h.wf.known hnode⟩
  revert h
  apply Obeys.bind_state
  split_ifs with hempty
  · exact Obeys.pure fun _ => hroot
  · apply Obeys.bind (obeys_descend hroot fun n hn =>
      hvalid n (List.mem_of_mem_dropLast hn))
    rintro ⟨current, above⟩ s₁ _ _ hcurrent
    have hname : ValidName path.filename := by
      cases hlast : path.getLast? with
      | none =>
          rw [List.getLast?_eq_none_iff] at hlast
          subst hlast
          exact absurd rfl hempty
      | some name =>
          rw [Path.filename, hlast]
          exact hvalid name (List.mem_of_getLast? hlast)
    exact obeys_enter hcurrent (obeys_build hcurrent
      (by rw [filename_extend hname]; exact hname))

end Fs

end Madbfs
