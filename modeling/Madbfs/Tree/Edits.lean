/-
What operations are made of.  `Permits` says when a change keeps the tree well
formed, `Plain` what is common to the changes of all operations, and the few
changes that only some operations make are named with the operation.  Every
operation is a chain of such changes, and what holds along all chains holds
after every operation.
-/
import Madbfs.Tree.Equations

namespace Madbfs

/-- What is fixed while an operation runs.  `inside` holds the nodes it can get
at, which are those of the tree it starts from and those it makes; the ids of
the latter are beyond `base`.  `creating` tells the operations that put a node
into the tree without an expiration, and `extra` are the changes that belong
to the operation alone. -/
structure Ctx where
  base : Nat
  inside : Id → Prop
  made : ∀ n : Id, base < n.inner → inside n
  creating : Prop
  extra : FileTree → Edit → Prop

namespace FileTree

variable {ctx : Ctx} {s s' : FileTree} {n m dir : Id} {name : Name} {e : Edit}

/-- If nodes expire at all, this one does. -/
def TimeSet (s : FileTree) (n : Id) : Prop :=
  s.ttl.isSome → ∀ node, s.nodes n = some node → node.expiration.isSome

/-- The change keeps the tree well formed. -/
def Permits (ctx : Ctx) (s : FileTree) : Edit → Prop
  | .alloc n node => n = ⟨s.nextId + 1⟩ ∧ node.file.children = [] ∧
      ∀ p, node.parent = some p → ctx.inside p
  | .attach dir n => ctx.inside n ∧ s.isDir dir ∧
      (∃ node, s.nodes n = some node ∧ node.parent = some dir ∧
        ValidName node.name ∧ node.name ∉ (s.children dir).map Prod.fst) ∧
      (ctx.creating ∨ n.inner ≤ ctx.base ∨ s.TimeSet n)
  | .setName n _ => n ≠ s.root ∧ s.Unlisted n
  | .setParent n parent => n ≠ s.root ∧ s.Unlisted n ∧ ctx.inside parent
  | .destroy ns => s.root ∉ ns ∧
      ∀ {dir name n}, (name, n) ∈ s.children dir → n ∈ ns → dir ∈ ns
  | .convert n _ file => n ≠ s.root ∧ file.children = []
  | .expire _ time => time = s.deadline
  | .expireAll _ _ | .setTtl _ _ => s.nextId = ctx.base
  | _ => True

/-- The changes all operations may make. -/
def Plain (s : FileTree) : Edit → Prop
  | .alloc _ node => node.expiration = none ∧
      (node.file.isError ∨ node.file.type = some (fileType node.stat.mode))
  | .convert _ stat file =>
      file.isError ∨ file.type = some (fileType stat.mode)
  | .setStat n stat => ∀ node, s.nodes n = some node →
      fileType stat.mode = fileType node.stat.mode
  | .expireAll _ _ | .setTtl _ _ | .store _ | .release _ => False
  | _ => True

/-- What holds while an operation runs. -/
structure Good (ctx : Ctx) (s : FileTree) : Prop where
  wf : s.WellFormed
  base_le : ctx.base ≤ s.nextId
  root : ctx.inside s.root
  below : ∀ {n}, ctx.inside n → ∀ e ∈ s.children n, ctx.inside e.2
  above : ∀ {n name p}, ctx.inside n → s.label n = some (name, some p) →
    ctx.inside p
  timed : ctx.creating ∨ ∀ {dir name n}, (name, n) ∈ s.children dir →
    ctx.base < n.inner → s.TimeSet n

/-- A sequence of changes. -/
inductive Chain (ctx : Ctx) : FileTree → FileTree → Prop
  | refl (s : FileTree) : Chain ctx s s
  | step {s t : FileTree} {e : Edit} (hpermits : s.Permits ctx e)
      (hplain : s.Plain e ∨ ctx.extra s e) (hrest : Chain ctx (s.apply e) t) :
      Chain ctx s t

theorem Chain.trans {t u : FileTree} (hleft : Chain ctx s t)
    (hright : Chain ctx t u) : Chain ctx s u := by
  induction hleft with
  | refl s => exact hright
  | step hpermits hplain hrest ih => exact .step hpermits hplain (ih hright)

theorem Good.wf_apply (h : s.Good ctx) (hpermits : s.Permits ctx e) :
    (s.apply e).WellFormed := by
  cases e with
  | alloc n node =>
      obtain ⟨rfl, hfile, -⟩ := hpermits
      exact h.wf.alloc hfile
  | detach dir name => exact h.wf.detach
  | attach dir n =>
      obtain ⟨-, hdir, ⟨node, hnode, hparent, hvalid, hname⟩, -⟩ := hpermits
      obtain ⟨d, hd, hdirectory⟩ := isDir_iff.mp hdir
      exact h.wf.attach hd hdirectory hnode hparent hvalid hname
  | setName n name => exact h.wf.setName hpermits.1 hpermits.2
  | setParent n parent => exact h.wf.setParent hpermits.1 hpermits.2.1
  | destroy ns => exact h.wf.destroy hpermits.1 hpermits.2
  | convert n stat file => exact h.wf.convert hpermits.1 hpermits.2
  | _ => exact h.wf.congr (sameShape_apply rfl)

/-- A node that is listed after a change was listed before, or is the one that
is attached. -/
theorem children_apply (hpermits : s.Permits ctx e)
    (hmem : (name, n) ∈ (s.apply e).children dir) :
    (name, n) ∈ s.children dir ∨ e = .attach dir n := by
  cases e with
  | alloc m node =>
      rw [children_alloc] at hmem
      split_ifs at hmem
      · rw [hpermits.2.1] at hmem
        exact absurd hmem List.not_mem_nil
      · exact .inl hmem
  | detach d nm =>
      rw [children_detach] at hmem
      split_ifs at hmem with hdir
      · subst hdir
        exact .inl (List.mem_of_mem_filter hmem)
      · exact .inl hmem
  | attach d m =>
      obtain ⟨-, hdir, ⟨node, hnode, -⟩, -⟩ := hpermits
      obtain ⟨dn, hd, hdirectory⟩ := isDir_iff.mp hdir
      rw [children_attach hd hdirectory hnode] at hmem
      split_ifs at hmem with heq
      · subst heq
        rcases List.mem_append.mp hmem with hold | hnew
        · exact .inl hold
        · cases List.mem_singleton.mp hnew
          exact .inr rfl
      · exact .inl hmem
  | setName m nm =>
      rw [children_setName] at hmem
      exact .inl hmem
  | setParent m p =>
      rw [children_setParent] at hmem
      exact .inl hmem
  | destroy ns =>
      rw [children_destroy] at hmem
      split_ifs at hmem
      · exact absurd hmem List.not_mem_nil
      · exact .inl hmem
  | convert m stat file =>
      rw [children_convert hpermits.2] at hmem
      split_ifs at hmem
      · exact absurd hmem List.not_mem_nil
      · exact .inl hmem
  | _ =>
      rw [(sameShape_apply rfl).children] at hmem
      exact .inl hmem

/-- The parent of a node after a change. -/
theorem parent_apply {p : Id} (hpermits : s.Permits ctx e)
    (hlabel : (s.apply e).label n = some (name, some p)) :
    ctx.inside p ∨ ∃ name', s.label n = some (name', some p) := by
  cases e with
  | alloc m node =>
      rw [label_alloc] at hlabel
      split_ifs at hlabel
      · simp only [Option.some.injEq, Prod.mk.injEq] at hlabel
        exact .inl (hpermits.2.2 p hlabel.2)
      · exact .inr ⟨name, hlabel⟩
  | detach d nm =>
      rw [label_detach] at hlabel
      exact .inr ⟨name, hlabel⟩
  | attach d m =>
      rw [label_attach] at hlabel
      exact .inr ⟨name, hlabel⟩
  | setName m nm =>
      rw [label_setName] at hlabel
      split_ifs at hlabel with hm
      · subst hm
        obtain ⟨l, hl, heq⟩ := Option.map_eq_some_iff.mp hlabel
        simp only [Prod.mk.injEq] at heq
        exact .inr ⟨l.1, hl.trans (by rw [← heq.2])⟩
      · exact .inr ⟨name, hlabel⟩
  | setParent m parent =>
      rw [label_setParent] at hlabel
      split_ifs at hlabel with hm
      · obtain ⟨l, hl, heq⟩ := Option.map_eq_some_iff.mp hlabel
        simp only [Prod.mk.injEq, Option.some.injEq] at heq
        rw [← heq.2]
        exact .inl hpermits.2.2
      · exact .inr ⟨name, hlabel⟩
  | destroy ns =>
      rw [label_destroy] at hlabel
      split_ifs at hlabel
      exact .inr ⟨name, hlabel⟩
  | convert m stat file =>
      rw [label_convert] at hlabel
      exact .inr ⟨name, hlabel⟩
  | _ =>
      obtain ⟨node', hnode', hname, hparent⟩ := label_eq_some.mp hlabel
      obtain ⟨node, hnode, hshape⟩ := (sameShape_apply rfl).node hnode'
      simp only [Node.shape, Prod.mk.injEq] at hshape
      refine .inr ⟨name, label_eq_some.mpr ⟨node, hnode, ?_, ?_⟩⟩
      · rw [← hshape.2.1]
        exact hname
      · rw [← hshape.1]
        exact hparent

theorem nextId_apply (s : FileTree) (e : Edit) :
    s.nextId ≤ (s.apply e).nextId := by
  cases e with
  | alloc n node => exact Nat.le_succ _
  | attach dir n =>
      simp only [apply, attach]
      split <;> exact Nat.le_refl _
  | _ => exact Nat.le_refl _

/-- What a change does to one node that it does not make or destroy. -/
def onNode (s : FileTree) (n : Id) (node : Node) : Edit → Node
  | .detach dir name => if n = dir then { node with
      file := node.file.setChildren
        (node.file.children.filter fun e => e.1 ≠ name) } else node
  | .attach dir m =>
      match s.nodes m with
      | none => node
      | some child => if n = dir then { node with
          file := node.file.setChildren
            (node.file.children ++ [(child.name, m)]) } else node
  | .setName m name => if n = m then { node with name := name } else node
  | .setParent m parent =>
      if n = m then { node with parent := some parent } else node
  | .convert m stat file =>
      if n = m then { node with stat := stat, file := file } else node
  | .setStat m stat => if n = m then { node with stat := stat } else node
  | .setSynced m synced =>
      if n = m then { node with file := node.file.setSynced synced } else node
  | .setDirty m dirty =>
      if n = m then { node with file := node.file.setDirty dirty } else node
  | .setTarget m target =>
      if n = m then { node with file := node.file.setTarget target } else node
  | .expire m time =>
      if n = m then { node with expiration := time } else node
  | .expireAll ns time =>
      if n ∈ ns then { node with expiration := time } else node
  | .setTtl ttl ns => if n ∈ ns then
      { node with expiration := { s with ttl := ttl }.deadline } else node
  | _ => node

theorem node_modify {f : Node → Node} {node' : Node}
    (hnode' : (s.modify m f).nodes n = some node') :
    ∃ node, s.nodes n = some node ∧
      node' = if n = m then f node else node := by
  rw [nodes_modify] at hnode'
  split_ifs at hnode' ⊢ with hn
  · subst hn
    obtain ⟨node, hnode, heq⟩ := Option.map_eq_some_iff.mp hnode'
    exact ⟨node, hnode, heq.symm⟩
  · exact ⟨node', hnode', rfl⟩

theorem node_expireNodes {ns : List Id} {time : Option Nat} {node' : Node}
    (hnode' : (s.expireNodes ns time).nodes n = some node') :
    ∃ node, s.nodes n = some node ∧
      node' = if n ∈ ns then { node with expiration := time } else node := by
  simp only [expireNodes] at hnode'
  split_ifs at hnode' ⊢ with hn
  · obtain ⟨node, hnode, heq⟩ := Option.map_eq_some_iff.mp hnode'
    exact ⟨node, hnode, heq.symm⟩
  · exact ⟨node', hnode', rfl⟩

/-- A node after a change is a new one, or one from before that was changed
accordingly. -/
theorem node_apply {node' : Node} (hnode' : (s.apply e).nodes n = some node') :
    e = .alloc n node' ∨
      ∃ node, s.nodes n = some node ∧ node' = s.onNode n node e := by
  cases e with
  | alloc m node =>
      simp only [apply, Function.update_apply] at hnode'
      split_ifs at hnode' with hm
      · cases hnode'
        exact .inl (by rw [hm])
      · exact .inr ⟨node', hnode', rfl⟩
  | attach dir m =>
      cases hm : s.nodes m with
      | none =>
          simp only [apply, attach, hm] at hnode'
          refine .inr ⟨node', hnode', ?_⟩
          simp only [onNode, hm]
      | some child =>
          simp only [apply, attach, hm] at hnode'
          obtain ⟨node, hnode, heq⟩ := node_modify hnode'
          refine .inr ⟨node, hnode, ?_⟩
          simp only [onNode, hm]
          exact heq
  | destroy ns =>
      simp only [apply] at hnode'
      split_ifs at hnode'
      exact .inr ⟨node', hnode', rfl⟩
  | expireAll ns time => exact .inr (node_expireNodes hnode')
  | setTtl ttl ns => exact .inr (node_expireNodes hnode')
  | clock | store | release | eraseHandles | cache | markInitialized =>
      exact .inr ⟨node', hnode', rfl⟩
  | _ => exact .inr (node_modify hnode')

/-- Only the changes that are about it touch the expiration of a node. -/
def Edit.expires : Edit → Bool
  | .expire _ _ | .expireAll _ _ | .setTtl _ _ => true
  | _ => false

theorem expiration_onNode {node : Node} (he : Edit.expires e = false) :
    (s.onNode n node e).expiration = node.expiration := by
  cases e with
  | expire | expireAll | setTtl => cases he
  | attach dir m =>
      simp only [onNode]
      split
      · rfl
      · split_ifs <;> rfl
  | clock | store | release | eraseHandles | cache | markInitialized | alloc
  | destroy => rfl
  | _ =>
      simp only [onNode]
      split_ifs <;> rfl

theorem ttl_apply (he : Edit.expires e = false) : (s.apply e).ttl = s.ttl := by
  cases e with
  | expire | expireAll | setTtl => cases he
  | attach dir m =>
      simp only [apply, attach]
      split <;> rfl
  | _ => rfl

theorem TimeSet.apply (h : s.TimeSet n) (hn : n.inner ≤ s.nextId)
    (hpermits : s.Permits ctx e) (hbase : s.nextId ≠ ctx.base) :
    (s.apply e).TimeSet n := by
  intro httl node' hnode'
  rcases node_apply hnode' with rfl | ⟨node, hnode, rfl⟩
  · rw [hpermits.1] at hn
    exact absurd hn (Nat.not_succ_le_self _)
  · cases e with
    | expire m time =>
        rw [show time = s.deadline from hpermits, onNode]
        split_ifs
        · exact (Option.isSome_map).trans httl
        · exact h httl node hnode
    | expireAll ns time => exact absurd hpermits hbase
    | setTtl ttl ns => exact absurd hpermits hbase
    | _ =>
        rw [expiration_onNode rfl]
        rw [ttl_apply rfl] at httl
        exact h httl node hnode

theorem Good.apply (h : s.Good ctx) (hpermits : s.Permits ctx e) :
    (s.apply e).Good ctx where
  wf := h.wf_apply hpermits
  base_le := Nat.le_trans h.base_le (nextId_apply s e)
  root := by
    rw [root_apply]
    exact h.root
  below := by
    rintro n hn ⟨name, c⟩ hmem
    rcases children_apply hpermits hmem with hold | rfl
    · exact h.below hn _ hold
    · exact hpermits.1
  above := by
    intro n name p hn hlabel
    rcases parent_apply hpermits hlabel with hp | ⟨name', hold⟩
    · exact hp
    · exact h.above hn hold
  timed := by
    rcases h.timed with hcreating | htimed
    · exact .inl hcreating
    by_cases hcreating : ctx.creating
    · exact .inl hcreating
    refine .inr fun {dir name n} hmem hnew => ?_
    have hset : n.inner ≤ s.nextId ∧ s.TimeSet n := by
      rcases children_apply hpermits hmem with hold | rfl
      · obtain ⟨node, hnode, -⟩ := h.wf.listed hold
        exact ⟨h.wf.known hnode, htimed hold hnew⟩
      · obtain ⟨-, -, ⟨node, hnode, -⟩, hcreating' | hold | hset⟩ := hpermits
        · exact absurd hcreating' hcreating
        · omega
        · exact ⟨h.wf.known hnode, hset⟩
    exact hset.2.apply hset.1 hpermits (by omega)

/-- The node may be put into the tree. -/
def Timely (ctx : Ctx) (s : FileTree) (n : Id) : Prop :=
  ctx.creating ∨ n.inner ≤ ctx.base ∨ s.TimeSet n

theorem Good.timely (h : s.Good ctx) (hmem : (name, n) ∈ s.children dir) :
    s.Timely ctx n := by
  rcases h.timed with hcreating | htimed
  · exact .inl hcreating
  · by_cases hnew : ctx.base < n.inner
    · exact .inr (.inr (htimed hmem hnew))
    · exact .inr (.inl (Nat.le_of_not_lt hnew))

theorem Timely.apply (h : s.Timely ctx n) (hn : n.inner ≤ s.nextId)
    (hpermits : s.Permits ctx e) : (s.apply e).Timely ctx n := by
  rcases h with hcreating | hold | hset
  · exact .inl hcreating
  · exact .inr (.inl hold)
  · by_cases hbase : s.nextId = ctx.base
    · exact .inr (.inl (hbase ▸ hn))
    · exact .inr (.inr (hset.apply hn hpermits hbase))

/-- The operation has the node in its hands. -/
structure Held (ctx : Ctx) (s : FileTree) (n : Id) (node : Node) : Prop where
  node : s.nodes n = some node
  unlisted : s.Unlisted n
  ne_root : n ≠ s.root
  inside : ctx.inside n

theorem Held.congr {node : Node} (h : s.Held ctx n node)
    (hnodes : s'.nodes = s.nodes) (hroot : s'.root = s.root) :
    s'.Held ctx n node where
  node := by
    rw [hnodes]
    exact h.node
  unlisted := by
    intro dir name hmem
    apply h.unlisted dir name
    unfold FileTree.children at hmem ⊢
    rw [← hnodes]
    exact hmem
  ne_root := by
    rw [hroot]
    exact h.ne_root
  inside := h.inside

/-- A child that is taken out of its directory. -/
theorem Good.held_detach (h : s.Good ctx) (hmem : (name, n) ∈ s.children dir)
    (hdir : ctx.inside dir) :
    ∃ node, (s.apply (.detach dir name)).Held ctx n node ∧
      node.name = name ∧ node.parent = some dir := by
  have hlabel : (s.apply (.detach dir name)).label n = some (name, some dir) := by
    rw [label_detach]
    exact h.wf.label hmem
  obtain ⟨node, hnode, hname, hparent⟩ := label_eq_some.mp hlabel
  refine ⟨node, ⟨hnode, ?_, ?_, h.below hdir _ hmem⟩, hname, hparent⟩
  · intro dir' name' hmem'
    rw [children_detach] at hmem'
    split_ifs at hmem' with heq
    · obtain ⟨hold, hne⟩ := List.mem_filter.mp hmem'
      obtain ⟨rfl, -⟩ := h.wf.listed_once hmem hold
      simp at hne
    · exact heq (h.wf.listed_once hmem hmem').2
  · rw [root_apply]
    exact h.wf.ne_root hmem

theorem Good.held_alloc (h : s.Good ctx) {node : Node}
    (hfile : node.file.children = []) :
    (s.apply (.alloc ⟨s.nextId + 1⟩ node)).Held ctx ⟨s.nextId + 1⟩ node := by
  have hfresh : ∀ {m : Id}, (s.nodes m).isSome → m ≠ ⟨s.nextId + 1⟩ := by
    rintro m hsome rfl
    obtain ⟨old, hold⟩ := Option.isSome_iff_exists.mp hsome
    exact absurd (h.wf.known hold) (Nat.not_succ_le_self _)
  refine ⟨Function.update_self _ _ _, ?_, ?_, ?_⟩
  · intro dir name hmem
    rw [children_alloc] at hmem
    split_ifs at hmem
    · rw [hfile] at hmem
      exact absurd hmem List.not_mem_nil
    · obtain ⟨old, hold, -⟩ := h.wf.listed hmem
      exact hfresh (by rw [hold]; rfl) rfl
  · rw [root_apply]
    obtain ⟨root, hroot, -⟩ := h.wf.root
    exact (hfresh (by rw [hroot]; rfl)).symm
  · exact ctx.made _ (Nat.lt_succ_of_le h.base_le)

theorem mem_successors : m ∈ s.successors n ↔
    ∃ name, (name, m) ∈ s.children n := by
  unfold successors
  rw [List.mem_reverse, List.mem_map]
  constructor
  · rintro ⟨⟨name, c⟩, hmem, rfl⟩
    exact ⟨name, hmem⟩
  · rintro ⟨name, hmem⟩
    exact ⟨(name, m), hmem, rfl⟩

/-- The subtrees of nodes that are not listed can be destroyed. -/
theorem WellFormed.permits_destroy (h : s.WellFormed) (ctx : Ctx)
    (roots : List Id) (hroots : ∀ r ∈ roots, r ≠ s.root ∧ s.Unlisted r) :
    s.Permits ctx (.destroy (roots.flatMap s.walk)) := by
  have hcases : ∀ {m}, m ∈ roots.flatMap s.walk → m ∈ roots ∨
      ∃ d ∈ roots.flatMap s.walk, ∃ name, (name, m) ∈ s.children d := by
    intro m hm
    obtain ⟨r, hr, hmr⟩ := List.mem_flatMap.mp hm
    rcases Forest.pred_of_mem_visit hmr with hstart | ⟨d, hd, hchild⟩
    · rw [List.mem_singleton.mp hstart]
      exact .inl hr
    · exact .inr ⟨d, List.mem_flatMap.mpr ⟨r, hr, hd⟩, mem_successors.mp hchild⟩
  constructor
  · intro hroot
    rcases hcases hroot with hstart | ⟨d, -, name, hchild⟩
    · exact (hroots _ hstart).1 rfl
    · exact h.unlisted_root d name hchild
  · intro dir name n hmem hn
    rcases hcases hn with hstart | ⟨d, hd, name', hchild⟩
    · exact absurd hmem ((hroots n hstart).2 dir name)
    · rw [(h.listed_once hchild hmem).2]
      exact hd

theorem WellFormed.permits_destroy_one (h : s.WellFormed) (hn : n ≠ s.root)
    (hunlisted : s.Unlisted n) : s.Permits ctx (.destroy (s.walk n)) := by
  have hpermits : s.Permits ctx (.destroy ([n].flatMap s.walk)) := by
    apply h.permits_destroy ctx [n]
    intro r hr
    rw [List.mem_singleton.mp hr]
    exact ⟨hn, hunlisted⟩
  rw [List.flatMap_singleton] at hpermits
  exact hpermits

theorem Held.permits_destroy {node : Node} (h : s.Held ctx n node)
    (hwf : s.WellFormed) : s.Permits ctx (.destroy (s.walk n)) :=
  hwf.permits_destroy_one h.ne_root h.unlisted

theorem Chain.good (hchain : Chain ctx s s') (h : s.Good ctx) :
    s'.Good ctx := by
  induction hchain with
  | refl s => exact h
  | step hpermits hplain hrest ih => exact ih (h.apply hpermits)

theorem Chain.nextId_le (hchain : Chain ctx s s') : s.nextId ≤ s'.nextId := by
  induction hchain with
  | refl s => exact Nat.le_refl _
  | step hpermits hplain hrest ih =>
      exact Nat.le_trans (nextId_apply _ _) ih

theorem Chain.root (hchain : Chain ctx s s') :
    s'.root = s.root := by
  induction hchain with
  | refl s => rfl
  | step hpermits hplain hrest ih => exact ih.trans (root_apply _ _)

/-- The operation may work on the node. -/
structure Reached (ctx : Ctx) (s : FileTree) (n : Id) : Prop where
  inside : ctx.inside n
  known : n.inner ≤ s.nextId

theorem Reached.chain (h : s.Reached ctx n) (hchain : Chain ctx s s') :
    s'.Reached ctx n :=
  ⟨h.inside, Nat.le_trans h.known hchain.nextId_le⟩

theorem Good.reached_child (h : s.Good ctx) (hdir : ctx.inside dir)
    (hmem : (name, n) ∈ s.children dir) : s.Reached ctx n := by
  obtain ⟨node, hnode, -⟩ := h.wf.listed hmem
  exact ⟨h.below hdir _ hmem, h.wf.known hnode⟩

end FileTree

/-- Operations change the state through chains. -/
def Ctx.discipline (ctx : Ctx) : Discipline FileTree where
  holds := FileTree.Good ctx
  rel := FileTree.Chain ctx
  refl := .refl
  trans := FileTree.Chain.trans
  keeps := FileTree.Chain.good

namespace Fs

open Program FileTree

variable {ctx : Ctx} {s : FileTree} {n m dir : Id} {name : Name} {α : Type}

theorem obeys_edit {e : Edit} {Q : Unit → FileTree → Prop}
    (hpermits : s.Permits ctx e) (hplain : s.Plain e ∨ ctx.extra s e)
    (hQ : (s.apply e).Good ctx → Q () (s.apply e)) :
    (edit e).Obeys ctx.discipline s Q := by
  apply Obeys.change
  · exact fun h => .step hpermits hplain (.refl _)
  · exact fun h => hQ (h.apply hpermits)

theorem bind_edit {e : Edit} {f : Unit → Fs α} {Q : α → FileTree → Prop}
    (hpermits : s.Permits ctx e) (hplain : s.Plain e ∨ ctx.extra s e)
    (hf : (s.apply e).Good ctx →
      (f ()).Obeys ctx.discipline (s.apply e) Q) :
    (edit e >>= f).Obeys ctx.discipline s Q := by
  intro h r s' hrun
  have hgood := h.apply hpermits
  obtain ⟨hchain, hval⟩ := hf hgood hgood r s' hrun
  exact ⟨.step hpermits hplain hchain, hval⟩

theorem bind_deref {f : Node → Fs α} {Q : α → FileTree → Prop}
    (hf : ∀ node, s.nodes n = some node →
      (f node).Obeys ctx.discipline s Q) :
    (deref n >>= f).Obeys ctx.discipline s Q := by
  intro h r s' hrun
  rw [bind_apply] at hrun
  unfold deref at hrun
  cases hnode : s.nodes n with
  | none =>
      rw [hnode] at hrun
      cases hrun
  | some node =>
      rw [hnode] at hrun
      exact hf node hnode h r s' hrun

/-- A request only takes time. -/
theorem bind_request {β : Type} {env : Env} {req : Req β} {f : β → Fs α}
    {Q : α → FileTree → Prop}
    (hf : ∀ b, env.answer s.tick req = .ok b →
      (s.apply (.clock (env.delay s.tick))).Good ctx →
      (f b).Obeys ctx.discipline (s.apply (.clock (env.delay s.tick))) Q) :
    (request env req >>= f).Obeys ctx.discipline s Q := by
  unfold request
  simp only [bind_assoc]
  apply Obeys.bind_state
  refine bind_edit (by exact trivial) (.inl (by exact trivial)) ?_
  intro hgood
  exact Obeys.bind_ofExcept fun b hb => hf b hb hgood

theorem bind_request_outcome {β : Type} {env : Env} {req : Req β}
    {f : Except Errc β → Fs α} {Q : α → FileTree → Prop}
    (hf : (s.apply (.clock (env.delay s.tick))).Good ctx →
      (f (env.answer s.tick req)).Obeys ctx.discipline
        (s.apply (.clock (env.delay s.tick))) Q) :
    ((request env req).outcome >>= f).Obeys ctx.discipline s Q := by
  intro h r s' hrun
  have hpermits : s.Permits ctx (.clock (env.delay s.tick)) := trivial
  have hgood := h.apply hpermits
  have hout := outcome_apply (request_apply env req s)
  rw [bind_of_ok hout] at hrun
  obtain ⟨hchain, hval⟩ := hf hgood hgood r s' hrun
  exact ⟨.step hpermits (.inl trivial) hchain, hval⟩

end Fs

end Madbfs
