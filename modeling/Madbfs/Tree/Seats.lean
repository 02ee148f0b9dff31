/-
The handles and the nodes they point to.  A handle is made for a regular file
of the tree, and a node that is replaced, unlinked or replaced by `rename` has
its handles erased.  The prune loop of `readdir`, and `rename` for what is below
the node it replaces, erase none.
-/
import Madbfs.Tree.Tidy
import Madbfs.Tree.Rename

namespace Madbfs

namespace FileTree

variable {watched : Prop} {s t : FileTree} {n m dir : Id} {name : Name}
  {hands hands' : List Id} {e : Edit}

/-- A handle points to the node. -/
def Opened (s : FileTree) (n : Id) : Prop :=
  ∃ handle ∈ s.handles, handle.node = some n

/-- The variant of a node. -/
def kind (s : FileTree) (n : Id) : Option (Option FileType) :=
  (s.nodes n).map fun node => node.file.type

/-- Handles point to regular files. -/
def Seated (s : FileTree) : Prop :=
  ∀ n, s.Opened n → s.kind n = some (some .regular)

/-- The nodes are where they belong, and where the handles are watched, so are
they. -/
structure Sound (watched : Prop) (s : FileTree) (hands : List Id) : Prop where
  tidy : s.Tidy hands
  seated : watched → s.Seated

theorem kind_eq {node : Node} (hnode : s.nodes n = some node) :
    s.kind n = some node.file.type := by
  rw [kind, hnode]
  rfl

theorem isSome_kind : (s.kind n).isSome = (s.nodes n).isSome := by
  rw [kind, Option.isSome_map]

theorem Seated.isSome (h : s.Seated) (hopened : s.Opened n) :
    (s.nodes n).isSome := by
  rw [← isSome_kind, h n hopened]
  rfl

/-- Fewer handles, on nodes that have kept their variants. -/
theorem Seated.keep (h : s.Seated)
    (hopened : ∀ n, t.Opened n → s.Opened n)
    (hkind : ∀ n, t.Opened n → t.kind n = s.kind n) : t.Seated :=
  fun n hn => (hkind n hn).trans (h n (hopened n hn))

theorem opened_congr (hhandles : t.handles = s.handles) :
    t.Opened n ↔ s.Opened n := by
  unfold Opened
  rw [hhandles]

theorem kind_modify {f : Node → Node}
    (hf : ∀ node, (f node).file.type = node.file.type) :
    (s.modify n f).kind m = s.kind m := by
  unfold kind
  rw [nodes_modify]
  split_ifs with hm
  · subst hm
    cases s.nodes m with
    | none => rfl
    | some node => exact congrArg some (hf node)
  · rfl

theorem kind_expireNodes {ns : List Id} {time : Option Nat} :
    (s.expireNodes ns time).kind m = s.kind m := by
  unfold kind expireNodes
  dsimp only
  split_ifs
  · cases s.nodes m <;> rfl
  · rfl

/-- The changes that keep variants. -/
def Edit.keepsKind : Edit → Bool
  | .alloc _ _ | .destroy _ | .convert _ _ _ => false
  | _ => true

theorem kind_apply (he : Edit.keepsKind e = true) :
    (s.apply e).kind m = s.kind m := by
  cases e with
  | alloc | destroy | convert => cases he
  | attach dir n =>
      rw [apply, FileTree.attach]
      split
      · rfl
      · exact kind_modify fun node => File.type_setChildren _ _
  | detach dir name => exact kind_modify fun node => File.type_setChildren _ _
  | setSynced n synced => exact kind_modify fun node => File.type_setSynced _ _
  | setDirty n dirty => exact kind_modify fun node => File.type_setDirty _ _
  | setTarget n target => exact kind_modify fun node => File.type_setTarget _ _
  | setName | setParent | setStat | expire => exact kind_modify fun node => rfl
  | expireAll ns time => exact kind_expireNodes
  | setTtl ttl ns => exact kind_expireNodes
  | clock | store | release | eraseHandles | cache | markInitialized => rfl

/-- The changes that make no handle. -/
def Edit.opensNone : Edit → Bool
  | .store _ => false
  | _ => true

theorem opened_apply (he : Edit.opensNone e = true)
    (hopened : (s.apply e).Opened n) : s.Opened n := by
  obtain ⟨handle, hmem, hnode⟩ := hopened
  cases e with
  | store handle => cases he
  | release fd =>
      rcases FileHandleStore.mem_release hmem with rfl | hold
      · cases hnode
      · exact ⟨handle, hold, hnode⟩
  | eraseHandles k =>
      obtain ⟨old, hold, rfl⟩ := List.mem_map.mp hmem
      split_ifs at hnode
      exact ⟨old, hold, hnode⟩
  | attach dir k =>
      rw [handles_attach] at hmem
      exact ⟨handle, hmem, hnode⟩
  | _ => exact ⟨handle, hmem, hnode⟩

/-- After `erase` no handle points to the node. -/
theorem opened_erase : ¬(s.apply (.eraseHandles n)).Opened n := by
  rintro ⟨handle, hmem, hnode⟩
  obtain ⟨old, hold, rfl⟩ := List.mem_map.mp hmem
  split_ifs at hnode with heq
  exact heq hnode

theorem Seated.apply (h : s.Seated) (hkind : Edit.keepsKind e = true)
    (hopens : Edit.opensNone e = true) : (s.apply e).Seated :=
  h.keep (fun _ => opened_apply hopens) fun _ _ => kind_apply hkind

/-- The changes that touch neither shape nor handles nor variants. -/
def Edit.isQuiet (e : Edit) : Bool :=
  Edit.keepsShape e && Edit.keepsKind e && Edit.opensNone e

theorem Sound.apply (h : s.Sound watched hands) (he : Edit.isQuiet e = true) :
    (s.apply e).Sound watched hands := by
  simp only [Edit.isQuiet, Bool.and_eq_true] at he
  exact ⟨h.tidy.congr (sameShape_apply he.1.1),
    fun hw => (h.seated hw).apply he.1.2 he.2⟩

/-- Only the cache has changed. -/
theorem Sound.recache (h : s.Sound watched hands)
    (hsame : t = { s with cache := t.cache }) : t.Sound watched hands := by
  have hshape : SameShape s t := by
    rw [hsame]
    exact ⟨rfl, rfl, fun _ => rfl⟩
  refine ⟨h.tidy.congr hshape,
    fun hw => (h.seated hw).keep (fun n hn => ?_) fun n _ => ?_⟩
  · rw [hsame] at hn
    exact hn
  · rw [hsame]
    rfl

theorem Sound.store (h : s.Sound watched hands) {handle : FileHandle}
    (hnode : handle.node = some n) (hkind : s.kind n = some (some .regular)) :
    (s.apply (.store handle)).Sound watched hands := by
  refine ⟨h.tidy.congr (sameShape_apply rfl), fun hw m hm => ?_⟩
  obtain ⟨other, hmem, hpoints⟩ := hm
  rcases FileHandleStore.mem_store hmem with rfl | rfl | hold
  · cases hnode.symm.trans hpoints
    exact hkind
  · cases hpoints
  · exact h.seated hw m ⟨other, hold, hpoints⟩

theorem Sound.alloc (h : s.Sound watched hands) {node : Node}
    (hfile : node.file.children = []) :
    (s.apply (.alloc ⟨s.nextId + 1⟩ node)).Sound watched (⟨s.nextId + 1⟩ :: hands) := by
  refine ⟨h.tidy.alloc hfile, fun hw m hm => ?_⟩
  have hopened : s.Opened m := hm
  have hne := h.tidy.wf.fresh ((h.seated hw).isSome hopened)
  rw [kind, show (s.apply (.alloc ⟨s.nextId + 1⟩ node)).nodes m = s.nodes m from
    Function.update_of_ne hne _ _]
  exact h.seated hw m hopened

theorem Sound.detach (h : s.Sound watched hands) (hdir : s.InTree dir)
    (hmem : (name, n) ∈ s.children dir) :
    (s.apply (.detach dir name)).Sound watched (n :: hands) :=
  ⟨h.tidy.detach hdir hmem, fun hw => (h.seated hw).apply rfl rfl⟩

theorem Sound.destroy_all (h : s.Sound watched hands) {roots : List Id}
    (hroots : ∀ r ∈ roots, r ∈ hands)
    (hrest : ∀ k, k ∈ hands' ↔ k ∈ hands ∧ k ∉ roots)
    (hclosed : watched → ∀ m ∈ roots.flatMap s.walk, ¬s.Opened m) :
    (s.apply (.destroy (roots.flatMap s.walk))).Sound watched hands' := by
  refine ⟨h.tidy.destroy_all hroots hrest, fun hw m hm => ?_⟩
  have hopened : s.Opened m := hm
  have hnot : m ∉ roots.flatMap s.walk := fun hmem =>
    hclosed hw m hmem hopened
  rw [kind, show (s.apply (.destroy (roots.flatMap s.walk))).nodes m =
    s.nodes m from if_neg hnot]
  exact h.seated hw m hopened

theorem Sound.destroy (h : s.Sound watched hands) (hn : n ∈ hands)
    (hrest : ∀ k, k ∈ hands' ↔ k ∈ hands ∧ k ≠ n)
    (hclosed : watched → ∀ m, s.Below n m → ¬s.Opened m) :
    (s.apply (.destroy (s.walk n))).Sound watched hands' := by
  refine ⟨h.tidy.destroy hn hrest, fun hw m hm => ?_⟩
  have hopened : s.Opened m := hm
  have hnot : m ∉ s.walk n := by
    intro hmem
    obtain ⟨a, ha, hbelow⟩ := Forest.below_of_mem_visit hmem
    rw [List.mem_singleton.mp ha] at hbelow
    exact hclosed hw m hbelow hopened
  rw [kind, show (s.apply (.destroy (s.walk n))).nodes m = s.nodes m from
    if_neg hnot]
  exact h.seated hw m hopened

/-- A node without children is destroyed alone. -/
theorem below_leaf (hleaf : s.children n = []) (hbelow : s.Below n m) :
    m = n := by
  rcases Relation.ReflTransGen.cases_head hbelow with heq | ⟨c, hmem, -⟩
  · exact heq.symm
  · obtain ⟨name, hchild⟩ := mem_successors.mp hmem
    rw [hleaf] at hchild
    cases hchild

/-- No handle points below a child of the directory whose name is not among
these. -/
def Spared (s : FileTree) (dir : Id) (names : List Name) : Prop :=
  ∀ name c, (name, c) ∈ s.children dir → name ∉ names →
    ∀ m, s.Below c m → ¬s.Opened m

/-- There are no new children and no new handles. -/
structure Shrinks (s t : FileTree) : Prop where
  children : ∀ k, ∀ e ∈ t.children k, e ∈ s.children k
  opened : ∀ m, t.Opened m → s.Opened m

theorem Shrinks.trans {u : FileTree} (hleft : Shrinks s t)
    (hright : Shrinks t u) : Shrinks s u where
  children := fun k e he => hleft.children k e (hright.children k e he)
  opened := fun m hm => hleft.opened m (hright.opened m hm)

theorem shrinks_quiet (he : Edit.isQuiet e = true) : Shrinks s (s.apply e) := by
  simp only [Edit.isQuiet, Bool.and_eq_true] at he
  refine ⟨fun k d hd => ?_, fun m hm => opened_apply he.2 hm⟩
  rwa [(sameShape_apply he.1.1).children] at hd

theorem shrinks_destroy {ns : List Id} :
    Shrinks s (s.apply (.destroy ns)) where
  children := by
    intro k d hd
    rw [children_destroy] at hd
    split_ifs at hd
    · cases hd
    · exact hd
  opened := fun _ hm => hm

theorem shrinks_detach : Shrinks s (s.apply (.detach dir name)) where
  children := by
    intro k d hd
    rw [children_detach] at hd
    split_ifs at hd with hk
    · rw [hk]
      exact List.mem_of_mem_filter hd
    · exact hd
  opened := fun _ hm => hm

theorem Spared.shrink {names : List Name} (h : s.Spared dir names)
    (hshrinks : Shrinks s t) : t.Spared dir names := by
  intro name c hmem hname m hbelow hopened
  exact h name c (hshrinks.children dir _ hmem) hname m
    (below_of_children_subset hshrinks.children hbelow)
    (hshrinks.opened m hopened)

/-- The entry that the cache has for a node. -/
def entry (s : FileTree) (n : Id) : Option LookupEntry :=
  s.cache.bind fun c => c.lookup n

/-- The nodes whose handles `mutate_and_invalidate` erases. -/
def cleared (s : FileTree) (n : Id) (file : File) : List Id :=
  match file with
  | .directory _ _ => s.dropped file ++ [n]
  | .regular _ => [n]
  | _ => []

/-- The nodes whose entries `mutate_and_invalidate` takes out of the cache. -/
def uncached (s : FileTree) (n : Id) (file : File) : List Id :=
  match file with
  | .directory _ _ => s.dropped file
  | .regular _ => [n]
  | _ => []

end FileTree

theorem FileHandleStore.mem_erase_all {s : FileHandleStore} {ns : List Id}
    {handle : FileHandle} {n : Id} (hmem : handle ∈ ns.foldl erase s)
    (hnode : handle.node = some n) : handle ∈ s ∧ n ∉ ns := by
  induction ns generalizing s with
  | nil => exact ⟨hmem, List.not_mem_nil⟩
  | cons k rest ih =>
      obtain ⟨hold, hrest⟩ := ih hmem
      obtain ⟨old, hmem', heq⟩ := List.mem_map.mp hold
      split_ifs at heq with hk
      · rw [← heq] at hnode
        cases hnode
      · subst heq
        refine ⟨hmem', fun hn => ?_⟩
        rcases List.mem_cons.mp hn with rfl | hn
        · exact hk hnode
        · exact hrest hn

namespace FileTree

/-- The cache has lost the entries of these nodes and no others. -/
structure Forgets (s s' : FileTree) (ns : List Id) : Prop where
  gone : ∀ id ∈ ns, s'.entry id = none
  kept : ∀ id, id ∉ ns → s'.entry id = s.entry id

theorem Forgets.refl (s : FileTree) : Forgets s s [] where
  gone := fun _ hid => absurd hid List.not_mem_nil
  kept := fun _ _ => rfl

end FileTree

namespace Fs

open Program FileTree

variable {watched : Prop} {s s' : FileTree} {n m dir : Id} {name : Name}
  {node : Node}

theorem invalidateOne_effect {r : Except Errc Unit}
    (hrun : invalidateOne n s = some (r, s')) :
    r = .ok () ∧ s' = { s with cache := s'.cache } ∧ Forgets s s' [n] := by
  unfold invalidateOne at hrun
  rw [bind_of_ok (state_apply s)] at hrun
  cases hcache : s.cache with
  | none =>
      rw [hcache] at hrun
      cases hrun
      refine ⟨rfl, rfl, fun id _ => ?_, fun id _ => rfl⟩
      rw [entry, hcache]
      rfl
  | some c =>
      rw [hcache] at hrun
      dsimp only at hrun
      have hextract : ∀ c', c.extract n = (c', .done ()) →
          c'.lookup n = none ∧ ∀ id, id ≠ n → c'.lookup id = c.lookup id := by
        intro c' hextract
        unfold Cache.extract at hextract
        cases hentry : c.lookup n with
        | none =>
            rw [hentry] at hextract
            cases hextract
            exact ⟨hentry, fun id _ => rfl⟩
        | some old =>
            rw [hentry] at hextract
            dsimp only at hextract
            split_ifs at hextract
            · cases hextract
              exact ⟨AList.lookup_erase n c.table,
                fun id hid => AList.lookup_erase_ne hid⟩
            · cases hextract
      cases hx : c.extract n with
      | mk c' flow =>
          rw [hx] at hrun
          cases flow with
          | done u =>
              cases hrun
              obtain ⟨hgone, hkept⟩ := hextract c' hx
              refine ⟨rfl, rfl, fun id hid => ?_, fun id hid => ?_⟩
              · rw [List.mem_singleton.mp hid]
                exact hgone
              · rw [entry, entry, hcache]
                exact hkept id fun heq => hid (List.mem_singleton.mpr heq)
          | _ => cases hrun

theorem forEach_eraseHandles (ns : List Id) (s : FileTree) :
    forEach (fun m => edit (.eraseHandles m)) ns s = some (.ok (),
      { s with handles := ns.foldl FileHandleStore.erase s.handles }) := by
  induction ns generalizing s with
  | nil => rfl
  | cons k rest ih =>
      rw [forEach, bind_of_ok (edit_apply _ _), ih]
      rfl

theorem forEach_invalidateOne {ns : List Id} {r : Except Errc Unit}
    (hrun : forEach invalidateOne ns s = some (r, s')) :
    r = .ok () ∧ s' = { s with cache := s'.cache } ∧ Forgets s s' ns := by
  induction ns generalizing s with
  | nil =>
      cases hrun
      exact ⟨rfl, rfl, .refl _⟩
  | cons k rest ih =>
      rcases bind_cases hrun with ⟨err, hone, -⟩ | ⟨u, s₁, hone, hrest⟩
      · cases (invalidateOne_effect hone).1
      obtain ⟨-, hsame, hentry⟩ := invalidateOne_effect hone
      obtain ⟨hr, hsame', hentry'⟩ := ih hrest
      refine ⟨hr, ?_, fun id hid => ?_, fun id hid => ?_⟩
      · rw [hsame', hsame]
      · by_cases hrest : id ∈ rest
        · exact hentry'.gone id hrest
        · rw [hentry'.kept id hrest]
          refine hentry.gone id (List.mem_singleton.mpr ?_)
          exact (List.mem_cons.mp hid).resolve_right hrest
      · rw [List.mem_cons, not_or] at hid
        rw [hentry'.kept id hid.2]
        exact hentry.kept id fun heq => hid.1 (List.mem_singleton.mp heq)

/-- What the end of `mutate_and_invalidate` does. -/
theorem invalidate_effect {file : File} {r : Except Errc Unit}
    (hrun : invalidate n file s = some (r, s')) :
    r = .ok () ∧
      s' = { s.apply (.destroy (s.dropped file)) with
        cache := s'.cache
        handles := (s.cleared n file).foldl FileHandleStore.erase s.handles } ∧
      Forgets s s' (s.uncached n file) := by
  cases file with
  | directory children synced =>
      rw [invalidate, bind_of_ok (state_apply s),
        bind_of_ok (forEach_eraseHandles _ s)] at hrun
      rcases bind_cases hrun with ⟨err, hloop, -⟩ | ⟨u, s₁, hloop, hrest⟩
      · cases (forEach_invalidateOne hloop).1
      obtain ⟨-, hsame, hentry⟩ := forEach_invalidateOne hloop
      cases hrest
      refine ⟨rfl, ?_, hentry.gone, hentry.kept⟩
      rw [cleared, List.foldl_append, hsame]
      rfl
  | regular dirty =>
      rcases bind_cases hrun with ⟨err, hone, -⟩ | ⟨u, s₁, hone, hrest⟩
      · cases (invalidateOne_effect hone).1
      obtain ⟨-, hsame, hentry⟩ := invalidateOne_effect hone
      cases hrest
      refine ⟨rfl, ?_, hentry.gone, hentry.kept⟩
      rw [show s.dropped (.regular dirty) = [] from rfl, apply_destroy_nil,
        hsame]
      rfl
  | link | other | error =>
      cases hrun
      refine ⟨rfl, ?_, .refl s⟩
      exact s.apply_destroy_nil.symm

theorem dropped_eq (file : File) :
    s.dropped file = (file.children.map Prod.snd).flatMap s.walk := by
  cases file with
  | directory children synced => exact (List.flatMap_map _ _ _).symm
  | _ => rfl

/-- What has no handle any more when a node has got another value. -/
theorem not_cleared {file : File} (h : n ∉ s.cleared m file)
    (hn : n = m → file.type = some .regular) :
    n ≠ m ∧ n ∉ s.dropped file := by
  cases file with
  | directory children synced =>
      rw [cleared, List.mem_append, not_or] at h
      exact ⟨fun heq => h.2 (List.mem_singleton.mpr heq), h.1⟩
  | regular dirty =>
      exact ⟨fun heq => h (List.mem_singleton.mpr heq), List.not_mem_nil⟩
  | link | other | error =>
      refine ⟨fun heq => ?_, List.not_mem_nil⟩
      cases hn heq

/-- A node of the tree gets another value. -/
theorem convert_sound {stat : Stat} {file : File} {r : Except Errc Unit}
    (h : s.Sound watched []) (hnode : s.nodes n = some node) (hn : n ≠ s.root)
    (hfile : file.children = [])
    (hrun : (edit (.convert n stat file) >>= fun _ =>
      invalidate n node.file : Fs Unit) s = some (r, s')) :
    s'.Sound watched [] := by
  set s₁ := s.apply (.convert n stat file) with hs₁
  rw [bind_of_ok (edit_apply _ _), ← hs₁] at hrun
  obtain ⟨-, hsame, -⟩ := invalidate_effect hrun
  have hin : s.InTree n := by
    rcases h.tidy.placed n (by rw [hnode]; rfl) with hin | ⟨k, hk, -⟩
    · exact hin
    · cases hk
  have htidy : (s₁.apply (.destroy (s₁.dropped node.file))).Tidy [] := by
    rw [dropped_eq, ← children_of_nodes hnode]
    refine (h.tidy.convert hn hfile hin).destroy_all (fun r hr => hr) ?_
    intro k
    simp
  have hshape : SameShape (s₁.apply (.destroy (s₁.dropped node.file))) s' := by
    rw [hsame]
    exact ⟨rfl, rfl, fun _ => rfl⟩
  refine ⟨htidy.congr hshape, fun hw m hm => ?_⟩
  obtain ⟨handle, hmem, hpoints⟩ := hm
  rw [hsame] at hmem
  obtain ⟨hold, hnot⟩ := FileHandleStore.mem_erase_all hmem hpoints
  have hkind := h.seated hw m ⟨handle, hold, hpoints⟩
  obtain ⟨hne, hkept⟩ := not_cleared hnot (by
    rintro rfl
    rw [kind_eq hnode] at hkind
    exact Option.some.inj hkind)
  rw [kind, hsame]
  change ((if m ∈ s₁.dropped node.file then none else s₁.nodes m).map _) = _
  rw [if_neg hkept, hs₁, FileTree.apply, nodes_modify, if_neg hne]
  exact hkind

end Fs

end Madbfs
