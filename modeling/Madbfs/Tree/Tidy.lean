/-
The nodes there are belong to the tree.  While an operation runs it has a few
nodes in its hands: those it has made and not put into the tree yet, and those
it has taken out; what is below them is not in the tree either.
-/
import Madbfs.Tree.Runs

namespace Madbfs

namespace FileTree

variable {s t : FileTree} {n m dir a : Id} {name : Name} {hands hands' : List Id}

/-- Every node is in the tree, or below a node that is in hand. -/
structure Tidy (s : FileTree) (hands : List Id) : Prop where
  wf : s.WellFormed
  placed : ∀ m, (s.nodes m).isSome →
    s.InTree m ∨ ∃ n ∈ hands, s.Below n m
  held : ∀ n ∈ hands, (s.nodes n).isSome ∧ s.Unlisted n ∧ n ≠ s.root

/-- Subtrees keep the nodes for which all steps on the way stay. -/
theorem below_kept {P : Id → Prop}
    (hup : ∀ dir name c, (name, c) ∈ s.children dir → P c → P dir)
    (hkeep : ∀ dir name c, (name, c) ∈ s.children dir → P c →
      (name, c) ∈ t.children dir)
    (hbelow : s.Below a m) (hm : P m) : t.Below a m := by
  induction hbelow with
  | refl => exact .refl
  | tail hdir hmem ih =>
      obtain ⟨name, hchild⟩ := mem_successors.mp hmem
      exact Below.child (ih (hup _ _ _ hchild hm)) (hkeep _ _ _ hchild hm)

/-- A subtree whose steps all stay is still there. -/
theorem below_stays
    (hkeep : ∀ dir name c, s.Below a dir → (name, c) ∈ s.children dir →
      (name, c) ∈ t.children dir)
    (hbelow : s.Below a m) : t.Below a m := by
  induction hbelow with
  | refl => exact .refl
  | tail hdir hmem ih =>
      obtain ⟨name, hchild⟩ := mem_successors.mp hmem
      exact Below.child ih (hkeep _ _ _ hdir hchild)

/-- A node that is listed nowhere is below no other one. -/
theorem Unlisted.of_below (h : s.Unlisted n) (hbelow : s.Below a n) :
    a = n := by
  rcases Relation.ReflTransGen.cases_tail hbelow with heq | ⟨p, -, hmem⟩
  · exact heq.symm
  · obtain ⟨name, hchild⟩ := mem_successors.mp hmem
    exact absurd hchild (h p name)

/-- What is in the tree is below no node that is in hand. -/
theorem Tidy.not_below (h : s.Tidy hands) (hn : n ∈ hands)
    (hm : s.InTree m) : ¬s.Below n m := by
  intro hbelow
  obtain ⟨-, hunlisted, hroot⟩ := h.held n hn
  rcases Forest.Below.total h.wf.isForest hm hbelow with hup | hdown
  · exact hroot (hunlisted.of_below hup).symm
  · exact hroot (h.wf.unlisted_root.of_below hdown)

/-- The same nodes with the same children. -/
theorem Tidy.of_children (h : s.Tidy hands) (hwf : t.WellFormed)
    (hroot : t.root = s.root)
    (hlive : ∀ m, (t.nodes m).isSome = (s.nodes m).isSome)
    (hchildren : ∀ m, t.children m = s.children m) : t.Tidy hands where
  wf := hwf
  placed := by
    have hsucc : t.successors = s.successors := by
      funext m
      rw [successors, successors, hchildren]
    intro m hm
    rw [hlive] at hm
    rw [InTree, Below, hsucc, hroot]
    exact h.placed m hm
  held := by
    intro n hn
    obtain ⟨hsome, hunlisted, hne⟩ := h.held n hn
    rw [hlive, hroot]
    refine ⟨hsome, fun dir name hmem => ?_, hne⟩
    rw [hchildren] at hmem
    exact hunlisted dir name hmem

theorem SameShape.isSome (h : SameShape s t) (m : Id) :
    (t.nodes m).isSome = (s.nodes m).isSome := by
  have hsome := congrArg Option.isSome (h.nodes m)
  rwa [Option.isSome_map, Option.isSome_map] at hsome

theorem Tidy.congr (h : s.Tidy hands) (hshape : SameShape s t) :
    t.Tidy hands :=
  h.of_children (h.wf.congr hshape) hshape.root hshape.isSome hshape.children

/-- The place of a node that may be in use from now on. -/
theorem WellFormed.fresh (h : s.WellFormed) (hlive : (s.nodes n).isSome) :
    n ≠ ⟨s.nextId + 1⟩ := by
  rintro rfl
  obtain ⟨node, hnode⟩ := Option.isSome_iff_exists.mp hlive
  exact absurd (h.known hnode) (Nat.not_succ_le_self _)

theorem isSome_of_mem (hmem : (name, n) ∈ s.children dir) :
    (s.nodes dir).isSome := by
  obtain ⟨node, hnode, -⟩ := mem_children.mp hmem
  rw [hnode]
  rfl

theorem WellFormed.isSome_child (h : s.WellFormed)
    (hmem : (name, n) ∈ s.children dir) : (s.nodes n).isSome := by
  obtain ⟨node, hnode, -⟩ := h.listed hmem
  rw [hnode]
  rfl

/-- With nothing in hand, every node is in the tree. -/
theorem Tidy.inTree (h : s.Tidy []) (hlive : (s.nodes n).isSome) :
    s.InTree n := by
  rcases h.placed n hlive with hin | ⟨k, hk, -⟩
  · exact hin
  · cases hk

/-- A node of the tree that has a parent is listed there. -/
theorem Tidy.mem_of_label (h : s.Tidy hands)
    (hlabel : s.label n = some (name, some dir)) (hin : s.InTree n) :
    (name, n) ∈ s.children dir := by
  rcases hin.cases with rfl | ⟨d, nm, -, hmem⟩
  · cases h.wf.label_root.symm.trans hlabel
  · cases (h.wf.label hmem).symm.trans hlabel
    exact hmem

theorem WellFormed.isSome_of_inTree (h : s.WellFormed) (hin : s.InTree n) :
    (s.nodes n).isSome := by
  rcases hin.cases with rfl | ⟨d, nm, -, hmem⟩
  · obtain ⟨root, hroot, -⟩ := h.root
    rw [hroot]
    rfl
  · exact h.isSome_child hmem

/-- A new node is in hand. -/
theorem Tidy.alloc (h : s.Tidy hands) {node : Node}
    (hfile : node.file.children = []) :
    (s.apply (.alloc ⟨s.nextId + 1⟩ node)).Tidy (⟨s.nextId + 1⟩ :: hands) := by
  have hchildren : ∀ k, (s.apply (.alloc ⟨s.nextId + 1⟩ node)).children k =
      if k = ⟨s.nextId + 1⟩ then [] else s.children k := by
    intro k
    rw [children_alloc, hfile]
  have hgrow : ∀ {a m : Id}, s.Below a m →
      (s.apply (.alloc ⟨s.nextId + 1⟩ node)).Below a m := by
    intro a m hbelow
    refine below_stays (fun k nm c _ hchild => ?_) hbelow
    rw [hchildren, if_neg (h.wf.fresh (isSome_of_mem hchild))]
    exact hchild
  have hsome : ∀ m, m ≠ ⟨s.nextId + 1⟩ →
      (s.apply (.alloc ⟨s.nextId + 1⟩ node)).nodes m = s.nodes m :=
    fun m hm => Function.update_of_ne hm _ _
  refine ⟨h.wf.alloc hfile, ?_, ?_⟩
  · intro m hm
    by_cases hnew : m = ⟨s.nextId + 1⟩
    · rw [hnew]
      exact .inr ⟨_, List.mem_cons_self, .refl⟩
    · rw [hsome m hnew] at hm
      rcases h.placed m hm with hin | ⟨k, hk, hbelow⟩
      · refine .inl ?_
        rw [InTree, root_apply]
        exact hgrow hin
      · exact .inr ⟨k, List.mem_cons_of_mem _ hk, hgrow hbelow⟩
  · intro k hk
    rw [root_apply]
    rcases List.mem_cons.mp hk with rfl | hk
    · refine ⟨?_, fun d nm hchild => ?_, ?_⟩
      · change (Function.update s.nodes _ (some node) _).isSome = true
        rw [Function.update_self]
        rfl
      · rw [hchildren] at hchild
        split_ifs at hchild
        · cases hchild
        · exact h.wf.fresh (h.wf.isSome_child hchild) rfl
      · obtain ⟨root, hroot, -⟩ := h.wf.root
        exact (h.wf.fresh (by rw [hroot]; rfl)).symm
    · obtain ⟨hlive, hun, hroot⟩ := h.held k hk
      refine ⟨?_, fun d nm hchild => ?_, hroot⟩
      · rw [hsome k (h.wf.fresh hlive)]
        exact hlive
      · rw [hchildren] at hchild
        split_ifs at hchild
        · cases hchild
        · exact hun d nm hchild

/-- A child is taken out of its directory. -/
theorem Tidy.detach (h : s.Tidy hands) (hdir : s.InTree dir)
    (hmem : (name, n) ∈ s.children dir) :
    (s.apply (.detach dir name)).Tidy (n :: hands) := by
  have hkeep : ∀ d nm c, (nm, c) ∈ s.children d → ¬(d = dir ∧ nm = name) →
      (nm, c) ∈ (s.apply (.detach dir name)).children d := by
    intro d nm c hchild hne
    rw [children_detach]
    split_ifs with hd
    · subst hd
      exact List.mem_filter.mpr ⟨hchild, by simpa using fun heq => hne ⟨rfl, heq⟩⟩
    · exact hchild
  have hother : ∀ {a m : Id}, s.Below a m → ¬s.Below n m →
      (s.apply (.detach dir name)).Below a m := by
    intro a m hbelow hm
    refine below_kept (P := fun m => ¬s.Below n m) ?_ ?_ hbelow hm
    · exact fun d nm c hchild hc hd => hc (hd.child hchild)
    · rintro d nm c hchild hc
      refine hkeep d nm c hchild ?_
      rintro ⟨rfl, rfl⟩
      rw [h.wf.same_child hmem hchild] at hc
      exact hc .refl
  have hown : ∀ {m : Id}, s.Below n m →
      (s.apply (.detach dir name)).Below n m := by
    intro m hbelow
    refine below_stays (fun d nm c hd hchild => hkeep d nm c hchild ?_) hbelow
    rintro ⟨rfl, rfl⟩
    exact hdir.not_below h.wf hmem hd
  have hsome : ∀ m, ((s.apply (.detach dir name)).nodes m).isSome =
      (s.nodes m).isSome := by
    intro m
    rw [← isSome_label, ← isSome_label, label_detach]
  have hunlisted : (s.apply (.detach dir name)).Unlisted n := by
    intro d nm hchild
    rw [children_detach] at hchild
    split_ifs at hchild with hd
    · obtain ⟨hold, hkept⟩ := List.mem_filter.mp hchild
      rw [(h.wf.listed_once hmem hold).1] at hkept
      simp at hkept
    · exact hd (h.wf.listed_once hmem hchild).2
  refine ⟨h.wf.detach, ?_, ?_⟩
  · intro m hm
    rw [hsome] at hm
    by_cases hbelow : s.Below n m
    · exact .inr ⟨n, List.mem_cons_self, hown hbelow⟩
    · rcases h.placed m hm with hin | ⟨k, hk, hb⟩
      · refine .inl ?_
        rw [InTree, root_apply]
        exact hother hin hbelow
      · exact .inr ⟨k, List.mem_cons_of_mem n hk, hother hb hbelow⟩
  · intro k hk
    rw [root_apply, hsome]
    rcases List.mem_cons.mp hk with rfl | hk
    · obtain ⟨node, hnode, -⟩ := h.wf.listed hmem
      exact ⟨by rw [hnode]; rfl, hunlisted, h.wf.ne_root hmem⟩
    · obtain ⟨hlive, hun, hroot⟩ := h.held k hk
      refine ⟨hlive, fun d nm hchild => ?_, hroot⟩
      rw [children_detach] at hchild
      split_ifs at hchild with hd
      · exact hun dir nm (List.mem_of_mem_filter hchild)
      · exact hun d nm hchild

/-- A node in hand is put into a directory of the tree. -/
theorem Tidy.attach (h : s.Tidy hands) {d node : Node}
    (hrest : ∀ k, k ∈ hands' ↔ k ∈ hands ∧ k ≠ n)
    (hd : s.nodes dir = some d) (hdirectory : d.file.isDirectory)
    (hdir : s.InTree dir) (hnode : s.nodes n = some node)
    (hparent : node.parent = some dir) (hvalid : ValidName node.name)
    (hname : node.name ∉ (s.children dir).map Prod.fst) :
    (s.apply (.attach dir n)).Tidy hands' := by
  have hwf := h.wf.attach hd hdirectory hnode hparent hvalid hname
  have hchildren : ∀ k, (s.apply (.attach dir n)).children k = _ :=
    fun k => children_attach hd hdirectory hnode
  have hgrow : ∀ {a m : Id}, s.Below a m →
      (s.apply (.attach dir n)).Below a m := by
    intro a m hbelow
    refine below_stays (fun k nm c _ hchild => ?_) hbelow
    rw [hchildren]
    split_ifs with hk
    · subst hk
      exact List.mem_append_left _ hchild
    · exact hchild
  have hin : (s.apply (.attach dir n)).InTree n := by
    have hdir' : (s.apply (.attach dir n)).InTree dir := by
      rw [InTree, root_apply]
      exact hgrow hdir
    have hmem : (node.name, n) ∈ (s.apply (.attach dir n)).children dir := by
      rw [hchildren, if_pos rfl]
      exact List.mem_append_right _ List.mem_cons_self
    exact Below.child hdir' hmem
  have hsome : ∀ m, ((s.apply (.attach dir n)).nodes m).isSome =
      (s.nodes m).isSome := by
    intro m
    rw [← isSome_label, ← isSome_label, label_attach]
  refine ⟨hwf, ?_, ?_⟩
  · intro m hm
    rw [hsome] at hm
    rcases h.placed m hm with hm | ⟨k, hk, hbelow⟩
    · refine .inl ?_
      rw [InTree, root_apply]
      exact hgrow hm
    · by_cases hkn : k = n
      · rw [hkn] at hbelow
        exact .inl (hin.trans (hgrow hbelow))
      · exact .inr ⟨k, (hrest k).mpr ⟨hk, hkn⟩, hgrow hbelow⟩
  · intro k hk
    obtain ⟨hk, hkn⟩ := (hrest k).mp hk
    obtain ⟨hlive, hun, hroot⟩ := h.held k hk
    rw [hsome, root_apply]
    refine ⟨hlive, fun e nm hchild => ?_, hroot⟩
    rw [hchildren] at hchild
    split_ifs at hchild with he
    · rcases List.mem_append.mp hchild with hold | hnew
      · exact hun dir nm hold
      · cases List.mem_singleton.mp hnew
        exact hkn rfl
    · exact hun e nm hchild

/-- Nodes in hand are destroyed with all that is below them. -/
theorem Tidy.destroy_all (h : s.Tidy hands) {roots : List Id}
    (hroots : ∀ r ∈ roots, r ∈ hands)
    (hrest : ∀ k, k ∈ hands' ↔ k ∈ hands ∧ k ∉ roots) :
    (s.apply (.destroy (roots.flatMap s.walk))).Tidy hands' := by
  set ns := roots.flatMap s.walk with hns
  have hwalk : ∀ m, m ∈ ns ↔ ∃ r ∈ roots, s.Below r m := by
    intro m
    rw [hns, List.mem_flatMap]
    refine exists_congr fun r => and_congr_right fun hr => ?_
    obtain ⟨hlive, hunlisted, -⟩ := h.held r (hroots r hr)
    obtain ⟨node, hnode⟩ := Option.isSome_iff_exists.mp hlive
    exact h.wf.mem_walk hunlisted (h.wf.known hnode)
  have hdown : ∀ {a m : Id}, s.Below a m → a ∈ ns → m ∈ ns := by
    intro a m hbelow ha
    obtain ⟨r, hr, hra⟩ := (hwalk a).mp ha
    exact (hwalk m).mpr ⟨r, hr, hra.trans hbelow⟩
  have hkept : ∀ {a m : Id}, s.Below a m → m ∉ ns →
      (s.apply (.destroy ns)).Below a m := by
    intro a m hbelow hm
    refine below_kept (P := fun m => m ∉ ns) ?_ ?_ hbelow hm
    · exact fun d nm c hchild hc hd => hc (hdown (Below.child .refl hchild) hd)
    · intro d nm c hchild hc
      rw [children_destroy,
        if_neg fun hd => hc (hdown (Below.child .refl hchild) hd)]
      exact hchild
  have hhands : ∀ k ∈ hands, k ∈ ns ↔ k ∈ roots := by
    intro k hk
    rw [hwalk]
    constructor
    · rintro ⟨r, hr, hbelow⟩
      rw [← (h.held k hk).2.1.of_below hbelow]
      exact hr
    · exact fun hr => ⟨k, hr, .refl⟩
  have hnodes : ∀ m, (s.apply (.destroy ns)).nodes m =
      if m ∈ ns then none else s.nodes m := fun m => rfl
  have hroot : s.root ∉ ns := by
    intro hmem
    obtain ⟨r, hr, hbelow⟩ := (hwalk _).mp hmem
    exact (h.held r (hroots r hr)).2.2 (h.wf.unlisted_root.of_below hbelow)
  have hclosed : ∀ {d nm c}, (nm, c) ∈ s.children d → c ∈ ns → d ∈ ns := by
    intro d nm c hchild hmem
    obtain ⟨r, hr, hbelow⟩ := (hwalk c).mp hmem
    refine (hwalk d).mpr ⟨r, hr, ?_⟩
    rcases Relation.ReflTransGen.cases_tail hbelow with rfl | ⟨p, hp, hlist⟩
    · exact absurd hchild ((h.held _ (hroots _ hr)).2.1 d nm)
    · obtain ⟨key, hlist⟩ := mem_successors.mp hlist
      rw [(h.wf.listed_once hlist hchild).2]
      exact hp
  refine ⟨h.wf.destroy hroot hclosed, ?_, ?_⟩
  · intro m hm
    rw [hnodes] at hm
    split_ifs at hm with hmem
    · cases hm
    · rcases h.placed m hm with hin | ⟨k, hk, hbelow⟩
      · exact .inl (hkept hin hmem)
      · have hkeep : k ∉ roots := fun hr =>
          hmem (hdown hbelow ((hhands k hk).mpr hr))
        exact .inr ⟨k, (hrest k).mpr ⟨hk, hkeep⟩, hkept hbelow hmem⟩
  · intro k hk
    obtain ⟨hk, hnot⟩ := (hrest k).mp hk
    obtain ⟨hlive, hun, hroot⟩ := h.held k hk
    refine ⟨?_, fun d nm hchild => ?_, hroot⟩
    · rw [hnodes, if_neg fun hmem => hnot ((hhands k hk).mp hmem)]
      exact hlive
    · rw [children_destroy] at hchild
      split_ifs at hchild
      · cases hchild
      · exact hun d nm hchild

theorem Tidy.destroy (h : s.Tidy hands) (hn : n ∈ hands)
    (hrest : ∀ k, k ∈ hands' ↔ k ∈ hands ∧ k ≠ n) :
    (s.apply (.destroy (s.walk n))).Tidy hands' := by
  have hall : (s.apply (.destroy ([n].flatMap s.walk))).Tidy hands' := by
    apply h.destroy_all
    · intro r hr
      rw [List.mem_singleton.mp hr]
      exact hn
    · intro k
      rw [hrest, List.mem_singleton]
  rwa [List.flatMap_singleton] at hall

/-- A node gets another value, and its children are in hand. -/
theorem Tidy.convert (h : s.Tidy []) {stat : Stat} {file : File}
    (hn : n ≠ s.root) (hfile : file.children = []) (hin : s.InTree n) :
    (s.apply (.convert n stat file)).Tidy ((s.children n).map Prod.snd) := by
  have hchildren : ∀ k, (s.apply (.convert n stat file)).children k =
      if k = n then [] else s.children k := fun k => children_convert hfile
  have hsome : ∀ m, ((s.apply (.convert n stat file)).nodes m).isSome =
      (s.nodes m).isSome := by
    intro m
    rw [← isSome_label, ← isSome_label, label_convert]
  have hother : ∀ {a m : Id}, s.Below a m →
      (¬∃ e ∈ s.children n, s.Below e.2 m) →
      (s.apply (.convert n stat file)).Below a m := by
    intro a m hbelow hm
    refine below_kept (P := fun m => ¬∃ e ∈ s.children n, s.Below e.2 m)
      ?_ ?_ hbelow hm
    · rintro d nm c hchild hc ⟨e, he, hd⟩
      exact hc ⟨e, he, hd.child hchild⟩
    · rintro d nm c hchild hc
      rw [hchildren, if_neg]
      · exact hchild
      · rintro rfl
        exact hc ⟨(nm, c), hchild, .refl⟩
  have hown : ∀ {e m}, e ∈ s.children n → s.Below e.2 m →
      (s.apply (.convert n stat file)).Below e.2 m := by
    intro e m he hbelow
    refine below_stays (fun d nm c hd hchild => ?_) hbelow
    rw [hchildren, if_neg]
    · exact hchild
    · rintro rfl
      exact InTree.not_below h.wf hin he hd
  refine ⟨h.wf.convert hn hfile, ?_, ?_⟩
  · intro m hm
    rw [hsome] at hm
    by_cases hbelow : ∃ e ∈ s.children n, s.Below e.2 m
    · obtain ⟨e, he, hbelow⟩ := hbelow
      exact .inr ⟨e.2, List.mem_map_of_mem he, hown he hbelow⟩
    · rcases h.placed m hm with hm | ⟨k, hk, -⟩
      · refine .inl ?_
        rw [InTree, root_apply]
        exact hother hm hbelow
      · cases hk
  · intro k hk
    obtain ⟨⟨nm, c⟩, he, rfl⟩ := List.mem_map.mp hk
    rw [hsome, root_apply]
    refine ⟨h.wf.isSome_child he, fun d key hchild => ?_, h.wf.ne_root he⟩
    rw [hchildren] at hchild
    split_ifs at hchild with hd
    · cases hchild
    · exact hd (h.wf.listed_once he hchild).2

/-- A node that is in hand gets another name. -/
theorem Tidy.setName (h : s.Tidy hands) (hn : n ∈ hands) :
    (s.apply (.setName n name)).Tidy hands := by
  obtain ⟨-, hunlisted, hroot⟩ := h.held n hn
  refine h.of_children (h.wf.setName hroot hunlisted) (root_apply _ _)
    (fun m => ?_) fun m => children_setName
  rw [← isSome_label, ← isSome_label, label_setName]
  split_ifs with hm
  · rw [hm, Option.isSome_map]
  · rfl

/-- A node that is in hand gets another parent. -/
theorem Tidy.setParent (h : s.Tidy hands) {parent : Id} (hn : n ∈ hands) :
    (s.apply (.setParent n parent)).Tidy hands := by
  obtain ⟨-, hunlisted, hroot⟩ := h.held n hn
  refine h.of_children (h.wf.setParent hroot hunlisted) (root_apply _ _)
    (fun m => ?_) fun m => children_setParent
  rw [← isSome_label, ← isSome_label, label_setParent]
  split_ifs with hm
  · rw [hm, Option.isSome_map]
  · rfl

theorem tidy_create (caching : Option (Nat × Nat)) (ttl : Option Nat) :
    (create caching ttl).Tidy [] where
  wf := wellFormed_create caching ttl
  placed := by
    intro m hm
    left
    have hroot : m = (create caching ttl).root := by
      by_contra hne
      rw [show (create caching ttl).nodes m = none from if_neg hne] at hm
      cases hm
    rw [hroot]
    exact .root
  held := fun n hn => by cases hn

end FileTree

end Madbfs
