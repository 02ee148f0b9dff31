/-
Where a lookup ends.  It may build the node it looks for, and it brings nodes
on its way up to date; the node it returns is in the tree it leaves.
-/
import Madbfs.Tree.Views

namespace Madbfs

namespace Fs

open Program FileTree

variable {s t : FileTree} {n m c dir : Id} {name : Name} {stat : Stat}
  {node : Node}

/-- The id that the next node gets. -/
def nextNode (s : FileTree) : Id :=
  ⟨s.nextId + 1⟩

/-- A node is rebuilt: only its subtree is touched. -/
theorem rebuild_run (hcache : s.Caching) (hnode : s.nodes n = some node)
    (hline : ∀ e ∈ s.children n, ¬s.Below e.2 n) (stat : Stat)
    {file : File} (hfile : file.children = []) :
    ∃ s', rebuild n stat file s = some (.ok (), s') ∧ s'.Caching ∧
      s'.now = s.now ∧ s'.nextId = s.nextId ∧
      s'.nodes n = some { node with
        stat := stat, file := file, expiration := s.deadline } ∧
      ∀ m, ¬s.Below n m → s'.nodes m = s.nodes m := by
  set s₁ := s.apply (.convert n stat file) with hs₁
  obtain ⟨s₂, hrun₂, hsame, hcache₂⟩ :=
    invalidate_run (s := s₁) hcache n node.file
  have hdropped : ∀ m ∈ s₁.dropped node.file,
      ∃ e ∈ s.children n, s.Below e.2 m := by
    intro m hm
    cases hvalue : node.file with
    | directory children synced =>
        rw [hvalue] at hm
        obtain ⟨e, he, hwalk⟩ := List.mem_flatMap.mp hm
        obtain ⟨a, ha, hbelow⟩ := Forest.below_of_mem_visit hwalk
        rw [List.mem_singleton.mp ha] at hbelow
        refine ⟨e, ?_, below_of_children_subset ?_ hbelow⟩
        · rw [children_of_nodes hnode, hvalue]
          exact he
        · intro k e' he'
          rw [children_convert hfile] at he'
          split_ifs at he'
          · cases he'
          · exact he'
    | _ =>
        rw [hvalue] at hm
        cases hm
  have hkept : ∀ m, m ∉ s₁.dropped node.file → s₂.nodes m = s₁.nodes m := by
    intro m hm
    rw [hsame.nodes]
    exact if_neg hm
  have hnode₂ : s₂.nodes n = some { node with stat := stat, file := file } := by
    rw [hkept n ?_]
    · exact nodes_modify_self hnode
    · intro hn
      obtain ⟨e, he, hbelow⟩ := hdropped n hn
      exact hline e he hbelow
  have hrun : rebuild n stat file s =
      some (.ok (), s₂.apply (.expire n s₂.deadline)) := by
    rw [rebuild_eq, bind_of_ok (deref_apply hnode), bind_assoc,
      bind_of_ok (edit_apply _ _), bind_of_ok hrun₂,
      expiresAfter_apply hnode₂]
  refine ⟨_, hrun, hcache₂, ?_, ?_, rebuild_node hnode hrun, ?_⟩
  · change s₂.now = s.now
    rw [hsame]
    rfl
  · change s₂.nextId = s.nextId
    rw [hsame]
    rfl
  · intro m hm
    have hne : m ≠ n := by
      rintro rfl
      exact hm .refl
    have hnot : m ∉ s₁.dropped node.file := by
      intro hmem
      obtain ⟨⟨key, c⟩, he, hbelow⟩ := hdropped m hmem
      exact hm ((Below.child .refl he).trans hbelow)
    calc (s₂.apply (.expire n s₂.deadline)).nodes m
        = s₂.nodes m := Function.update_of_ne hne _ _
      _ = s₁.nodes m := hkept m hnot
      _ = s.nodes m := Function.update_of_ne hne _ _

/-- A lookup has come to a node of the tree. -/
structure Looked (ctx : Ctx) (s : FileTree) (n : Id) : Prop where
  good : s.Good ctx
  reached : s.Reached ctx n
  inTree : s.InTree n
  caching : s.Caching

section Look

variable {ctx : Ctx} {env : Env} {path above : Path} {file : File}
  {parent current : Id} {s' : FileTree}

theorem Looked.clock (h : Looked ctx s n) (delay : Nat) :
    Looked ctx (s.apply (.clock delay)) n where
  good := (chain_clock delay).good h.good
  reached := h.reached.chain (chain_clock delay)
  inTree := h.inTree.congr (sameShape_apply rfl)
  caching := h.caching.congr rfl

/-- A node is built in a directory of the tree. -/
theorem buildThenExpire_looked (h : Looked ctx s parent)
    (hfile : file.children = []) (hvalid : ValidName name)
    (hmatch : file.isError ∨ file.type = some (fileType stat.mode))
    (hrun : buildThenExpire parent name stat file s = some (.ok n, s')) :
    Looked ctx s' n := by
  obtain ⟨hchain, hreached⟩ :=
    obeys_buildThenExpire hfile h.reached hvalid hmatch h.good _ _ hrun
  have hne : parent ≠ nextNode s := by
    rintro rfl
    exact absurd h.reached.known (Nat.not_succ_le_self _)
  set child := Node.create name (some parent) stat file with hchild
  set s₁ := s.apply (.alloc (nextNode s) child) with hs₁
  have halloc : alloc name parent stat file s = some (.ok (nextNode s), s₁) :=
    rfl
  have hnode₁ : s₁.nodes (nextNode s) = some child :=
    Function.update_self _ _ _
  unfold buildThenExpire nodeBuild at hrun
  simp only [bind_assoc] at hrun
  rw [bind_of_ok halloc] at hrun
  obtain ⟨d, hd, hrun⟩ := bind_deref_cases hrun
  cases hdirectory : d.file.asDirectory with
  | error err =>
      rw [hdirectory] at hrun
      simp only [bind_assoc] at hrun
      rw [bind_of_ok (destroy_apply _ _), bind_of_error (fail_apply _ _)] at hrun
      cases hrun
  | ok list =>
      rw [hdirectory] at hrun
      simp only [bind_assoc] at hrun
      obtain ⟨synced, hvalue⟩ := File.asDirectory_eq_ok hdirectory
      cases hlookup : list.lookup name with
      | some old =>
          rw [bind_of_error (insert_apply_exists hd hvalue hnode₁ hlookup)]
            at hrun
          cases hrun
      | none =>
          have hlabel : (s₁.apply (.attach parent (nextNode s))).label
              (nextNode s) = _ := label_attach.trans (label_eq hnode₁)
          obtain ⟨node', hnode', -⟩ := label_eq_some.mp hlabel
          rw [bind_of_ok (insert_apply_none hd hvalue hnode₁ hlookup)] at hrun
          change (expiresAfter _ >>= fun _ => pure _) _ = _ at hrun
          rw [bind_of_ok (expiresAfter_apply hnode')] at hrun
          cases hrun
          set s₂ := s₁.apply (.attach parent (nextNode s)) with hs₂
          have hshape : SameShape s₂
              (s₂.apply (.expire (nextNode s) s₂.deadline)) :=
            sameShape_apply rfl
          have hnodes : ∀ m, m ≠ parent → m ≠ nextNode s →
              s₂.nodes m = s.nodes m := by
            intro m hm hm'
            rw [hs₂, FileTree.apply, FileTree.attach, hnode₁]
            exact (Function.update_of_ne hm _ _).trans
              (Function.update_of_ne hm' _ _)
          have hparent : s₂.InTree parent := by
            refine h.inTree.keep h.good.wf ?_ fun m hnot hknown => ?_
            · rw [hs₂, root_apply, hs₁, root_apply]
            · apply hnodes
              · rintro rfl
                exact hnot .refl
              · rintro rfl
                exact absurd hknown (Nat.not_succ_le_self _)
          have hmem : (name, nextNode s) ∈ s₂.children parent := by
            rw [hs₂, children_attach hd (by rw [hvalue]; rfl) hnode₁,
              if_pos rfl]
            exact List.mem_append_right _ List.mem_cons_self
          refine ⟨hchain.good h.good, hreached _ rfl,
            InTree.congr (Below.child hparent hmem) hshape, ?_⟩
          refine h.caching.congr ?_
          rw [cache_apply (by intro c h; cases h), hs₂,
            cache_apply (by intro c h; cases h), hs₁,
            cache_apply (by intro c h; cases h)]

/-- A failed `build` returns no node. -/
theorem buildError_cases {err : Errc} {r : Except Errc Id}
    (hrun : buildError parent name err s = some (r, s')) : r ≠ .ok n := by
  rcases bind_cases hrun with ⟨err', -, rfl⟩ | ⟨u, t, -, hfail⟩
  · exact fun h => by cases h
  · cases hfail
    exact fun h => by cases h

theorem build_looked (h : Looked ctx s parent)
    (hvalid : ValidName path.filename)
    (hrun : build env parent path s = some (.ok n, s')) :
    Looked ctx s' n := by
  unfold build at hrun
  rw [bind_of_ok (outcome_apply (request_apply env (.stat path) s))] at hrun
  cases hanswer : env.answer s.tick (.stat path) with
  | error err =>
      rw [hanswer] at hrun
      exact absurd rfl (buildError_cases hrun)
  | ok stat =>
      rw [hanswer] at hrun
      exact buildThenExpire_looked (h.clock _) (File.children_create _) hvalid
        (.inr (File.type_create _)) hrun

theorem buildDirectory_looked (h : Looked ctx s parent)
    (hvalid : ValidName path.filename)
    (hrun : buildDirectory env parent path s = some (.ok n, s')) :
    Looked ctx s' n := by
  unfold buildDirectory at hrun
  rw [bind_of_ok (outcome_apply (request_apply env (.stat path) s))] at hrun
  cases hanswer : env.answer s.tick (.stat path) with
  | error err =>
      rw [hanswer] at hrun
      exact absurd rfl (buildError_cases hrun)
  | ok stat =>
      rw [hanswer] at hrun
      dsimp only at hrun
      split_ifs at hrun with htype
      · exact buildThenExpire_looked (h.clock _) rfl hvalid
          (.inr (by rw [htype]; rfl)) hrun
      · cases hrun

/-- A node that `update` has asked the device about stays in the tree. -/
theorem update_looked (h : Looked ctx s n) (hn : n ≠ s.root)
    (hrun : update env n path s = some (.ok (), s')) : Looked ctx s' n := by
  obtain ⟨hchain, -⟩ := obeys_update hn h.good _ _ hrun
  have hgood := hchain.good h.good
  have hreached := h.reached.chain hchain
  unfold update at hrun
  rw [bind_of_ok (outcome_apply (request_apply env (.stat path) s))] at hrun
  have h₁ := h.clock (env.delay s.tick)
  set s₁ := s.apply (.clock (env.delay s.tick)) with hs₁
  obtain ⟨node, hnode, hrun⟩ := bind_deref_cases hrun
  have hshaped : SameShape s₁ s' → s'.cache = s₁.cache → Looked ctx s' n :=
    fun hshape hcache =>
      ⟨hgood, hreached, h₁.inTree.congr hshape, h₁.caching.congr hcache⟩
  cases hanswer : env.answer s.tick (.stat path) with
  | error err =>
      rw [hanswer] at hrun
      rcases bind_cases hrun with ⟨err', -, herr⟩ | ⟨u, t, -, hfail⟩
      · cases herr
      · cases hfail
  | ok stat =>
      rw [hanswer] at hrun
      dsimp only at hrun
      split_ifs at hrun with hsame hdir
      · rw [expiresAfter_apply hnode] at hrun
        cases hrun
        exact hshaped (sameShape_apply rfl) rfl
      · rw [bind_of_ok (setStat_apply hnode stat)] at hrun
        have hnode₂ : (s₁.apply (.setStat n stat)).nodes n =
            some { node with stat := stat } := nodes_modify_self hnode
        have hnode₃ : ((s₁.apply (.setStat n stat)).apply
            (.setSynced n false)).nodes n = some { node with
              stat := stat, file := node.file.setSynced false } :=
          nodes_modify_self hnode₂
        unfold setSynced at hrun
        rw [bind_assoc, bind_of_ok (deref_apply hnode₂),
          bind_of_ok (edit_apply _ _), expiresAfter_apply hnode₃] at hrun
        cases hrun
        refine hshaped (SameShape.trans (sameShape_apply rfl) (SameShape.trans
          (sameShape_apply rfl) (sameShape_apply rfl))) rfl
      · obtain ⟨t, hrun', hcache, -, -, hnew, hframe⟩ :=
          rebuild_run h₁.caching hnode
            (fun e he => InTree.not_below h₁.good.wf h₁.inTree
              he) stat (File.children_create (fileType stat.mode))
        cases hrun'.symm.trans hrun
        refine ⟨hgood, hreached, ?_, hcache⟩
        refine h₁.inTree.keep h₁.good.wf hchain.root ?_
        exact fun m hnot _ => hframe m hnot

theorem enter_looked {builder : Id → Path → Fs Id}
    (h : Looked ctx s current)
    (hbuilder : builder current path s = some (.ok n, s') → Looked ctx s' n)
    (hrun : enter env builder current name path s = some (.ok n, s')) :
    Looked ctx s' n := by
  rcases bind_cases hrun with ⟨err, hout, -⟩ | ⟨found, s₁, hout, hrest⟩
  · obtain ⟨p, -, heq⟩ := Option.map_eq_some_iff.mp hout
    cases heq
  obtain ⟨⟨found, t⟩, htraverse, heq⟩ := Option.map_eq_some_iff.mp hout
  cases heq
  obtain ⟨rfl, hfound⟩ := traverseNode_cases htraverse
  cases found with
  | error err => exact hbuilder hrest
  | ok next =>
      have hmem := h.good.wf.lookup_iff.mp (hfound next rfl)
      have hnext : Looked ctx t next :=
        ⟨h.good, h.good.reached_child h.reached.inside hmem,
          Below.child h.inTree hmem, h.caching⟩
      obtain ⟨node, hnode, hrest⟩ := bind_deref_cases hrest
      rw [bind_of_ok (state_apply t)] at hrest
      cases hexpired : node.expired t.now with
      | false =>
          rw [hexpired] at hrest
          cases hrest
          exact hnext
      | true =>
          rw [hexpired] at hrest
          rcases bind_cases hrest with ⟨err, -, herr⟩ | ⟨u, t', hup, hlast⟩
          · cases herr
          · cases hlast
            exact update_looked hnext (h.good.wf.ne_root hmem) hup

theorem descend_looked {out : Id × Path} (h : Looked ctx s current)
    (hvalid : ∀ name ∈ path, ValidName name)
    (hrun : descend env path current above s = some (.ok out, s')) :
    Looked ctx s' out.1 := by
  induction path generalizing s current above with
  | nil =>
      cases hrun
      exact h
  | cons name rest ih =>
      have hname := hvalid name List.mem_cons_self
      rcases bind_cases hrun with ⟨err, -, herr⟩ | ⟨next, t, henter, hrest⟩
      · cases herr
      · refine ih (enter_looked h (buildDirectory_looked h ?_) henter)
          (fun n hn => hvalid n (List.mem_cons_of_mem name hn)) hrest
        rw [filename_extend hname]
        exact hname

/-- A lookup that succeeds ends at a node of the tree. -/
theorem traverseOrBuild_looked (hgood : s.Good ctx) (hcache : s.Caching)
    (hvalid : ∀ name ∈ path, ValidName name)
    (hrun : traverseOrBuild env path s = some (.ok n, s')) :
    Looked ctx s' n := by
  have hroot : Looked ctx s s.root :=
    ⟨hgood, Good.reached_root hgood, .root, hcache⟩
  unfold traverseOrBuild at hrun
  rw [bind_of_ok (state_apply s)] at hrun
  split_ifs at hrun with hempty
  · cases hrun
    exact hroot
  · rcases bind_cases hrun with ⟨err, -, herr⟩ | ⟨out, t, hdescend, hlast⟩
    · cases herr
    · have hne : path ≠ [] := fun h => hempty (List.isEmpty_iff.mpr h)
      have hname := valid_filename hne hvalid
      have hparent := descend_looked hroot (valid_parentPath hvalid) hdescend
      refine enter_looked hparent (build_looked hparent ?_) hlast
      rw [filename_extend hname]
      exact hname

end Look

end Fs

end Madbfs
