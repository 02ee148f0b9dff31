/-
Which pointers the lookups follow.  Every node a lookup comes to is in the
tree, and while the cache is tidy its entries can be taken out, so a lookup
never goes wrong.
-/
import Madbfs.Tree.Lifetime
import Madbfs.Surely

namespace Madbfs

namespace FileTree

variable {s : FileTree} {n m dir : Id} {e : Edit}

theorem isSome_apply (he : Edit.keepsKind e = true) :
    ((s.apply e).nodes m).isSome = (s.nodes m).isSome := by
  rw [← isSome_kind, kind_apply he, isSome_kind]

theorem isDir_eq_kind : s.isDir n = (s.kind n == some (some .directory)) := by
  unfold isDir kind
  cases s.nodes n with
  | none => rfl
  | some node => cases hfile : node.file <;> simp [hfile, File.isDirectory,
      File.type]

theorem isDir_apply (he : Edit.keepsKind e = true) :
    (s.apply e).isDir m = s.isDir m := by
  rw [isDir_eq_kind, kind_apply he, isDir_eq_kind]

theorem isSome_of_isDir (hdir : s.isDir n) : (s.nodes n).isSome := by
  obtain ⟨node, hnode, -⟩ := isDir_iff.mp hdir
  rw [hnode]
  rfl

theorem caching_apply (h : s.Caching) (he : ∀ c, e ≠ .cache c) :
    (s.apply e).Caching :=
  h.congr (cache_apply he)

end FileTree

namespace Fs

open Program FileTree

variable {α β : Type} {s s₁ : FileTree} {n m dir parent current : Id}
  {name : Name} {node : Node} {env : Env} {path above : Path} {stat : Stat}
  {file : File} {x : Fs α} {f : α → Fs β} {e : Edit}

/-- The program follows no pointer to nothing from `s`, and leaves the cache
tidy. -/
def Tame (x : Fs α) (s : FileTree) : Prop :=
  x.Surely s fun _ t => t.Caching

section Rules

/-- A node that is there is read. -/
theorem surely_bind_deref {Q : Except Errc β → FileTree → Prop}
    {f : Node → Fs β} (hlive : (s.nodes n).isSome)
    (hf : ∀ node, s.nodes n = some node → (f node).Surely s Q) :
    (deref n >>= f).Surely s Q := by
  obtain ⟨node, hnode⟩ := Option.isSome_iff_exists.mp hlive
  exact Surely.bind_of_ok (deref_apply hnode) (hf node hnode)

theorem Tame.pure {a : α} (h : s.Caching) : Tame (Pure.pure a : Fs α) s :=
  Surely.pure h

theorem Tame.fail {err : Errc} (h : s.Caching) : Tame (fail err : Fs α) s :=
  Surely.fail h

theorem Tame.bind (hx : Tame x s) (hf : ∀ a s₁, x s = some (.ok a, s₁) →
    s₁.Caching → Tame (f a) s₁) : Tame (x >>= f) s :=
  Surely.bind hx hf fun _ _ _ h => h

theorem Tame.bind_outcome {f : Except Errc α → Fs β} (hx : Tame x s)
    (hf : ∀ r s₁, x s = some (r, s₁) → s₁.Caching → Tame (f r) s₁) :
    Tame (x.outcome >>= f) s := by
  apply Tame.bind (Surely.outcome hx)
  intro r s₁ hrun h₁
  obtain ⟨q, hr, hx'⟩ := outcome_cases hrun
  cases hr
  exact hf r s₁ hx' h₁

theorem Tame.bind_deref {f : Node → Fs β} (hlive : (s.nodes n).isSome)
    (hf : ∀ node, s.nodes n = some node → Tame (f node) s) :
    Tame (deref n >>= f) s :=
  surely_bind_deref hlive hf

theorem Tame.bind_directory {f : List (Name × Id) → Fs β} (hdir : s.isDir n)
    (hf : Tame (f (s.children n)) s) : Tame (directory n >>= f) s :=
  Surely.bind_of_ok (directory_run hdir) hf

theorem Tame.bind_asDirectory {f : List (Name × Id) → Fs β} (h : s.Caching)
    (hlive : (s.nodes n).isSome)
    (hf : s.isDir n → Tame (f (s.children n)) s) :
    Tame (asDirectory n >>= f) s := by
  unfold asDirectory
  rw [bind_assoc]
  apply Tame.bind_deref hlive
  intro node hnode
  refine Surely.bind_ofExcept (R := fun _ (t : FileTree) => t.Caching)
    ?_ fun _ _ => h
  intro list hlist
  obtain ⟨synced, hfile⟩ := File.asDirectory_eq_ok hlist
  have hchildren : s.children n = list := by
    rw [children_of_nodes hnode, hfile]
    rfl
  rw [← hchildren]
  exact hf (isDir_iff.mpr ⟨node, hnode, by rw [hfile]; rfl⟩)

/-- The time passes, and the answer is an error or a value. -/
theorem Tame.bind_request {req : Req α} (h : s.Caching)
    (hf : ∀ a, env.answer s.tick req = .ok a →
      Tame (f a) (s.apply (.clock (env.delay s.tick)))) :
    Tame (request env req >>= f) s := by
  refine Tame.bind ⟨_, _, request_apply env req s, h⟩ ?_
  intro a s₁ hrun h₁
  rw [request_apply] at hrun
  obtain ⟨hanswer, rfl⟩ := Prod.mk.inj (Option.some.inj hrun)
  exact hf a hanswer

theorem Tame.bind_request_outcome {req : Req α} {f : Except Errc α → Fs β}
    (hf : Tame (f (env.answer s.tick req))
      (s.apply (.clock (env.delay s.tick)))) :
    Tame ((request env req).outcome >>= f) s :=
  Surely.bind_of_ok (outcome_apply (request_apply env req s)) hf

theorem tame_request {req : Req α} (h : s.Caching) :
    Tame (request env req) s :=
  ⟨_, _, request_apply env req s, h⟩

theorem tame_expiresAfter (h : s.Caching) (hlive : (s.nodes n).isSome) :
    Tame (expiresAfter n) s := by
  obtain ⟨node, hnode⟩ := Option.isSome_iff_exists.mp hlive
  exact ⟨_, _, expiresAfter_apply hnode, h⟩

theorem Tame.bind_refreshStat {f : Unit → Fs β} {atime mtime : TimeArg}
    (hlive : (s.nodes n).isSome)
    (hf : ∀ stat, Tame (f ()) (s.apply (.setStat n stat))) :
    Tame (refreshStat env n atime mtime >>= f) s := by
  obtain ⟨node, hnode⟩ := Option.isSome_iff_exists.mp hlive
  exact Surely.bind_of_ok (refreshStat_apply hnode atime mtime) (hf _)

theorem Tame.bind_setStat {f : Unit → Fs β} (hlive : (s.nodes n).isSome)
    (hf : Tame (f ()) (s.apply (.setStat n stat))) :
    Tame (setStat n stat >>= f) s := by
  obtain ⟨node, hnode⟩ := Option.isSome_iff_exists.mp hlive
  exact Surely.bind_of_ok (setStat_apply hnode stat) hf

theorem tame_setStat (h : s.Caching) (hlive : (s.nodes n).isSome) :
    Tame (setStat n stat) s := by
  obtain ⟨node, hnode⟩ := Option.isSome_iff_exists.mp hlive
  exact ⟨_, _, setStat_apply hnode stat, h⟩

theorem Tame.bind_invalidateOne {f : Unit → Fs β} (h : s.Caching)
    (hf : ∀ t, t = { s with cache := t.cache } → t.Caching → Tame (f ()) t) :
    Tame (invalidateOne n >>= f) s := by
  obtain ⟨t, hrun, hsame, ht, -⟩ := invalidateOne_run h n
  exact Surely.bind_of_ok hrun (hf t hsame ht)

/-- A node is put into a directory, or it goes if the name is taken. -/
theorem Tame.bind_insert {overwrite : Bool} {f : Option Id → Fs β}
    (h : s.Caching) (hdir : s.isDir dir) (hnode : s.nodes n = some node)
    (hfree : (s.children dir).lookup node.name = none →
      Tame (f none) (s.apply (.attach dir n)))
    (htaken : ∀ old, (s.children dir).lookup node.name = some old →
      overwrite = true → Tame (f (some old))
        ((s.apply (.detach dir node.name)).apply (.attach dir n))) :
    Tame (insert dir n overwrite >>= f) s := by
  unfold insert
  rw [bind_assoc]
  apply Tame.bind_directory hdir
  rw [bind_assoc]
  refine Surely.bind_of_ok (deref_apply hnode) ?_
  cases hlookup : (s.children dir).lookup node.name with
  | none => exact Surely.bind_of_ok rfl (hfree hlookup)
  | some old =>
      cases overwrite with
      | true => exact Surely.bind_of_ok rfl (htaken old hlookup rfl)
      | false =>
          exact ⟨_, _, bind_of_error
            ((bind_of_ok (destroy_apply n s)).trans (fail_apply _ _)), h⟩

end Rules

section Lookups

variable {ctx : Ctx}

theorem Looked.isSome (h : Looked ctx s n) : (s.nodes n).isSome :=
  h.good.wf.isSome_of_inTree h.inTree

theorem tame_traverseNode (h : s.Caching) (hlive : (s.nodes n).isSome) :
    Tame (traverseNode n name) s := by
  apply Tame.bind_asDirectory h hlive
  intro _
  cases (s.children n).lookup name with
  | none => exact Tame.fail h
  | some c => exact Tame.pure h

/-- The children of a node in the tree do not lead back to it. -/
theorem tame_rebuild (h : Looked ctx s n) (hfile : file.children = []) :
    Tame (rebuild n stat file) s := by
  obtain ⟨node, hnode⟩ := Option.isSome_iff_exists.mp h.isSome
  obtain ⟨t, hrun, ht, -⟩ := rebuild_run h.caching hnode
    (fun e he => InTree.not_below h.good.wf h.inTree he) stat hfile
  exact ⟨_, t, hrun, ht⟩

/-- A node that cannot be refreshed is rebuilt, with the stat it has. -/
theorem mutate_eq_rebuild (hnode : s.nodes n = some node) :
    (mutateAndInvalidate n file >>= fun _ => expiresAfter n) s =
      rebuild n node.stat file s := by
  rw [rebuild_eq, bind_of_ok (deref_apply hnode), mutateAndInvalidate,
    bind_assoc, bind_of_ok (deref_apply hnode)]

theorem tame_update (h : Looked ctx s n) : Tame (update env n path) s := by
  apply Tame.bind_request_outcome
  have h₁ := h.clock (env.delay s.tick)
  apply Tame.bind_deref h₁.isSome
  intro node hnode
  cases env.answer s.tick (.stat path) with
  | error err =>
      refine Tame.bind ?_ fun _ _ _ hc => Tame.fail hc
      refine Surely.when (fun _ => ?_) fun _ => h₁.caching
      obtain ⟨r, t, hrun, ht⟩ : Tame (rebuild n node.stat (.error err)) _ :=
        tame_rebuild h₁ rfl
      exact ⟨r, t, (mutate_eq_rebuild hnode).trans hrun, ht⟩
  | ok stat =>
      change Tame (if _ then _ else if _ then _ else _ : Fs Unit) _
      split_ifs
      · exact tame_expiresAfter h₁.caching h₁.isSome
      · apply Tame.bind_setStat h₁.isSome
        unfold setSynced
        rw [bind_assoc]
        apply Tame.bind_deref
        · rw [isSome_apply rfl]
          exact h₁.isSome
        intro node' _
        refine Surely.bind_of_ok (edit_apply _ _) ?_
        refine tame_expiresAfter ?_ ?_
        · exact caching_apply h₁.caching fun c hc => by cases hc
        · rw [isSome_apply rfl, isSome_apply rfl]
          exact h₁.isSome
      · exact tame_rebuild h₁ (File.children_create _)

/-- A node is built in a directory that is there, or it goes at once. -/
theorem tame_buildThenExpire (h : s.Caching)
    (hlive : (s.nodes parent).isSome) :
    Tame (buildThenExpire parent name stat file) s := by
  set child := Node.create name (some parent) stat file with hchild
  have halloc : alloc name parent stat file s =
      some (.ok (nextNode s), s.apply (.alloc (nextNode s) child)) := rfl
  have hnode : (s.apply (.alloc (nextNode s) child)).nodes (nextNode s) =
      some child := Function.update_self _ _ _
  have hlive₁ : ((s.apply (.alloc (nextNode s) child)).nodes
      parent).isSome := by
    rw [← isSome_label, label_alloc]
    split_ifs
    · rfl
    · rw [isSome_label]
      exact hlive
  have h₁ : (s.apply (.alloc (nextNode s) child)).Caching := h
  set n := nextNode s
  set s₁ := s.apply (.alloc n child)
  unfold buildThenExpire nodeBuild
  simp only [bind_assoc]
  refine Surely.bind_of_ok halloc ?_
  apply Tame.bind_deref hlive₁
  intro d hd
  cases hdirectory : d.file.asDirectory with
  | error err =>
      simp only [bind_assoc]
      exact ⟨_, _, (bind_of_ok (destroy_apply _ _)).trans
        (bind_of_error (fail_apply _ _)), h₁⟩
  | ok list =>
      obtain ⟨synced, hvalue⟩ := File.asDirectory_eq_ok hdirectory
      have hdir : s₁.isDir parent :=
        isDir_iff.mpr ⟨d, hd, by rw [hvalue]; rfl⟩
      simp only [bind_assoc]
      refine Tame.bind_insert h₁ hdir hnode (fun _ => ?_) ?_
      · refine Surely.bind_of_ok (pure_apply _ _) ?_
        refine Tame.bind (tame_expiresAfter ?_ ?_) fun _ _ _ => Tame.pure
        · exact h₁.congr (cache_apply fun c hc => by cases hc)
        · rw [isSome_apply rfl, hnode]
          rfl
      · intro old _ hover
        cases hover

theorem tame_buildError {err : Errc} (h : s.Caching)
    (hlive : (s.nodes parent).isSome) :
    Tame (buildError parent name err) s := by
  refine Tame.bind (Surely.when (fun _ => ?_) fun _ => h)
    fun _ _ _ => Tame.fail
  exact Tame.bind_outcome (tame_buildThenExpire h hlive)
    fun _ _ _ => Tame.pure

theorem tame_build (h : s.Caching) (hlive : (s.nodes parent).isSome) :
    Tame (build env parent path) s := by
  apply Tame.bind_request_outcome
  cases env.answer s.tick (.stat path) with
  | error err => exact tame_buildError h hlive
  | ok stat => exact tame_buildThenExpire h hlive

theorem tame_buildDirectory (h : s.Caching)
    (hlive : (s.nodes parent).isSome) :
    Tame (buildDirectory env parent path) s := by
  apply Tame.bind_request_outcome
  cases env.answer s.tick (.stat path) with
  | error err => exact tame_buildError h hlive
  | ok stat =>
      change Tame (if _ then _ else _ : Fs Id) _
      split_ifs
      · exact tame_buildThenExpire h hlive
      · exact Tame.fail h

theorem tame_enter {builder : Id → Path → Fs Id} (h : Looked ctx s current)
    (hbuilder : Tame (builder current path) s) :
    Tame (enter env builder current name path) s := by
  apply Tame.bind_outcome (tame_traverseNode h.caching h.isSome)
  intro r s₁ hrun _
  obtain ⟨rfl, hfound⟩ := traverseNode_cases hrun
  cases r with
  | error err => exact hbuilder
  | ok next =>
      have hmem := h.good.wf.lookup_iff.mp (hfound next rfl)
      have hnext : Looked ctx s₁ next :=
        ⟨h.good, h.good.reached_child h.reached.inside hmem,
          Below.child h.inTree hmem, h.caching⟩
      apply Tame.bind_deref hnext.isSome
      intro node _
      refine Surely.bind_of_ok (state_apply s₁) ?_
      exact Tame.bind (Surely.when (fun _ => tame_update hnext)
        fun _ => h.caching) fun _ _ _ => Tame.pure

theorem tame_descend (h : Looked ctx s current)
    (hvalid : ∀ name ∈ path, ValidName name) :
    Tame (descend env path current above) s := by
  induction path generalizing s current above with
  | nil => exact Tame.pure h.caching
  | cons name rest ih =>
      have hname := hvalid name List.mem_cons_self
      apply Tame.bind (tame_enter h (tame_buildDirectory h.caching h.isSome))
      intro next s₁ henter _
      refine ih (enter_looked h (buildDirectory_looked h ?_) henter)
        fun n hn => hvalid n (List.mem_cons_of_mem name hn)
      rw [filename_extend hname]
      exact hname

/-- A lookup follows no pointer to nothing. -/
theorem tame_traverseOrBuild (hgood : s.Good ctx) (h : s.Caching)
    (hvalid : ∀ name ∈ path, ValidName name) :
    Tame (traverseOrBuild env path) s := by
  have hroot : Looked ctx s s.root :=
    ⟨hgood, Good.reached_root hgood, .root, h⟩
  unfold traverseOrBuild
  refine Surely.bind_of_ok (state_apply s) ?_
  split_ifs with hempty
  · exact Tame.pure h
  · apply Tame.bind (tame_descend hroot (valid_parentPath hvalid))
    intro out s₁ hdescend _
    have hparent := descend_looked hroot (valid_parentPath hvalid) hdescend
    exact tame_enter hparent (tame_build hparent.caching hparent.isSome)

end Lookups

/-- No operation is in progress: the nodes are those of the tree, and the cache
is tidy. -/
structure AtRest (s : FileTree) : Prop where
  sound : s.Sound False []
  caching : s.Caching

theorem AtRest.clock (h : AtRest s) (delay : Nat) :
    AtRest (s.apply (.clock delay)) :=
  ⟨h.sound.apply rfl, h.caching⟩

theorem AtRest.isSome (h : AtRest s) (hin : s.InTree n) :
    (s.nodes n).isSome :=
  h.sound.tidy.wf.isSome_of_inTree hin

/-- Any operation will do here. -/
theorem AtRest.good (h : AtRest s) (env : Env) :
    s.Good (Op.shutdown.ctx env s) :=
  h.sound.tidy.wf.good (.refl s)

theorem AtRest.tame_lookup (h : AtRest s)
    (hvalid : ∀ name ∈ path, ValidName name) :
    Tame (traverseOrBuild env path) s :=
  tame_traverseOrBuild (h.good env) h.caching hvalid

/-- What comes after a lookup works on a node of the tree. -/
theorem AtRest.looked (h : AtRest s) (hvalid : ∀ name ∈ path, ValidName name)
    {r : Except Errc Id} {t : FileTree}
    (hrun : traverseOrBuild env path s = some (r, t)) :
    AtRest t ∧ ∀ n, r = .ok n → t.InTree n := by
  refine ⟨⟨(sits_traverseOrBuild hvalid h.sound _ _ hrun).1 h.sound,
    (h.tame_lookup hvalid).sat _ _ hrun⟩, ?_⟩
  rintro n rfl
  exact (traverseOrBuild_looked (h.good env) h.caching hvalid hrun).inTree

theorem AtRest.bind_lookup {f : Id → Fs β} (h : AtRest s)
    (hvalid : ∀ name ∈ path, ValidName name)
    (hf : ∀ n t, traverseOrBuild env path s = some (.ok n, t) → AtRest t →
      t.InTree n → Tame (f n) t) :
    Tame (traverseOrBuild env path >>= f) s := by
  apply Tame.bind (h.tame_lookup hvalid)
  intro n t hrun _
  obtain ⟨ht, hin⟩ := h.looked hvalid hrun
  exact hf n t hrun ht (hin n rfl)

end Fs

end Madbfs
