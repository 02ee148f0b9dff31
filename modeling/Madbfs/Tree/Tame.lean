/-
Which pointers the operations follow after their lookups, but for `rename` and
those on descriptors: each works on nodes that the lookups have found, and none
of these goes before it is used.
-/
import Madbfs.Tree.Sync
import Madbfs.Tree.Pointers

namespace Madbfs

namespace FileTree

variable {s : FileTree} {m : Id} {ns : List Id}

theorem isDir_destroy (hlive : ((s.apply (.destroy ns)).nodes m).isSome) :
    (s.apply (.destroy ns)).isDir m = s.isDir m := by
  have hnot : m ∉ ns := by
    intro hm
    have hgone : (s.apply (.destroy ns)).nodes m = none := if_pos hm
    rw [hgone] at hlive
    cases hlive
  have hsame : (s.apply (.destroy ns)).nodes m = s.nodes m := if_neg hnot
  rw [isDir, hsame, isDir]

end FileTree

namespace Fs

open Program FileTree

variable {α β : Type} {s s₁ : FileTree} {n m dir parent : Id}
  {name : Name} {node : Node} {env : Env} {path : Path} {stat : Stat}
  {file : File} {x : Fs α} {f : α → Fs β} {entries : List (Stat × Name)}

section Listing

theorem isDir_alloc (h : AtRest s) (hdir : s.isDir dir) (node : Node) :
    (s.apply (.alloc ⟨s.nextId + 1⟩ node)).isDir dir := by
  have hne := h.sound.tidy.wf.fresh (isSome_of_isDir hdir)
  have hsame : (s.apply (.alloc ⟨s.nextId + 1⟩ node)).nodes dir =
      s.nodes dir := Function.update_of_ne hne _ _
  rw [isDir, hsame, ← isDir]
  exact hdir

/-- A new node is there, and its directory still is one. -/
theorem surely_bind_alloc {Q : Except Errc β → FileTree → Prop} {f : Id → Fs β}
    (h : AtRest s) (hdir : s.isDir dir)
    (hf : ∀ n t, t.nodes n = some (.create name (some dir) stat file) →
      t.Caching → t.isDir dir → (f n).Surely t Q) :
    (alloc name dir stat file >>= f).Surely s Q := by
  have hnode : (s.apply (.alloc ⟨s.nextId + 1⟩
      (.create name (some dir) stat file))).nodes ⟨s.nextId + 1⟩ =
        some (.create name (some dir) stat file) :=
    Function.update_self _ _ _
  exact Surely.bind_of_ok rfl
    (hf _ _ hnode h.caching (isDir_alloc h hdir _))

/-- The new node comes into the directory, or it goes. -/
theorem addEntry_surely (h : AtRest s) (hdir : s.isDir dir) (stat : Stat)
    (name : Name) : (addEntry dir stat name).Surely s fun r t =>
      r = .ok () ∧ t.Caching ∧ ((t.nodes dir).isSome → t.isDir dir) := by
  apply surely_bind_alloc h hdir
  intro n s₁ hnode hc₁ hdir₁
  refine Surely.bind_of_ok (expiresAfter_apply hnode) ?_
  have hdir₂ : (s₁.apply (.expire n s₁.deadline)).isDir dir := by
    rw [isDir_apply rfl]
    exact hdir₁
  have hc₂ : (s₁.apply (.expire n s₁.deadline)).Caching := hc₁
  set s₂ := s₁.apply (.expire n s₁.deadline)
  refine Surely.bind_of_ok (directory_run hdir₂) ?_
  cases (s₂.children dir).lookup name with
  | none =>
      have hdir₃ : (s₂.apply (.attach dir n)).isDir dir := by
        rw [isDir_apply rfl]
        exact hdir₂
      have hc₃ : (s₂.apply (.attach dir n)).Caching :=
        caching_apply hc₂ fun c hc => by cases hc
      exact ⟨_, _, rfl, rfl, hc₃, fun _ => hdir₃⟩
  | some old =>
      refine ⟨_, _, rfl, rfl, hc₂, fun hlive => ?_⟩
      rw [isDir_destroy hlive]
      exact hdir₂

theorem addEntry_steady (h : AtRest s) (hdir : s.isDir dir)
    (hvalid : ValidName name) : (addEntry dir stat name).Surely s fun r t =>
      r = .ok () ∧ AtRest t ∧ t.isDir dir := by
  obtain ⟨_, t, hrun, rfl, ht, hkeep⟩ := addEntry_surely h hdir stat name
  obtain ⟨hsound, hlive, -⟩ :=
    addEntry_sound h.sound (isSome_of_isDir hdir) hvalid hrun
  exact ⟨_, t, hrun, rfl, ⟨hsound, ht⟩, hkeep hlive⟩

theorem mergeEntry_steady (h : AtRest s) (hdir : s.isDir dir)
    (hvalid : ValidName name) : (mergeEntry dir stat name).Surely s fun r t =>
      r = .ok () ∧ AtRest t ∧ t.isDir dir := by
  refine Surely.bind_of_ok (directory_run hdir) ?_
  cases hlookup : (s.children dir).lookup name with
  | none => exact addEntry_steady h hdir hvalid
  | some c =>
      have hwf := h.sound.tidy.wf
      have hmem := hwf.lookup_iff.mp hlookup
      have hin := h.sound.tidy.inTree (isSome_of_isDir hdir)
      obtain ⟨node, hnode, -⟩ := hwf.listed hmem
      refine Surely.bind_of_ok (deref_apply hnode) ?_
      refine Surely.bind_of_ok (state_apply s) ?_
      refine Surely.when (fun _ => ?_) fun _ => ⟨rfl, h, hdir⟩
      have hfile := File.children_create (fileType stat.mode)
      obtain ⟨t, hrun, ht, -, -, -, hframe⟩ := rebuild_run h.caching hnode
        (fun e he => InTree.not_below hwf (Below.child hin hmem) he) stat hfile
      have hsound := (sits_rebuild (hwf.ne_root hmem) hfile h.sound _ _
        hrun).1 h.sound
      refine ⟨_, t, hrun, rfl, ⟨hsound, ht⟩, ?_⟩
      rw [isDir, hframe dir (InTree.not_below hwf hin hmem), ← isDir]
      exact hdir

/-- The entries of the device are taken over, and the directory is still
one. -/
theorem takeEntries_steady (env : Env) (h : AtRest s) (hdir : s.isDir dir)
    (hvalid : ∀ e ∈ entries, ValidName e.2) :
    (takeEntries dir entries).Surely s fun r t =>
      r = .ok () ∧ t.Caching ∧ t.isDir dir := by
  refine Surely.bind_of_ok (directory_run hdir) ?_
  split_ifs
  · have hadd := Surely.forEach (I := fun t => AtRest t ∧ t.isDir dir)
      (g := fun e : Stat × Name => addEntry dir e.1 e.2) (l := entries)
      (s := s) (fun e he t ht => addEntry_steady ht.1 ht.2 (hvalid e he))
      ⟨h, hdir⟩
    exact hadd.mono fun r t ht => ⟨ht.1, ht.2.1.caching, ht.2.2⟩
  · have hmerge := Surely.forEach (I := fun t => AtRest t ∧ t.isDir dir)
      (g := fun e : Stat × Name => mergeEntry dir e.1 e.2) (l := entries)
      (s := s) (fun e he t ht => mergeEntry_steady ht.1 ht.2 (hvalid e he))
      ⟨h, hdir⟩
    refine Surely.bind hmerge ?_ fun err t _ ht => by cases ht.1
    rintro _ t - ⟨-, ht, hdir'⟩
    refine Surely.bind_of_ok (directory_run hdir') ?_
    have hin := ht.sound.tidy.inTree (isSome_of_isDir hdir')
    obtain ⟨t', hrun, hprune⟩ := forEach_prune (ht.good env) ht.caching
      hdir' hin (entries.map Prod.snd)
    exact ⟨_, t', hrun, rfl, hprune.caching, hprune.isDir⟩

theorem tame_readdirAt (henv : env.Proper) (h : AtRest s)
    (hdir : s.isDir dir) : Tame (readdirAt env path dir) s := by
  apply Tame.bind_deref (isSome_of_isDir hdir)
  intro node _
  refine Surely.bind (Q := fun _ t => t.Caching ∧ t.isDir dir) ?_ ?_
    fun _ _ _ ht => ht.1
  · refine Surely.when (fun _ => ?_) fun _ => ⟨h.caching, hdir⟩
    have hrequest := request_apply env (.statdir path) s
    have hdir₁ : (s.apply (.clock (env.delay s.tick))).isDir dir := hdir
    cases hanswer : env.answer s.tick (.statdir path) with
    | error err =>
        rw [hanswer] at hrequest
        exact ⟨_, _, bind_of_error hrequest, h.caching, hdir₁⟩
    | ok entries =>
        rw [hanswer] at hrequest
        refine Surely.bind_of_ok hrequest ?_
        have htake := takeEntries_steady env (h.clock _) hdir₁
          fun e he => henv _ _ _ hanswer e he
        refine Surely.bind htake ?_ fun err t _ ht => by cases ht.1
        rintro _ t - ⟨-, ht, hdir'⟩
        obtain ⟨d, hd, -⟩ := isDir_iff.mp hdir'
        refine Surely.bind_of_ok (deref_apply hd) ?_
        refine ⟨_, _, edit_apply _ _, ht, ?_⟩
        rw [isDir_apply rfl]
        exact hdir'
  · rintro _ t - ⟨ht, hdir'⟩
    apply Tame.bind_directory hdir'
    exact Surely.bind_of_ok (state_apply t) (Tame.pure ht)

end Listing

section Making

theorem Tame.bind_vacancy {f : Bool → Fs β} (h : AtRest s)
    (hin : s.InTree parent)
    (hf : ∀ overwrite, s.isDir parent → Tame (f overwrite) s) :
    Tame (vacancy parent name >>= f) s := by
  unfold vacancy
  rw [bind_assoc]
  apply Tame.bind_asDirectory h.caching (h.isSome hin)
  intro hdir
  cases hlookup : (s.children parent).lookup name with
  | none => exact Surely.bind_of_ok (pure_apply _ _) (hf _ hdir)
  | some c =>
      have hwf := h.sound.tidy.wf
      obtain ⟨node, hnode, -⟩ := hwf.listed (hwf.lookup_iff.mp hlookup)
      change Tame ((deref c >>= fun node => _) >>= f) s
      rw [bind_assoc]
      refine Surely.bind_of_ok (deref_apply hnode) ?_
      rw [bind_assoc]
      refine Surely.bind_require (fun _ => ?_) h.caching
      exact Surely.bind_of_ok (pure_apply _ _) (hf _ hdir)

/-- A new node takes the place of the old one, if any. -/
theorem tame_createAt {req : Req Unit} {overwrite : Bool} (h : AtRest s)
    (hdir : s.isDir parent) :
    Tame (createAt env req file parent path overwrite) s := by
  apply Tame.bind_request_outcome
  have hdir₁ : (s.apply (.clock (env.delay s.tick))).isDir parent := hdir
  have h₁ := h.clock (env.delay s.tick)
  cases env.answer s.tick req with
  | error err =>
      apply Tame.bind_refreshStat (isSome_of_isDir hdir₁)
      exact fun _ => Tame.fail h₁.caching
  | ok _ =>
      apply Tame.bind_request h₁.caching
      intro stat _
      set s₂ := (s.apply (.clock (env.delay s.tick))).apply
        (.clock (env.delay (s.apply (.clock (env.delay s.tick))).tick))
      have h₂ : AtRest s₂ := h₁.clock _
      have hdir₂ : s₂.isDir parent := hdir₁
      apply surely_bind_alloc h₂ hdir₂
      intro n s₃ hnode₃ hc₃ hdir₃
      apply Tame.bind_insert hc₃ hdir₃ hnode₃
      · exact fun _ => Tame.pure (caching_apply hc₃ fun c hc => by cases hc)
      · intro old _ _
        refine Surely.bind_of_ok (destroy_apply _ _) (Tame.pure ?_)
        have hc₄ : (s₃.apply (.detach parent path.filename)).Caching := hc₃
        have hc₅ := caching_apply (e := .attach parent n) hc₄
          fun c hc => by cases hc
        exact hc₅

end Making

section Removing

theorem Tame.bind_traverseNode {f : Id → Fs β} (h : AtRest s)
    (hin : s.InTree n)
    (hf : ∀ c, (name, c) ∈ s.children n → Tame (f c) s) :
    Tame (traverseNode n name >>= f) s := by
  apply Tame.bind (tame_traverseNode h.caching (h.isSome hin))
  intro c t hrun _
  obtain ⟨rfl, hfound⟩ := traverseNode_cases hrun
  exact hf c (h.sound.tidy.wf.lookup_iff.mp (hfound c rfl))

/-- The child that is taken out comes back, or it goes. -/
theorem tame_unlinkAt (h : AtRest s)
    (hmem : (path.filename, n) ∈ s.children parent) :
    Tame (unlinkAt env parent n path) s := by
  have hwf := h.sound.tidy.wf
  have hdir : s.isDir parent := isDir_of_lookup (hwf.lookup_iff.mpr hmem)
  obtain ⟨node, hnode, -⟩ := hwf.listed hmem
  refine Surely.bind_of_ok (edit_apply _ _) ?_
  have hc₁ : (s.apply (.detach parent path.filename)).Caching := h.caching
  have hdir₁ : (s.apply (.detach parent path.filename)).isDir parent := by
    rw [isDir_apply rfl]
    exact hdir
  have hlive₁ : ((s.apply (.detach parent path.filename)).nodes n).isSome := by
    rw [isSome_apply rfl, hnode]
    rfl
  set s₁ := s.apply (.detach parent path.filename)
  apply Tame.bind_request_outcome
  have hc₂ : (s₁.apply (.clock (env.delay s₁.tick))).Caching := hc₁
  have hdir₂ : (s₁.apply (.clock (env.delay s₁.tick))).isDir parent := hdir₁
  have hlive₂ : ((s₁.apply (.clock (env.delay s₁.tick))).nodes n).isSome :=
    hlive₁
  set s₂ := s₁.apply (.clock (env.delay s₁.tick))
  cases env.answer s₁.tick (.unlink path) with
  | error err =>
      obtain ⟨node₂, hnode₂⟩ := Option.isSome_iff_exists.mp hlive₂
      have hrefresh : ∀ t : FileTree, t.Caching → t.isDir parent →
          Tame (refreshStat env parent .omit .now >>= fun _ =>
            Program.fail err : Fs Unit) t := fun t ht hdir' =>
        Tame.bind_refreshStat (isSome_of_isDir hdir') fun _ => Tame.fail ht
      apply Tame.bind_insert hc₂ hdir₂ hnode₂
      · intro _
        apply hrefresh
        · exact caching_apply hc₂ fun c hc => by cases hc
        · rw [isDir_apply rfl]
          exact hdir₂
      · intro old _ _
        apply hrefresh
        · exact caching_apply hc₂ fun c hc => by cases hc
        · rw [isDir_apply rfl, isDir_apply rfl]
          exact hdir₂
  | ok _ =>
      refine Surely.bind_of_ok (edit_apply _ _) ?_
      apply Tame.bind_invalidateOne (s := s₂.apply (.eraseHandles n)) hc₂
      exact fun t _ ht => ⟨_, _, destroy_apply n t, ht⟩

theorem Tame.bind_extract {f : Option Id → Fs β} (hdir : s.isDir dir)
    (hnone : (s.children dir).lookup name = none → Tame (f none) s)
    (hsome : ∀ c, (s.children dir).lookup name = some c →
      Tame (f (some c)) (s.apply (.detach dir name))) :
    Tame (extract dir name >>= f) s := by
  unfold extract
  rw [bind_assoc]
  apply Tame.bind_directory hdir
  cases hlookup : (s.children dir).lookup name with
  | none => exact Surely.bind_of_ok (pure_apply _ _) (hnone hlookup)
  | some c => exact Surely.bind_of_ok rfl (hsome c hlookup)

theorem tame_rmdirAt (h : s.Caching) (hdir : s.isDir parent) :
    Tame (rmdirAt env parent path) s := by
  apply Tame.bind_request h
  intro _ _
  have hdir₁ : (s.apply (.clock (env.delay s.tick))).isDir parent := hdir
  apply Tame.bind_refreshStat (isSome_of_isDir hdir₁)
  intro stat
  apply Tame.bind_extract
  · rw [isDir_apply rfl]
    exact hdir₁
  · exact fun _ => Tame.pure h
  · exact fun c _ => ⟨_, _, destroy_apply _ _, h⟩

end Removing

end Fs

end Madbfs
