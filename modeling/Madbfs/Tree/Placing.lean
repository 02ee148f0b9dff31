/-
The operations that make, remove and move nodes keep them where they belong.
The kernel does not ask to move a directory below itself; where the handles are
watched, no file below a node that `rename` replaces is open.
-/
import Madbfs.Tree.Listing
import Madbfs.Tree.Atomic

namespace Madbfs

namespace FileTree

variable {watched : Prop} {s t : FileTree} {n m dir old : Id} {name : Name}
  {hands : List Id} {path path' : Path}

/-- A node below another one is at a longer path. -/
theorem WellFormed.resolve_below (hwf : s.WellFormed)
    (hn : s.resolve path = some n) (hbelow : s.Below n m) :
    ∃ rest, s.resolve (path ++ rest) = some m := by
  induction hbelow with
  | refl => exact ⟨[], by rwa [List.append_nil]⟩
  | @tail dir c hdir hmem ih =>
      obtain ⟨rest, hrest⟩ := ih
      obtain ⟨name, hchild⟩ := mem_successors.mp hmem
      refine ⟨rest ++ [name], ?_⟩
      rw [← List.append_assoc, resolve_append, hrest]
      change s.child dir name >>= pure = some c
      rw [hwf.child_eq hchild]
      rfl

theorem WellFormed.prefix_of_below (hwf : s.WellFormed)
    (hn : s.resolve path = some n) (hm : s.resolve path' = some m)
    (hbelow : s.Below n m) : path <+: path' := by
  obtain ⟨rest, hrest⟩ := hwf.resolve_below hn hbelow
  obtain ⟨up, hway⟩ := hwf.way_of_resolve hrest
  obtain ⟨up', hway'⟩ := hwf.way_of_resolve hm
  obtain ⟨rfl, -⟩ := hway.unique hwf hway'
  exact List.prefix_append path rest

theorem WellFormed.isSome_of_below (hwf : s.WellFormed)
    (hlive : (s.nodes n).isSome) (hbelow : s.Below n m) :
    (s.nodes m).isSome := by
  rcases Relation.ReflTransGen.cases_tail hbelow with rfl | ⟨p, -, hmem⟩
  · exact hlive
  · obtain ⟨name, hchild⟩ := mem_successors.mp hmem
    exact hwf.isSome_child hchild

/-- A handle points to no node that is not a regular file. -/
theorem Seated.not_opened {node : Node} (h : s.Seated)
    (hnode : s.nodes n = some node) (hfile : node.file.type ≠ some .regular) :
    ¬s.Opened n := by
  intro hopened
  have hkind := h n hopened
  rw [kind_eq hnode] at hkind
  exact hfile (Option.some.inj hkind)

/-- What is in the tree stays there when a node is listed. -/
theorem InTree.attach (hin : s.InTree m) : (s.apply (.attach dir n)).InTree m := by
  rw [InTree, root_apply]
  refine below_stays (fun k nm c _ hchild => ?_) hin
  cases hnode : s.nodes n with
  | none =>
      rw [show s.apply (.attach dir n) = s by
        rw [FileTree.apply, FileTree.attach, hnode]]
      exact hchild
  | some node =>
      obtain ⟨d, hd, hmem⟩ := mem_children.mp hchild
      by_cases hk : k = dir
      · subst hk
        have hdirectory : d.file.isDirectory = true := by
          cases hfile : d.file with
          | directory => rfl
          | _ =>
              rw [hfile] at hmem
              cases hmem
        rw [children_attach hd hdirectory hnode, if_pos rfl]
        exact List.mem_append_left _ hchild
      · rw [children, show (s.apply (.attach dir n)).nodes k = s.nodes k by
          rw [FileTree.apply, FileTree.attach, hnode]
          exact (nodes_modify _ _ _ _).trans (if_neg hk)]
        exact hchild

/-- The directory of a node that is in hand and not above it is in the tree. -/
theorem Tidy.inTree_of_hand (h : s.Tidy [n]) (hlive : (s.nodes dir).isSome)
    (hdir : ¬s.Below n dir) : s.InTree dir := by
  rcases h.placed dir hlive with hin | ⟨k, hk, hbelow⟩
  · exact hin
  · rw [List.mem_singleton.mp hk] at hbelow
    exact absurd hbelow hdir

/-- No file is open below a node that this one displaces there. -/
def Vacated (s : FileTree) (n toParent : Id) (tname : Name) : Prop :=
  ∀ old, s.Displaced n toParent tname old →
    ∀ m, s.Below old m → m ≠ old → ¬s.Opened m

/-- A node without children can be displaced. -/
theorem vacated_of_leaf {toParent : Id} {tname : Name}
    (hleaf : ∀ old, (tname, old) ∈ s.children toParent →
      s.children old = []) : s.Vacated n toParent tname := by
  intro old hold m hbelow hne
  exact absurd (below_leaf (hleaf old hold.1) hbelow) hne

end FileTree

namespace Fs

open Program FileTree

variable {watched : Prop} {s s' : FileTree} {n m dir parent old : Id}
  {name : Name} {env : Env} {α : Type} {path : Path} {stat : Stat}
  {file : File} {hands : List Id}

/-- A node that is in hand is put into a directory, in the place of the one
that was listed under its name. -/
theorem insert_hand {r : Except Errc (Option Id)}
    (h : s.Sound watched [n]) (hlabel : s.label n = some (name, some dir))
    (hvalid : ValidName name) (hdir : ¬s.Below n dir)
    (hrun : insert dir n true s = some (r, s')) :
    s'.InTree dir ∧ s'.handles = s.handles ∧
      (∀ m, s'.children m = if m = dir then
        ((s.children dir).filter fun e => e.1 ≠ name) ++ [(name, n)]
        else s.children m) ∧
      ((r = .ok none ∧ s'.Sound watched []) ∨
        ∃ old, r = .ok (some old) ∧ (name, old) ∈ s.children dir ∧
          s'.Sound watched [old]) := by
  obtain ⟨node, hnode, rfl, hparent⟩ := label_eq_some.mp hlabel
  obtain ⟨hisDir, hcases⟩ := insert_cases hnode hrun
  obtain ⟨d, hd, hdirectory⟩ := isDir_iff.mp hisDir
  have hin : s.InTree dir := h.tidy.inTree_of_hand (by rw [hd]; rfl) hdir
  have heq : s' = (s.apply (.detach dir node.name)).apply (.attach dir n) := by
    rw [insert_overwrite hisDir hnode] at hrun
    exact (Prod.mk.inj (Option.some.inj hrun)).2.symm
  obtain ⟨hchildren, -, -, hhandles, -⟩ := insert_views hisDir hlabel heq
  rcases hcases with ⟨hlookup, hr, hs'⟩ | ⟨old, hlookup, hcases⟩
  · have hsound : (s.apply (.attach dir n)).Sound watched [] :=
      attach_sound h (by simp) hisDir hin hnode hparent hvalid hlookup
    refine ⟨?_, hhandles, hchildren, .inl ⟨hr, ?_⟩⟩
    · rw [hs']
      exact hin.attach
    · rw [hs']
      exact hsound
  · have hmem := h.tidy.wf.lookup_iff.mp hlookup
    rcases hcases with ⟨-, hr, -⟩ | ⟨hover, -⟩
    swap
    · cases hover
    set s₁ := s.apply (.detach dir node.name) with hs₁
    have h₁ : s₁.Sound watched [old, n] := h.detach hin hmem
    have hbelow : ∀ {a m : Id}, s₁.Below a m → s.Below a m :=
      fun hb => below_of_children_subset shrinks_detach.children hb
    have hlive : (s₁.nodes dir).isSome := by
      rw [← isSome_label, label_detach, isSome_label, hd]
      rfl
    have hin₁ : s₁.InTree dir := by
      rcases h₁.tidy.placed dir hlive with hin₁ | ⟨k, hk, hb⟩
      · exact hin₁
      · rcases List.mem_cons.mp hk with rfl | hk
        · exact absurd (hbelow hb) (hin.not_below h.tidy.wf hmem)
        · rw [List.mem_singleton.mp hk] at hb
          exact absurd (hbelow hb) hdir
    have hne : old ≠ n := by
      rintro rfl
      exact (h.tidy.held _ List.mem_cons_self).2.1 _ _ hmem
    have hlabel₁ : s₁.label n = some (node.name, some dir) :=
      label_detach.trans hlabel
    obtain ⟨node₁, hnode₁, hname₁, hparent₁⟩ := label_eq_some.mp hlabel₁
    have hisDir₁ : s₁.isDir dir := by
      rw [isDir_of_core core_detach]
      exact hisDir
    have hsound : s'.Sound watched [old] := by
      rw [heq]
      refine attach_sound h₁ (fun k => ?_) hisDir₁ hin₁ hnode₁ hparent₁
        (by rwa [hname₁]) ?_
      · simp only [List.mem_cons, List.not_mem_nil, or_false]
        constructor
        · rintro rfl
          exact ⟨.inl rfl, hne⟩
        · rintro ⟨rfl | rfl, hk⟩
          · rfl
          · exact absurd rfl hk
      · rw [lookup_eq_none_iff, hname₁, children_detach, if_pos rfl]
        simp
    refine ⟨?_, hhandles, hchildren, .inr ⟨old, hr, hmem, hsound⟩⟩
    rw [heq]
    exact hin₁.attach

/-- A node in hand gets its new place. -/
theorem moveTo_sound {r : Except Errc Unit} (h : s.Sound watched hands)
    (hn : n ∈ hands) (hrun : moveTo n dir path s = some (r, s')) :
    r = .ok () ∧ s'.Sound watched hands ∧
      (∀ k, s'.children k = s.children k) ∧
      s'.label n = some (path.filename, some dir) ∧
      s'.handles = s.handles := by
  have hmoved : ∀ {t : FileTree}, t.Sound watched hands →
      (∀ k, t.children k = s.children k) → t.label n = s.label n →
      t.handles = s.handles →
      s' = (t.apply (.setName n path.filename)).apply (.setParent n dir) →
      s'.Sound watched hands ∧ (∀ k, s'.children k = s.children k) ∧
        s'.label n = some (path.filename, some dir) ∧
        s'.handles = s.handles := by
    rintro t ht hchildren hlabel hhandles rfl
    refine ⟨⟨(ht.tidy.setName hn).setParent hn, fun hw =>
      ((ht.seated hw).apply rfl rfl).apply rfl rfl⟩, fun k => ?_, ?_, ?_⟩
    · rw [children_setParent, children_setName, hchildren]
    · obtain ⟨hlive, -⟩ := ht.tidy.held n hn
      obtain ⟨node, hnode⟩ := Option.isSome_iff_exists.mp hlive
      rw [label_setParent, if_pos rfl, label_setName, if_pos rfl,
        label_eq hnode]
      rfl
    · exact hhandles
  unfold moveTo cacheRename at hrun
  rw [bind_assoc, bind_of_ok (state_apply s)] at hrun
  cases hcache : s.cache with
  | none =>
      rw [hcache] at hrun
      cases hrun
      exact ⟨rfl, hmoved h (fun _ => rfl) rfl rfl rfl⟩
  | some c =>
      rw [hcache] at hrun
      cases hrun
      exact ⟨rfl, hmoved (t := s.apply (.cache (c.rename n path)))
        (h.apply rfl) (fun _ => rfl) rfl rfl rfl⟩

theorem extract_found {r : Except Errc (Option Id)}
    (hlookup : (s.children dir).lookup name = some n)
    (hrun : extract dir name s = some (r, s')) :
    s' = s.apply (.detach dir name) := by
  obtain ⟨hisDir, -, -⟩ := extract_cases hrun
  unfold extract at hrun
  rw [bind_of_ok (directory_run hisDir)] at hrun
  simp only [hlookup] at hrun
  cases hrun
  rfl

/-- What `relink` needs to know of the two places. -/
structure Clear (watched : Prop) (s : FileTree) (fromParent toParent : Id)
    (sname tname : Name) (flags : Nat) : Prop where
  moved : ∀ n, (sname, n) ∈ s.children fromParent → ¬s.Below n toParent
  exchanged : hasFlag flags renameExchange = true →
    ∀ old, (tname, old) ∈ s.children toParent → ¬s.Below old fromParent
  closed : watched → hasFlag flags renameExchange = false →
    ∀ n, (sname, n) ∈ s.children fromParent → s.Vacated n toParent tname

theorem Clear.congr {t : FileTree} {fromParent toParent : Id}
    {sname tname : Name} {flags : Nat}
    (h : Clear watched s fromParent toParent sname tname flags)
    (hshape : SameShape s t) (hopened : ∀ m, t.Opened m → s.Opened m) :
    Clear watched t fromParent toParent sname tname flags := by
  refine ⟨fun n hmem => ?_, fun hflag old hmem => ?_,
    fun hw hflag n hmem old hold m hbelow hm ho => ?_⟩
  · rw [hshape.children] at hmem
    rw [hshape.below]
    exact h.moved n hmem
  · rw [hshape.children] at hmem
    rw [hshape.below]
    exact h.exchanged hflag old hmem
  · rw [hshape.children] at hmem
    rw [hshape.displaced] at hold
    rw [hshape.below] at hbelow
    exact h.closed hw hflag n hmem old hold m hbelow hm (hopened m ho)

/-- What was below a displaced node was there before. -/
theorem below_displaced {t : FileTree} {hands : List Id}
    (ht : t.Sound watched hands) (hold : old ∈ hands) (hdir : t.InTree dir)
    (hchildren : ∀ k, k ≠ dir → ∀ e ∈ t.children k, e ∈ s.children k)
    (hbelow : t.Below old m) : s.Below old m := by
  refine below_stays (fun k nm c hk hchild => ?_) hbelow
  refine hchildren k ?_ _ hchild
  rintro rfl
  exact ht.tidy.not_below hold hdir hk

/-- What is listed when a node has been taken from its place is another one. -/
theorem ne_of_mem_detach {name' : Name} {dir' : Id} (hwf : s.WellFormed)
    (hmem : (name, n) ∈ s.children dir)
    (hold : (name', old) ∈ (s.apply (.detach dir name)).children dir') :
    old ≠ n := by
  rintro rfl
  rw [children_detach] at hold
  split_ifs at hold with hsame
  · obtain ⟨hstill, hkey⟩ := List.mem_filter.mp hold
    exact absurd (hwf.listed_once hstill hmem).1.symm (by simpa using hkey)
  · exact hsame (hwf.listed_once hold hmem).2.symm

/-- A displaced node takes the place that the other one had. -/
theorem exchange_sound {fromParent : Id} {source : Path}
    {r : Except Errc Unit} (h : s.Sound watched [old])
    (hsource : ValidName source.filename) (hapart : ¬s.Below old fromParent)
    (hgone : ∀ c, (source.filename, c) ∉ s.children fromParent)
    (hrun : (do
      moveTo old fromParent source
      let _ ← insert fromParent old false : Fs Unit) s = some (r, s')) :
    s'.Sound watched [] := by
  rcases bind_cases hrun with ⟨err, hmove, -⟩ | ⟨u, s₁, hmove, hrest⟩
  · cases (moveTo_sound h List.mem_cons_self hmove).1
  obtain ⟨-, h₁, hchildren₁, hlabel₁, -⟩ :=
    moveTo_sound h List.mem_cons_self hmove
  obtain ⟨node, hnode, hname, hparent⟩ := label_eq_some.mp hlabel₁
  have hfree : (s₁.children fromParent).lookup node.name = none := by
    rw [lookup_eq_none_iff, hname, hchildren₁]
    intro hmem
    obtain ⟨⟨key, c⟩, hc, rfl⟩ := List.mem_map.mp hmem
    exact hgone c hc
  have hempty : ∀ k, k ∈ ([] : List Id) ↔ k ∈ [old] ∧ k ≠ old := by simp
  have hfinal : ∀ {r : Except Errc (Option Id)} {t : FileTree},
      insert fromParent old false s₁ = some (r, t) → t.Sound watched [] := by
    intro r t hinsert
    obtain ⟨hisDir, hcases⟩ := insert_cases hnode hinsert
    rcases hcases with ⟨-, -, rfl⟩ | ⟨k, hk, -⟩
    · obtain ⟨d, hd, -⟩ := isDir_iff.mp hisDir
      refine attach_sound h₁ hempty hisDir ?_ hnode hparent (by rwa [hname])
        hfree
      refine h₁.tidy.inTree_of_hand (by rw [hd]; rfl) fun hb => hapart ?_
      exact below_of_children_subset
        (fun k e he => by rwa [hchildren₁] at he) hb
    · rw [hfree] at hk
      cases hk
  rcases bind_cases hrest with ⟨err, hinsert, -⟩ | ⟨o, s₂, hinsert, hret⟩
  · exact hfinal hinsert
  · cases hret
    exact hfinal hinsert

/-- A displaced node goes, if no file below it is open. -/
theorem replace_sound {r : Except Errc Unit} (h : s.Sound watched [old])
    (hclosed : watched → ∀ m, s.Below old m → m ≠ old → ¬s.Opened m)
    (hrun : (do
      invalidateOne old
      edit (.eraseHandles old)
      destroy old : Fs Unit) s = some (r, s')) : s'.Sound watched [] := by
  rcases bind_cases hrun with ⟨err, hone, -⟩ | ⟨u, s₁, hone, hrest⟩
  · cases (invalidateOne_effect hone).1
  obtain ⟨-, hsame, -⟩ := invalidateOne_effect hone
  rw [bind_of_ok (edit_apply _ _), destroy_apply] at hrest
  cases hrest
  refine ((h.recache hsame).apply (e := .eraseHandles old) rfl).destroy
    List.mem_cons_self (by simp) fun hw m hb ho => ?_
  by_cases hm : m = old
  · rw [hm] at ho
    exact opened_erase ho
  · have hb₁ : s.Below old m := by
      rw [hsame] at hb
      exact hb
    have ho₁ : s₁.Opened m := opened_apply rfl ho
    rw [hsame] at ho₁
    exact hclosed hw m hb₁ hm ho₁

/-- The end of `rename` keeps nodes and handles where they belong. -/
theorem relink_sound {fromParent toParent : Id} {source target : Path}
    {flags : Nat} {r : Except Errc Unit} (h : s.Sound watched [])
    (hclear : Clear watched s fromParent toParent source.filename
      target.filename flags)
    (hsource : ValidName source.filename) (htarget : ValidName target.filename)
    (hrun : relink fromParent toParent source target flags s = some (r, s')) :
    s'.Sound watched [] := by
  rcases bind_cases hrun with ⟨err, hextract, -⟩ | ⟨found, s₁, hextract, hrest⟩
  · cases (extract_cases hextract).2.1
  obtain ⟨-, hfound, hnone⟩ := extract_cases hextract
  cases hlookup : (s.children fromParent).lookup source.filename with
  | none =>
      rw [hlookup] at hfound
      cases hfound
      cases hrest
      rw [hnone hlookup]
      exact h
  | some n =>
  rw [hlookup] at hfound
  cases hfound
  have hmem := h.tidy.wf.lookup_iff.mp hlookup
  have hin := h.tidy.inTree (isSome_of_mem hmem)
  have hs₁ := extract_found hlookup hextract
  have h₁ : s₁.Sound watched [n] := by
    rw [hs₁]
    exact h.detach hin hmem
  have hsub₁ : ∀ k, ∀ e ∈ s₁.children k, e ∈ s.children k := by
    rw [hs₁]
    exact shrinks_detach.children
  rcases bind_cases hrest with ⟨err, hmove, -⟩ | ⟨u, s₂, hmove, hrest⟩
  · cases (moveTo_sound h₁ List.mem_cons_self hmove).1
  obtain ⟨-, h₂, hchildren₂, hlabel₂, hhandles₂⟩ :=
    moveTo_sound h₁ List.mem_cons_self hmove
  have hsub₂ : ∀ k, ∀ e ∈ s₂.children k, e ∈ s.children k := by
    intro k e he
    rw [hchildren₂] at he
    exact hsub₁ k e he
  have hdir₂ : ¬s₂.Below n toParent := fun hb =>
    hclear.moved n hmem (below_of_children_subset hsub₂ hb)
  rcases bind_cases hrest with ⟨err, hinsert, -⟩ | ⟨placed, s₃, hinsert, hrest⟩
  · obtain ⟨-, -, -, hcases⟩ := insert_hand h₂ hlabel₂ htarget hdir₂ hinsert
    rcases hcases with ⟨hr, -⟩ | ⟨old, hr, -⟩ <;> cases hr
  obtain ⟨hto, hhandles₃, hchildren₃, hcases⟩ :=
    insert_hand h₂ hlabel₂ htarget hdir₂ hinsert
  rcases hcases with ⟨hover, h₃⟩ | ⟨old, hover, hold, h₃⟩
  · cases hover
    split_ifs at hrest
    · cases hrest
    · cases hrest
      exact h₃
  cases hover
  have hold' := hsub₂ _ _ hold
  have hbelow₃ : ∀ {m}, s₃.Below old m → s.Below old m := by
    intro m hb
    refine below_displaced h₃ List.mem_cons_self hto (fun k hk e he => ?_) hb
    rw [hchildren₃, if_neg hk] at he
    exact hsub₂ k e he
  have hopened₃ : ∀ {m}, s₃.Opened m → s.Opened m := by
    intro m hm
    rw [opened_congr (hhandles₃.trans hhandles₂), hs₁] at hm
    exact hm
  split_ifs at hrest with hflag
  · -- The two change places.
    refine exchange_sound h₃ hsource (fun hb => hclear.exchanged hflag old hold'
      (hbelow₃ hb)) ?_ hrest
    have hgone : ∀ c, (source.filename, c) ∉ s₂.children fromParent := by
      intro c hc
      rw [hchildren₂, hs₁, children_detach, if_pos rfl] at hc
      simpa using (List.mem_filter.mp hc).2
    intro c hc
    rw [hchildren₃] at hc
    split_ifs at hc with hsame
    · rcases List.mem_append.mp hc with hc | hc
      · refine hgone c ?_
        rw [hsame]
        exact List.mem_of_mem_filter hc
      · obtain ⟨hkey, -⟩ := Prod.mk.inj (List.mem_singleton.mp hc)
        refine hgone old ?_
        rw [hsame, hkey]
        exact hold
    · exact hgone c hc
  · -- The one that was there goes.
    have hne : old ≠ n := by
      rw [hchildren₂, hs₁] at hold
      exact ne_of_mem_detach h.tidy.wf hmem hold
    exact replace_sound h₃ (fun hw m hb hm ho => hclear.closed hw
      (by simpa using hflag) n hmem old ⟨hold', hne⟩ m (hbelow₃ hb) hm
      (hopened₃ ho)) hrest

end Fs

end Madbfs
