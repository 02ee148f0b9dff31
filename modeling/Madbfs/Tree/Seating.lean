/-
The operations after their lookups: `rename` between two paths that do not lead
through one another, the ones that make a node or remove one, and `open`.
-/
import Madbfs.Tree.Placing

namespace Madbfs

namespace FileTree

variable {watched : Prop} {s t : FileTree} {m : Id} {path : Path}

/-- The parent of a node is at the parent path. -/
theorem WellFormed.resolve_parent {n dir : Id} {name : Name}
    (hwf : s.WellFormed) (hne : path ≠ [])
    (hresolve : s.resolve path = some n)
    (hlabel : s.label n = some (name, some dir)) :
    s.resolve path.parentPath = some dir := by
  rw [← Path.parentPath_filename hne, resolve_append] at hresolve
  obtain ⟨d, hparent, hlast⟩ := Option.bind_eq_some_iff.mp hresolve
  rw [List.foldlM_cons] at hlast
  obtain ⟨c, hchild, hc⟩ := Option.bind_eq_some_iff.mp hlast
  cases hc
  rw [child_eq_lookup] at hchild
  cases (hwf.label (hwf.lookup_iff.mp hchild)).symm.trans hlabel
  exact hparent

end FileTree

namespace Fs

open Program FileTree

variable {watched : Prop} {s s' : FileTree} {n m dir parent : Id}
  {name : Name} {env : Env} {α : Type} {path source target : Path}
  {stat : Stat} {file : File} {flags : Nat} {r : Except Errc Unit}

section Rename

/-- `rename` after its lookups.  Only if the device agrees is anything moved. -/
theorem renameAt_sound {fromParent toParent : Id} (h : s.Sound watched [])
    (hclear : env.answer s.tick (.rename source target flags) = .ok () →
      Clear watched s fromParent toParent source.filename target.filename
        flags)
    (hsource : ValidName source.filename) (htarget : ValidName target.filename)
    (hrun : renameAt env fromParent toParent source target flags s =
      some (r, s')) : s'.Sound watched [] := by
  unfold renameAt at hrun
  rcases bind_cases hrun with ⟨err, hreq, -⟩ | ⟨u, s₀, hreq, hrun⟩
  · rw [request_apply] at hreq
    obtain ⟨-, rfl⟩ := Prod.mk.inj (Option.some.inj hreq)
    exact h.apply rfl
  rw [request_apply] at hreq
  obtain ⟨hanswer, rfl⟩ := Prod.mk.inj (Option.some.inj hreq)
  have h₀ : (s.apply (.clock (env.delay s.tick))).Sound watched [] :=
    h.apply rfl
  rcases bind_cases hrun with ⟨err, hfrom, -⟩ | ⟨u, s₁, hfrom, hrun⟩
  · obtain ⟨node, -, hr, -⟩ := refreshStat_cases hfrom
    cases hr
  obtain ⟨node, -, -, rfl⟩ := refreshStat_cases hfrom
  rcases bind_cases hrun with ⟨err, hto, -⟩ | ⟨u, s₂, hto, hrun⟩
  · obtain ⟨node, -, hr, -⟩ := refreshStat_cases hto
    cases hr
  obtain ⟨node', -, -, rfl⟩ := refreshStat_cases hto
  refine relink_sound ((h₀.apply rfl).apply rfl)
    ((hclear hanswer).congr ?_ ?_) hsource htarget hrun
  · exact (sameShape_apply rfl).trans
      ((sameShape_apply rfl).trans (sameShape_apply rfl))
  · intro m hm
    exact hm

theorem obeys_renameCheck_of {d : Discipline FileTree}
    (hlookup : ∀ s, (traverseOrBuild env target).Obeys d s fun _ _ => True) :
    (renameCheck env target flags).Obeys d s fun _ _ => True := by
  unfold renameCheck
  split_ifs
  · apply Obeys.bind (hlookup _)
    intro n s₁ _ _ _
    apply quiet_bind_deref
    intro node _
    split
    · exact Obeys.fail
    · exact Obeys.pure fun _ => trivial
  · refine Obeys.bind (Q := fun _ _ => True)
      (Obeys.outcome (hlookup _) fun _ _ _ _ => trivial) fun r s₁ _ _ _ => ?_
    cases r with
    | error err => exact Obeys.pure fun _ => trivial
    | ok n =>
        apply quiet_bind_deref
        intro node _
        unfold Program.require
        split_ifs
        · exact Obeys.pure fun _ => trivial
        · exact Obeys.fail
  · exact Obeys.pure fun _ => trivial

/-- The parent of a node that a path leads to. -/
theorem parentOf_at {r : Except Errc Id} (hwf : s.WellFormed)
    (hne : path ≠ []) (hat : s.resolve path = some n)
    (hrun : parentOf n s = some (r, s')) :
    ∃ p, r = .ok p ∧ s' = s ∧ s.resolve path.parentPath = some p := by
  obtain ⟨node, hnode, hrest⟩ := bind_deref_cases hrun
  cases hplace : node.parent with
  | none =>
      rw [hplace] at hrest
      cases hrest
  | some p =>
      rw [hplace] at hrest
      cases hrest
      exact ⟨p, rfl, rfl, hwf.resolve_parent hne hat
        (label_eq_some.mpr ⟨node, hnode, rfl, hplace⟩)⟩

theorem asDirectory_same {r : Except Errc (List (Name × Id))}
    (hrun : asDirectory n s = some (r, s')) : s' = s := by
  obtain ⟨node, hnode, hrest⟩ := bind_deref_cases hrun
  cases hfile : node.file.asDirectory <;> rw [hfile] at hrest <;>
    cases hrest <;> rfl

/-- The conditions on the paths of `rename`: neither leads through the node at
the other one. -/
structure Free (source target : Path) (flags : Nat) : Prop where
  moved : ¬source <+: target.parentPath
  exchanged : hasFlag flags renameExchange = true →
    ¬target <+: source.parentPath

/-- What the conditions say of the nodes the lookups have found. -/
theorem Free.clear {t : FileTree} {fromParent toParent : Id}
    (hfree : Free source target flags) (ht : t.Sound watched [])
    (hsource : source ≠ []) (htarget : target ≠ [])
    (hfrom : (t.nodes fromParent).isSome →
      t.resolve source.parentPath = some fromParent)
    (hto : (t.nodes toParent).isSome →
      t.resolve target.parentPath = some toParent)
    (hclosed : watched → hasFlag flags renameExchange = false →
      ∀ n, (source.filename, n) ∈ t.children fromParent →
        t.Vacated n toParent target.filename) :
    Clear watched t fromParent toParent source.filename target.filename
      flags := by
  have hchild : ∀ {path : Path} {dir c : Id}, path ≠ [] →
      t.resolve path.parentPath = some dir →
      (path.filename, c) ∈ t.children dir → t.resolve path = some c := by
    intro path dir c hne hdir hmem
    rw [resolve_eq_child hne hdir]
    exact ht.tidy.wf.child_eq hmem
  have hlive : ∀ {name c dir m}, (name, c) ∈ t.children dir → t.Below c m →
      (t.nodes m).isSome := fun hmem hbelow =>
    ht.tidy.wf.isSome_of_below (ht.tidy.wf.isSome_child hmem) hbelow
  refine ⟨fun c hmem hbelow => ?_, fun hflag old hmem hbelow => ?_, hclosed⟩
  · have hc := hchild hsource (hfrom (isSome_of_mem hmem)) hmem
    exact hfree.moved (ht.tidy.wf.prefix_of_below hc (hto (hlive hmem hbelow))
      hbelow)
  · have hold := hchild htarget (hto (isSome_of_mem hmem)) hmem
    exact hfree.exchanged hflag (ht.tidy.wf.prefix_of_below hold
      (hfrom (hlive hmem hbelow)) hbelow)

theorem rename_sound (h : s.Sound watched []) (hne : target ≠ [])
    (hsource : ∀ name ∈ source, ValidName name)
    (htarget : ∀ name ∈ target, ValidName name)
    (hfree : Free source target flags)
    (hclosed : watched → hasFlag flags renameExchange = false →
      ∀ n fromParent toParent t,
        RenameLookups env s t n fromParent toParent source target flags →
        env.answer t.tick (.rename source target flags) = .ok () →
        ∀ c, (source.filename, c) ∈ t.children fromParent →
          t.Vacated c toParent target.filename)
    (hrun : rename env source target flags s = some (r, s')) :
    s'.Sound watched [] := by
  cases hempty : source.isEmpty with
  | true =>
      unfold rename at hrun
      rw [hempty] at hrun
      cases hrun
      exact h
  | false =>
  have hsourceNe : source ≠ [] := by
    rintro rfl
    cases hempty
  have hrequire : require (!source.isEmpty) Errc.operationNotSupported s =
      some (.ok (), s) := by
    rw [hempty]
    rfl
  unfold rename at hrun
  rw [bind_of_ok hrequire] at hrun
  rcases bind_cases hrun with ⟨err, hlookup, -⟩ | ⟨n, s₁, hlookup, hrun⟩
  · exact (sits_traverseOrBuild hsource h _ _ hlookup).1 h
  obtain ⟨h₁, hat₁⟩ := traverseOrBuild_at h hsource hlookup
  rcases bind_cases hrun with ⟨err, hparent, -⟩ | ⟨fromParent, t, hparent, hrun⟩
  · obtain ⟨p, hp, -⟩ := parentOf_at h₁.tidy.wf hsourceNe hat₁ hparent
    cases hp
  obtain ⟨p, hp, ht, hfrom₁⟩ :=
    parentOf_at h₁.tidy.wf hsourceNe hat₁ hparent
  cases hp
  rw [ht] at hparent hrun
  have hvalid := valid_parentPath htarget
  rcases bind_cases hrun with ⟨err, hlookup', -⟩ | ⟨toParent, s₂, hlookup', hrun⟩
  · exact (sits_traverseOrBuild hvalid h₁ _ _ hlookup').1 h₁
  obtain ⟨h₂, hat₂⟩ := traverseOrBuild_at h₁ hvalid hlookup'
  have hsettled₂ := (settles_traverseOrBuild trivial _ _ hlookup').1
  rcases bind_cases hrun with ⟨err, hdir, -⟩ | ⟨list, t', hdir, hrun⟩
  · rw [asDirectory_same hdir]
    exact h₂
  obtain rfl := (asDirectory_same hdir).symm
  have hcheck : (renameCheck env target flags).Obeys (sitting watched) s₂
      fun _ _ => True :=
    obeys_renameCheck_of fun _ => sits_traverseOrBuild htarget
  rcases bind_cases hrun with ⟨err, hcheckRun, -⟩ | ⟨u, s₃, hcheckRun, hrun⟩
  · exact (hcheck h₂ _ _ hcheckRun).1 h₂
  have h₃ : s₃.Sound watched [] := (hcheck h₂ _ _ hcheckRun).1 h₂
  have hsettled₃ : Settled s₂ s₃ :=
    (obeys_renameCheck_of (fun _ => settles_traverseOrBuild) trivial _ _
      hcheckRun).1
  have hlookups : RenameLookups env s s₃ n fromParent toParent source target
      flags := ⟨s₁, s₂, list, hlookup, hparent, hlookup', hdir, hcheckRun⟩
  refine renameAt_sound h₃ (fun hanswer => ?_)
    (valid_filename hsourceNe hsource) (valid_filename hne htarget) hrun
  exact hfree.clear h₃ hsourceNe hne
    ((Settled.trans hsettled₂ hsettled₃).resolve h₁.tidy h₃.tidy hfrom₁)
    (hsettled₃.resolve h₂.tidy h₃.tidy hat₂) fun hw hflag =>
      hclosed hw hflag n fromParent toParent s₃ hlookups hanswer

end Rename

section Making

/-- No file is open at an `Error` node. -/
theorem closed_of_error {node : Node} (hseated : s.Seated)
    (hnode : s.nodes n = some node) (herror : node.file.isError)
    (hbelow : s.Below n m) : ¬s.Opened m := by
  have hleaf : s.children n = [] := by
    rw [children_of_nodes hnode]
    cases hfile : node.file with
    | directory children synced =>
        rw [hfile] at herror
        cases herror
    | _ => rfl
  rw [below_leaf hleaf hbelow]
  refine hseated.not_opened hnode fun htype => ?_
  cases hfile : node.file with
  | error err =>
      rw [hfile] at htype
      cases htype
  | _ =>
      rw [hfile] at herror
      cases herror

/-- A new node takes a place that is free, or that of an `Error` node. -/
theorem place_sound {overwrite : Bool} {r : Except Errc Id}
    (node : Node) (h : s.Sound watched []) (hparent : (s.nodes parent).isSome)
    (hfile : node.file.children = []) (hplace : node.parent = some parent)
    (hvalid : ValidName node.name)
    (hroom : overwrite = true → ∀ old, (node.name, old) ∈ s.children parent →
      ∃ onode, s.nodes old = some onode ∧ onode.file.isError)
    (hrun : (do
      match ← insert parent ⟨s.nextId + 1⟩ overwrite with
      | none => return ⟨s.nextId + 1⟩
      | some old => do
          destroy old
          return ⟨s.nextId + 1⟩ : Fs Id)
      (s.apply (.alloc ⟨s.nextId + 1⟩ node)) = some (r, s')) :
    s'.Sound watched [] := by
  obtain ⟨hbelow, hclosed⟩ := opened_alloc h node hfile hparent
  have h₁ := h.alloc hfile
  have hchildren₁ : ∀ k, (s.apply (.alloc ⟨s.nextId + 1⟩ node)).children k =
      if k = ⟨s.nextId + 1⟩ then [] else s.children k := fun k => by
    rw [children_alloc, hfile]
  have hnode : (s.apply (.alloc ⟨s.nextId + 1⟩ node)).nodes ⟨s.nextId + 1⟩ =
      some node := Function.update_self _ _ _
  have hnodes : ∀ k, k ≠ ⟨s.nextId + 1⟩ →
      (s.apply (.alloc ⟨s.nextId + 1⟩ node)).nodes k = s.nodes k :=
    fun k hk => Function.update_of_ne hk _ _
  have hhandles : (s.apply (.alloc ⟨s.nextId + 1⟩ node)).handles =
      s.handles := rfl
  set n : Id := ⟨s.nextId + 1⟩ with hn
  set s₁ := s.apply (.alloc n node) with hs₁
  cases overwrite with
  | false =>
      rcases bind_cases hrun with ⟨err, hinsert, -⟩ | ⟨o, s₂, hinsert, hrest⟩
      · exact (insert_sound h₁ hnode hplace hvalid hbelow hclosed hinsert).1
      · obtain ⟨h₂, ⟨ho, -⟩ | ho⟩ :=
          insert_sound h₁ hnode hplace hvalid hbelow hclosed hinsert
        · cases ho
          cases hrest
          exact h₂
        · cases ho
  | true =>
      have hlabel : s₁.label n = some (node.name, some parent) := by
        rw [label_eq hnode, hplace]
      rcases bind_cases hrun with ⟨err, hinsert, -⟩ | ⟨o, s₂, hinsert, hrest⟩
      · obtain ⟨-, -, -, ⟨hr, -⟩ | ⟨old, hr, -⟩⟩ :=
          insert_hand h₁ hlabel hvalid hbelow hinsert <;> cases hr
      obtain ⟨hin, hhandles₂, hchildren₂, ⟨ho, h₂⟩ | ⟨old, ho, hold, h₂⟩⟩ :=
        insert_hand h₁ hlabel hvalid hbelow hinsert
      · cases ho
        cases hrest
        exact h₂
      · cases ho
        dsimp only at hrest
        rw [bind_of_ok (destroy_apply _ _)] at hrest
        cases hrest
        have hold' : (node.name, old) ∈ s.children parent := by
          rw [hchildren₁] at hold
          split_ifs at hold
          · cases hold
          · exact hold
        obtain ⟨onode, honode, herror⟩ := hroom rfl old hold'
        refine h₂.destroy List.mem_cons_self (by simp) fun hw m hb ho => ?_
        have hb₁ : s.Below old m := by
          refine below_displaced h₂ List.mem_cons_self hin
            (fun k hk e he => ?_) hb
          rw [hchildren₂, if_neg hk, hchildren₁] at he
          split_ifs at he
          · cases he
          · exact he
        rw [opened_congr (hhandles₂.trans hhandles)] at ho
        exact closed_of_error (h.seated hw) honode herror hb₁ ho

/-- `mknod` and `mkdir` after their lookups. -/
theorem createAt_sound {req : Req Unit} {overwrite : Bool}
    {r : Except Errc Id} (h : s.Sound watched [])
    (hfile : file.children = []) (hvalid : ValidName path.filename)
    (hvacancy : vacancy parent path.filename s = some (.ok overwrite, s))
    (hrun : createAt env req file parent path overwrite s = some (r, s')) :
    s'.Sound watched [] := by
  obtain ⟨d, list, synced, hd, hlist, hroom⟩ := vacancy_cases hvacancy
  have hchildren : s.children parent = list := by
    rw [children_of_nodes hd, hlist]
    rfl
  unfold createAt at hrun
  rw [bind_of_ok (outcome_apply (request_apply env req s))] at hrun
  have h₁ : (s.apply (.clock (env.delay s.tick))).Sound watched [] :=
    h.apply rfl
  cases hanswer : env.answer s.tick req with
  | error err =>
      rw [hanswer] at hrun
      have hobeys : (do
          refreshStat env parent .omit .now
          fail err : Fs Id).Obeys (sitting watched)
          (s.apply (.clock (env.delay s.tick))) fun _ _ => True :=
        Obeys.bind (quiet_refreshStat allows_sitting) fun _ _ _ _ _ =>
          Obeys.fail
      exact (hobeys h₁ _ _ hrun).1 h₁
  | ok u =>
      rw [hanswer] at hrun
      dsimp only at hrun
      set s₁ := s.apply (.clock (env.delay s.tick)) with hs₁
      rcases bind_cases hrun with ⟨err, hstat, -⟩ | ⟨stat, s₂, hstat, hrest⟩
      · rw [request_apply] at hstat
        obtain ⟨-, rfl⟩ := Prod.mk.inj (Option.some.inj hstat)
        exact h₁.apply rfl
      · rw [request_apply] at hstat
        obtain ⟨-, rfl⟩ := Prod.mk.inj (Option.some.inj hstat)
        refine place_sound (.create path.filename (some parent) stat file)
          (h₁.apply rfl) ?_ hfile rfl hvalid ?_ hrest
        · change (s.nodes parent).isSome = true
          rw [hd]
          rfl
        · intro hover old hold
          have hold' : (path.filename, old) ∈ s.children parent := hold
          have hlookup := h.tidy.wf.lookup_iff.mpr hold'
          rw [hchildren] at hlookup
          rcases hroom with hnone | ⟨-, o, onode, hsome, honode, herror⟩
          · rw [hnone] at hlookup
            cases hlookup
          · cases hsome.symm.trans hlookup
            exact ⟨onode, honode, herror⟩

end Making

section Removing

/-- `unlink` of a child that is no directory. -/
theorem unlinkAt_sound (h : s.Sound watched [])
    (hmem : (path.filename, n) ∈ s.children parent)
    (hleaf : s.children n = [])
    (hrun : unlinkAt env parent n path s = some (r, s')) :
    s'.Sound watched [] := by
  have hin := h.tidy.inTree (isSome_of_mem hmem)
  have h₁ := h.detach hin hmem
  have hchildren₁ : ∀ k, (s.apply (.detach parent path.filename)).children k =
      if k = parent then
        (s.children parent).filter fun e => e.1 ≠ path.filename
      else s.children k := fun k => children_detach
  have hlabel₁ : (s.apply (.detach parent path.filename)).label n =
      some (path.filename, some parent) := by
    rw [label_detach]
    exact h.tidy.wf.label hmem
  unfold unlinkAt at hrun
  rw [bind_of_ok (edit_apply _ _)] at hrun
  set s₁ := s.apply (.detach parent path.filename) with hs₁
  rw [bind_of_ok (outcome_apply (request_apply env (.unlink path) s₁))] at hrun
  have h₂ : (s₁.apply (.clock (env.delay s₁.tick))).Sound watched [n] :=
    h₁.apply rfl
  have hchildren₂ : ∀ k, (s₁.apply (.clock (env.delay s₁.tick))).children k =
      s₁.children k := fun _ => rfl
  have hlabel₂ : (s₁.apply (.clock (env.delay s₁.tick))).label n =
      s₁.label n := rfl
  set s₂ := s₁.apply (.clock (env.delay s₁.tick)) with hs₂
  have hleaf₂ : s₂.children n = [] := by
    rw [hchildren₂, hchildren₁]
    split_ifs with hn
    · rw [← hn, hleaf]
      rfl
    · exact hleaf
  cases hanswer : env.answer s₁.tick (.unlink path) with
  | error err =>
      rw [hanswer] at hrun
      dsimp only at hrun
      have hdir : ¬s₂.Below n parent := by
        intro hb
        have hnp := below_leaf hleaf₂ hb
        rw [← hnp] at hmem
        rw [hnp, hleaf] at hmem
        cases hmem
      have hinsert : ∀ {o t}, insert parent n true s₂ = some (o, t) →
          t.Sound watched [] := by
        intro o t hinsert
        obtain ⟨-, -, -, ⟨-, ht⟩ | ⟨old, -, hold, -⟩⟩ :=
          insert_hand h₂ (hlabel₂.trans hlabel₁) (h.tidy.wf.valid hmem) hdir
            hinsert
        · exact ht
        · rw [hchildren₂, hchildren₁, if_pos rfl] at hold
          simp at hold
      rcases bind_cases hrun with ⟨err', hins, -⟩ | ⟨o, t, hins, hrest⟩
      · exact hinsert hins
      · have hobeys : (do
            refreshStat env parent .omit .now
            fail err : Fs Unit).Obeys (sitting watched) t fun _ _ => True :=
          Obeys.bind (quiet_refreshStat allows_sitting) fun _ _ _ _ _ =>
            Obeys.fail
        exact (hobeys (hinsert hins) _ _ hrest).1 (hinsert hins)
  | ok u =>
      rw [hanswer] at hrun
      dsimp only at hrun
      rw [bind_of_ok (edit_apply _ _)] at hrun
      have h₃ : (s₂.apply (.eraseHandles n)).Sound watched [n] := h₂.apply rfl
      have hclosed : ¬(s₂.apply (.eraseHandles n)).Opened n := opened_erase
      have hleaf₃ : (s₂.apply (.eraseHandles n)).children n = [] := hleaf₂
      set s₃ := s₂.apply (.eraseHandles n) with hs₃
      rcases bind_cases hrun with ⟨err, hone, -⟩ | ⟨u', s₄, hone, hrest⟩
      · cases (invalidateOne_effect hone).1
      obtain ⟨-, hsame, -⟩ := invalidateOne_effect hone
      rw [destroy_apply] at hrest
      cases hrest
      refine (h₃.recache hsame).destroy List.mem_cons_self (by simp)
        fun hw m hb ho => ?_
      rw [hsame] at hb ho
      have hm : m = n := below_leaf hleaf₃ hb
      rw [hm] at ho
      exact hclosed ho

/-- `rmdir` of a directory below which no file is open. -/
theorem rmdirAt_sound (h : s.Sound watched [])
    (hclosed : watched → ∀ c, (path.filename, c) ∈ s.children parent →
      ∀ m, s.Below c m → ¬s.Opened m)
    (hrun : rmdirAt env parent path s = some (r, s')) :
    s'.Sound watched [] := by
  unfold rmdirAt at hrun
  rcases bind_cases hrun with ⟨err, hreq, -⟩ | ⟨u, s₁, hreq, hrun⟩
  · rw [request_apply] at hreq
    obtain ⟨-, rfl⟩ := Prod.mk.inj (Option.some.inj hreq)
    exact h.apply rfl
  rw [request_apply] at hreq
  obtain ⟨-, rfl⟩ := Prod.mk.inj (Option.some.inj hreq)
  have h₁ : (s.apply (.clock (env.delay s.tick))).Sound watched [] :=
    h.apply rfl
  rcases bind_cases hrun with ⟨err, hrefresh, -⟩ | ⟨u, s₂, hrefresh, hrun⟩
  · obtain ⟨node, -, hr, -⟩ := refreshStat_cases hrefresh
    cases hr
  obtain ⟨node, -, -, hs₂⟩ := refreshStat_cases hrefresh
  have h₂ : s₂.Sound watched [] := by
    rw [hs₂]
    exact h₁.apply rfl
  have hshape : SameShape s s₂ := by
    rw [hs₂]
    exact (sameShape_apply rfl).trans (sameShape_apply rfl)
  have hhandles : s₂.handles = s.handles := by
    rw [hs₂]
    rfl
  rcases bind_cases hrun with ⟨err, hextract, -⟩ | ⟨o, s₃, hextract, hrest⟩
  · cases (extract_cases hextract).2.1
  obtain ⟨-, ho, hnone⟩ := extract_cases hextract
  cases hlookup : (s₂.children parent).lookup path.filename with
  | none =>
      rw [hlookup] at ho
      cases ho
      cases hrest
      rw [hnone hlookup]
      exact h₂
  | some c =>
      rw [hlookup] at ho
      cases ho
      have hmem := h₂.tidy.wf.lookup_iff.mp hlookup
      dsimp only at hrest
      rw [destroy_apply] at hrest
      cases hrest
      rw [extract_found hlookup hextract]
      refine drop_sound h₂ hmem fun hw m hb hopened => ?_
      rw [hshape.children] at hmem
      rw [hshape.below] at hb
      rw [opened_congr hhandles] at hopened
      exact hclosed hw c hmem m hb hopened

/-- No file is open below a directory that only has `Error` nodes. -/
theorem closed_of_allErrors {list : List (Name × Id)} (h : s.Sound watched [])
    (hw : watched) (hlist : s.children n = list) {node : Node}
    (hnode : s.nodes n = some node) (hdir : node.file.isDirectory)
    (herrors : allErrors s list) (hbelow : s.Below n m) : ¬s.Opened m := by
  rcases Relation.ReflTransGen.cases_head hbelow with rfl | ⟨c, hmem, hb⟩
  · refine (h.seated hw).not_opened hnode fun htype => ?_
    cases hfile : node.file with
    | directory =>
        rw [hfile] at htype
        cases htype
    | _ =>
        rw [hfile] at hdir
        cases hdir
  · obtain ⟨name, hchild⟩ := mem_successors.mp hmem
    rw [hlist] at hchild
    have herror := List.all_eq_true.mp herrors _ hchild
    obtain ⟨cnode, hcnode, hcerror⟩ := (Option.any_eq_true _ _).mp herror
    exact closed_of_error (h.seated hw) hcnode hcerror hb

end Removing

section Opening

theorem kind_of_asRegular {node : Node} {dirty : Bool}
    (hnode : s.nodes n = some node) (hregular : node.file.asRegular = .ok dirty) :
    s.kind n = some (some .regular) := by
  rw [kind_eq hnode]
  cases hfile : node.file <;> rw [hfile] at hregular <;> cases hregular
  rfl

theorem sits_storeHandle {mode : OpenMode} {realFd : Fd}
    (hkind : s.kind n = some (some .regular)) :
    (storeHandle n mode realFd).Obeys (sitting watched) s fun _ _ => True := by
  apply Obeys.bind_state
  refine Obeys.bind (Q := fun _ _ => True)
    (Obeys.change (fun _ h => Sound.store h rfl hkind) fun _ => trivial)
    fun _ _ _ _ _ => Obeys.pure fun _ => trivial

/-- A handle is made for a regular file. -/
theorem sits_openAt : (openAt env n path flags).Obeys (sitting watched) s
    fun _ _ => True := by
  apply quiet_bind_deref
  intro node hnode
  apply Obeys.bind_ofExcept
  intro dirty hregular
  have hkind := kind_of_asRegular hnode hregular
  apply Obeys.bind_state
  split
  · apply bind_quiet_edit allows_sitting rfl
    apply Obeys.bind_ofExcept
    exact fun _ _ => sits_storeHandle hkind
  · refine Obeys.bind (Q := fun _ t => t.kind n = some (some .regular)) ?_ ?_
    · apply Obeys.bind_state
      apply bind_quiet_edit allows_sitting rfl
      exact Obeys.ofExcept fun _ _ _ => hkind
    · exact fun _ _ _ _ hkind' => sits_storeHandle hkind'

/-- A link that only exists in the tree takes a free name. -/
theorem sits_symlink {link : String} (hne : path ≠ [])
    (hvalid : ∀ name ∈ path, ValidName name) :
    (symlink env path link).Obeys (sitting watched) s fun _ _ => True := by
  apply Obeys.bind quiet_traverse
  rintro parent s₁ h₁ _ ⟨rfl, hresolve⟩
  have hlive := h₁.tidy.wf.isSome_of_inTree
    (inTree_of_resolve h₁.tidy.wf hresolve)
  refine Obeys.bind (Q := fun _ s' => s' = s₁) ?_ ?_
  · exact quiet_bind_deref fun node _ => Obeys.ofExcept fun _ _ _ => rfl
  rintro list s₂ _ _ rfl
  apply Obeys.bind_require
  intro _
  apply Obeys.bind_state
  apply sits_of_run
  intro r s' h hrun
  refine ⟨?_, fun _ _ => trivial⟩
  set child := Node.create path.filename (some parent)
    (symlinkStat (env.system s₂.tick)) (.link (some link)) with hchild
  have hleaf : child.file.children = [] := rfl
  obtain ⟨hbelow, hclosed⟩ := opened_alloc h child hleaf hlive
  have hinsert : ∀ {o t}, insert parent ⟨s₂.nextId + 1⟩ false
      (s₂.apply (.alloc ⟨s₂.nextId + 1⟩ child)) = some (o, t) →
      t.Sound watched [] := fun hins =>
    (insert_sound (h.alloc hleaf) (Function.update_self _ _ _) rfl
      (valid_filename hne hvalid) hbelow hclosed hins).1
  have halloc : alloc path.filename parent (symlinkStat (env.system s₂.tick))
      (.link (some link)) s₂ = some (.ok ⟨s₂.nextId + 1⟩,
        s₂.apply (.alloc ⟨s₂.nextId + 1⟩ child)) := rfl
  rw [bind_of_ok halloc] at hrun
  rcases bind_cases hrun with ⟨err, hins, -⟩ | ⟨o, t, hins, hret⟩
  · exact hinsert hins
  · cases hret
    exact hinsert hins

end Opening

end Fs

end Madbfs
