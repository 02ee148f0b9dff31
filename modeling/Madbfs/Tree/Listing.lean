/-
`readdir` keeps nodes and handles where they belong, if no file that the device
does not list any more is open.
-/
import Madbfs.Tree.Settled
import Madbfs.Tree.Handles

namespace Madbfs

namespace Fs

open Program FileTree

variable {watched : Prop} {s s' : FileTree} {n m dir parent : Id}
  {name : Name} {node : Node}
  {env : Env} {α β : Type} {path : Path} {stat : Stat} {file : File}

variable {names : List Name} {entries : List (Stat × Name)}
  {list : List (Name × Id)}

/-- Refreshing a child spares what was spared. -/
theorem rebuild_shrinks {r : Except Errc Unit}
    (hfile : file.children = [])
    (hrun : rebuild n stat file s = some (r, s')) : Shrinks s s' := by
  rw [rebuild_eq] at hrun
  obtain ⟨node, hnode, hrun⟩ := bind_deref_cases hrun
  rcases bind_cases hrun with ⟨err, hconvert, -⟩ | ⟨u, s₂, hconvert, hexpire⟩
  · rw [bind_of_ok (edit_apply _ _)] at hconvert
    cases (invalidate_effect hconvert).1
  · rw [bind_of_ok (edit_apply _ _)] at hconvert
    obtain ⟨-, hsame, -⟩ := invalidate_effect hconvert
    have hfirst : Shrinks s s₂ := by
      refine ⟨fun k e he => ?_, fun m hm => ?_⟩
      · have hshape : SameShape ((s.apply (.convert n stat file)).apply
            (.destroy ((s.apply (.convert n stat file)).dropped
              node.file))) s₂ := by
          rw [hsame]
          exact ⟨rfl, rfl, fun _ => rfl⟩
        rw [hshape.children] at he
        have hold := shrinks_destroy.children k e he
        rw [children_convert hfile] at hold
        split_ifs at hold
        · cases hold
        · exact hold
      · obtain ⟨handle, hmem, hpoints⟩ := hm
        rw [hsame] at hmem
        exact ⟨handle, (FileHandleStore.mem_erase_all hmem hpoints).1, hpoints⟩
    obtain ⟨node', hnode', -⟩ := bind_deref_cases hexpire
    rw [expiresAfter_apply hnode'] at hexpire
    cases hexpire
    exact hfirst.trans (shrinks_quiet rfl)

/-- A new entry is put into the directory, or it goes at once. -/
theorem addEntry_sound {r : Except Errc Unit} (h : s.Sound watched [])
    (hlive : (s.nodes dir).isSome) (hvalid : ValidName name)
    (hrun : addEntry dir stat name s = some (r, s')) :
    s'.Sound watched [] ∧ (s'.nodes dir).isSome ∧
      ∀ names, name ∈ names → s.Spared dir names → s'.Spared dir names := by
  set child := Node.create name (some dir) stat (.create (fileType stat.mode))
    with hchild
  have hleaf : child.file.children = [] := File.children_create _
  obtain ⟨hbelow, hclosed⟩ := opened_alloc h child hleaf hlive
  have halloc : alloc name dir stat (.create (fileType stat.mode)) s =
      some (.ok ⟨s.nextId + 1⟩,
        s.apply (.alloc ⟨s.nextId + 1⟩ child)) := rfl
  have hsound₁ := h.alloc hleaf
  have hnode₁ : (s.apply (.alloc ⟨s.nextId + 1⟩ child)).nodes
      ⟨s.nextId + 1⟩ = some child := Function.update_self _ _ _
  have hchildren₁ : ∀ k, (s.apply (.alloc ⟨s.nextId + 1⟩ child)).children k =
      if k = ⟨s.nextId + 1⟩ then [] else s.children k := fun k => by
    rw [children_alloc, hleaf]
  unfold addEntry at hrun
  rw [bind_of_ok halloc, bind_of_ok (expiresAfter_apply hnode₁)] at hrun
  set n : Id := ⟨s.nextId + 1⟩ with hn
  set s₁ := s.apply (.alloc n child) with hs₁
  set s₂ := s₁.apply (.expire n s₁.deadline) with hs₂
  have hshape : SameShape s₁ s₂ := sameShape_apply rfl
  have hsound₂ : s₂.Sound watched [n] := hsound₁.apply rfl
  have hnode₂ : s₂.nodes n = some { child with expiration := s₁.deadline } :=
    nodes_modify_self hnode₁
  have hshrinks : Shrinks s s₂ := by
    refine ⟨fun k e he => ?_, fun m hm => hm⟩
    rw [hshape.children, hchildren₁] at he
    split_ifs at he
    · cases he
    · exact he
  have hempty : ∀ k, k ∈ ([] : List Id) ↔ k ∈ [n] ∧ k ≠ n := by simp
  rcases bind_cases hrun with ⟨err, hdirectory, -⟩ | ⟨l, t, hdirectory, hrest⟩
  · cases (directory_cases hdirectory).2.1
  obtain ⟨hisDir, hl, rfl⟩ := directory_cases hdirectory
  cases hl
  have hin : s₂.InTree dir := by
    obtain ⟨d, hd, -⟩ := isDir_iff.mp hisDir
    rcases hsound₂.tidy.placed dir (by rw [hd]; rfl) with hin | ⟨k, hk, hb⟩
    · exact hin
    · rw [List.mem_singleton.mp hk, hshape.below] at hb
      exact absurd hb hbelow
  cases hlookup : (s₂.children dir).lookup name with
  | none =>
      rw [hlookup] at hrest
      cases hrest
      have hsound : (s₂.apply (.attach dir n)).Sound watched [] :=
        attach_sound hsound₂ hempty hisDir hin hnode₂ rfl hvalid hlookup
      have hchildren : ∀ k, (s₂.apply (.attach dir n)).children k =
          if k = dir then s₂.children dir ++ [(name, n)]
          else s₂.children k := by
        intro k
        obtain ⟨d, hd, hdirectory⟩ := isDir_iff.mp hisDir
        exact children_attach hd hdirectory hnode₂
      have hmem : (name, n) ∈ (s₂.apply (.attach dir n)).children dir := by
        rw [hchildren, if_pos rfl]
        exact List.mem_append_right _ List.mem_cons_self
      refine ⟨hsound, isSome_of_mem hmem, fun names hname hspared => ?_⟩
      intro nm c hc hnm m hb hopened
      have hc' : (nm, c) ∈ s₂.children dir := by
        rw [hchildren, if_pos rfl] at hc
        rcases List.mem_append.mp hc with hold | hnew
        · exact hold
        · cases List.mem_singleton.mp hnew
          exact absurd hname hnm
      have hdir' : (s₂.apply (.attach dir n)).InTree dir := by
        rcases hsound.tidy.placed dir (isSome_of_mem hmem) with hin | ⟨k, hk, -⟩
        · exact hin
        · cases hk
      have hb' : s₂.Below c m := by
        refine below_stays (fun d key x hd hx => ?_) hb
        rw [hchildren, if_neg] at hx
        · exact hx
        · rintro rfl
          exact hdir'.not_below hsound.tidy.wf hc hd
      exact hspared.shrink hshrinks nm c hc' hnm m hb'
        (opened_apply rfl hopened)
  | some old =>
      rw [hlookup] at hrest
      change destroy n s₂ = _ at hrest
      rw [destroy_apply] at hrest
      cases hrest
      refine ⟨hsound₂.destroy List.mem_cons_self hempty ?_, ?_, ?_⟩
      · intro hw m hb hopened
        rw [hshape.below] at hb
        exact hclosed hw m hb hopened
      · have hmem := hsound₂.tidy.wf.lookup_iff.mp hlookup
        have hnot : dir ∉ s₂.walk n := by
          intro hwalk
          obtain ⟨a, ha, hb⟩ := Forest.below_of_mem_visit hwalk
          rw [List.mem_singleton.mp ha] at hb
          exact hsound₂.tidy.not_below List.mem_cons_self hin hb
        have hsome := isSome_of_mem hmem
        change (if dir ∈ s₂.walk n then none else s₂.nodes dir).isSome = true
        rw [if_neg hnot]
        exact hsome
      · exact fun names _ hspared =>
          hspared.shrink (hshrinks.trans shrinks_destroy)

theorem sits_mergeEntry (hvalid : ValidName name) (hname : name ∈ names)
    (hspared : watched → s.Spared dir names) :
    (mergeEntry dir stat name).Obeys (sitting watched) s
      fun _ s' => watched → s'.Spared dir names := by
  apply sits_of_run
  intro r s' h hrun
  rcases bind_cases hrun with ⟨err, hdirectory, -⟩ | ⟨l, t, hdirectory, hrest⟩
  · cases (directory_cases hdirectory).2.1
  obtain ⟨hisDir, hl, rfl⟩ := directory_cases hdirectory
  cases hl
  cases hlookup : (t.children dir).lookup name with
  | none =>
      rw [hlookup] at hrest
      obtain ⟨d, hd, -⟩ := isDir_iff.mp hisDir
      obtain ⟨h', -, hkeep⟩ :=
        addEntry_sound h (by rw [hd]; rfl) hvalid hrest
      exact ⟨h', fun _ _ hw => hkeep names hname (hspared hw)⟩
  | some c =>
      rw [hlookup] at hrest
      obtain ⟨node, hnode, hrest⟩ := bind_deref_cases hrest
      rw [bind_of_ok (state_apply t)] at hrest
      have hmem := h.tidy.wf.lookup_iff.mp hlookup
      unfold Program.when at hrest
      split_ifs at hrest
      · have hobeys := sits_rebuild (h.tidy.wf.ne_root hmem)
          (File.children_create (fileType stat.mode)) h r s' hrest
        exact ⟨hobeys.1 h, fun _ _ hw => (hspared hw).shrink
          (rebuild_shrinks (File.children_create _) hrest)⟩
      · cases hrest
        exact ⟨h, fun _ _ => hspared⟩

/-- A child is taken out of its directory and destroyed, with no handle below
it. -/
theorem drop_sound (h : s.Sound watched []) (hmem : (name, n) ∈ s.children dir)
    (hclosed : watched → ∀ m, s.Below n m → ¬s.Opened m) :
    ((s.apply (.detach dir name)).apply
      (.destroy ((s.apply (.detach dir name)).walk n))).Sound watched [] := by
  have hin := h.tidy.inTree (isSome_of_mem hmem)
  refine (h.detach hin hmem).destroy List.mem_cons_self (by simp) ?_
  intro hw m hbelow hopened
  exact hclosed hw m (below_of_children_subset shrinks_detach.children hbelow)
    hopened

theorem sits_pruneEntry {e : Name × Id} (he : e ∈ list)
    (hlabel : Labelled s dir list) (hspared : watched → s.Spared dir names) :
    (pruneEntry dir names e).Obeys (sitting watched) s fun _ s' =>
      Labelled s' dir list ∧ (watched → s'.Spared dir names) := by
  apply sits_of_run
  intro r s' h hrun
  obtain ⟨node, hnode, hrun⟩ := bind_deref_cases hrun
  unfold Program.when at hrun
  split_ifs at hrun with hgone
  · have hplace := hlabel e he _ (label_eq hnode)
    have hlive : (s.nodes e.2).isSome := by
      rw [hnode]
      rfl
    have hlabel' : s.label e.2 = some (e.1, some dir) := by
      rw [label_eq hnode, hplace]
    have hmem := h.tidy.mem_of_label hlabel' (h.tidy.inTree hlive)
    have hname : e.1 ∉ names := by
      rw [(Prod.mk.inj hplace).1] at hgone
      simpa using hgone
    rcases bind_cases hrun with ⟨err, hone, -⟩ | ⟨u, s₁, hone, hrest⟩
    · cases (invalidateOne_effect hone).1
    obtain ⟨hrel, hval⟩ := sits_invalidateOne h _ _ hone
    have hsame := hval u rfl
    have h₁ := hrel h
    rw [bind_of_ok (edit_apply _ _), destroy_apply] at hrest
    cases hrest
    have hchildren : ∀ k, s₁.children k = s.children k := by
      intro k
      rw [hsame]
      rfl
    have hshrinks : Shrinks s s₁ := by
      refine ⟨fun k d hd => ?_, fun m hm => ?_⟩
      · rwa [hchildren] at hd
      · rw [hsame] at hm
        exact hm
    have hspared₁ := fun hw => (hspared hw).shrink hshrinks
    have hmem₁ : (e.1, e.2) ∈ s₁.children dir := by
      rw [hchildren]
      exact hmem
    refine ⟨drop_sound h₁ hmem₁ fun hw => hspared₁ hw _ _ hmem₁ hname,
      fun _ _ => ⟨?_, fun hw => ?_⟩⟩
    · intro d hd l hl
      rw [label_destroy] at hl
      split_ifs at hl
      rw [label_detach, hsame] at hl
      exact hlabel d hd l hl
    · exact (hspared₁ hw).shrink (shrinks_detach.trans shrinks_destroy)
  · cases hrun
    exact ⟨h, fun _ _ => ⟨hlabel, hspared⟩⟩

theorem sits_takeEntries (hvalid : ∀ e ∈ entries, ValidName e.2)
    (hspared : watched → s.Spared dir (entries.map Prod.snd)) :
    (takeEntries dir entries).Obeys (sitting watched) s fun _ _ => True := by
  apply sits_of_run
  intro r s' h hrun
  refine ⟨?_, fun _ _ => trivial⟩
  rcases bind_cases hrun with ⟨err, hdirectory, -⟩ | ⟨l, t, hdirectory, hrest⟩
  · cases (directory_cases hdirectory).2.1
  obtain ⟨hisDir, hl, rfl⟩ := directory_cases hdirectory
  cases hl
  obtain ⟨d, hd, -⟩ := isDir_iff.mp hisDir
  split_ifs at hrest with hempty
  · have hobeys := Obeys.forEach (d := sitting watched)
      (J := fun t => (t.nodes dir).isSome)
      (g := fun e : Stat × Name => addEntry dir e.1 e.2) (l := entries)
      (s := t) (fun e he t _ hlive => sits_of_run fun r t' ht hrun => by
        obtain ⟨ht', hlive', -⟩ := addEntry_sound ht hlive (hvalid e he) hrun
        exact ⟨ht', fun _ _ => hlive'⟩) (by rw [hd]; rfl)
    exact (hobeys h r s' hrest).1 h
  · have hmerge := Obeys.forEach (d := sitting watched)
      (J := fun t => watched → t.Spared dir (entries.map Prod.snd))
      (g := fun e : Stat × Name => mergeEntry dir e.1 e.2) (l := entries)
      (s := t) (fun e he t _ ht =>
        sits_mergeEntry (hvalid e he) (List.mem_map_of_mem he) ht) hspared
    rcases bind_cases hrest with ⟨err, hloop, -⟩ | ⟨u, t₁, hloop, hrest⟩
    · exact (hmerge h _ _ hloop).1 h
    obtain ⟨hrel, hval⟩ := hmerge h _ _ hloop
    have h₁ := hrel h
    rcases bind_cases hrest with
      ⟨err, hdirectory, -⟩ | ⟨l, t₂, hdirectory, hrest⟩
    · cases (directory_cases hdirectory).2.1
    obtain ⟨-, hl, rfl⟩ := directory_cases hdirectory
    cases hl
    have hprune := Obeys.forEach (d := sitting watched)
      (J := fun t => Labelled t dir (t₂.children dir) ∧
        (watched → t.Spared dir (entries.map Prod.snd)))
      (g := pruneEntry dir (entries.map Prod.snd)) (l := t₂.children dir)
      (s := t₂) (fun e he t _ ht => sits_pruneEntry he ht.1 ht.2)
      ⟨fun e he l hl => Option.some.inj (hl.symm.trans (h₁.tidy.wf.label he)),
        hval u rfl⟩
    exact (hprune h₁ r s' hrest).1 h₁

/-- `readdir` in the directory it found. -/
theorem sits_readdirAt (henv : env.Proper)
    (hspared : watched → ∀ node entries, s.nodes dir = some node →
      node.file.hasSynced = false →
      env.answer s.tick (.statdir path) = .ok entries →
      s.Spared dir (entries.map Prod.snd)) :
    (readdirAt env path dir).Obeys (sitting watched) s fun _ _ => True := by
  apply quiet_bind_deref
  intro node hnode
  refine Obeys.bind (Q := fun _ _ => True) ?_ fun _ _ _ _ _ => ?_
  · apply Obeys.when
    · intro hsynced
      apply sits_of_run
      intro r s' h hrun
      refine ⟨?_, fun _ _ => trivial⟩
      rcases bind_cases hrun with ⟨err, hreq, -⟩ | ⟨entries, t, hreq, hrest⟩
      · rw [request_apply] at hreq
        obtain ⟨-, rfl⟩ := Prod.mk.inj (Option.some.inj hreq)
        exact h.apply rfl
      · rw [request_apply] at hreq
        obtain ⟨hanswer, rfl⟩ := Prod.mk.inj (Option.some.inj hreq)
        have hspared' : watched → (s.apply (.clock (env.delay s.tick))).Spared
            dir (entries.map Prod.snd) := fun hw =>
          (hspared hw node entries hnode (by simpa using hsynced)
            hanswer).shrink (shrinks_quiet rfl)
        have hobeys : (do
            takeEntries dir entries
            setSynced dir true : Fs Unit).Obeys (sitting watched)
            (s.apply (.clock (env.delay s.tick))) fun _ _ => True := by
          refine Obeys.bind (sits_takeEntries ?_ hspared') ?_
          · exact fun e he => henv _ _ _ hanswer e he
          · exact fun _ _ _ _ _ => quiet_setSynced allows_sitting
        have h₁ : (s.apply (.clock (env.delay s.tick))).Sound watched [] :=
          h.apply rfl
        exact (hobeys h₁ r s' hrest).1 h₁
    · exact fun _ _ => trivial
  · apply sits_of_run
    intro r s' h hrun
    refine ⟨?_, fun _ _ => trivial⟩
    rcases bind_cases hrun with ⟨err, hdirectory, -⟩ | ⟨l, t, hdirectory, hrest⟩
    · cases (directory_cases hdirectory).2.1
    · obtain ⟨-, -, rfl⟩ := directory_cases hdirectory
      cases hrest
      exact h

end Fs

end Madbfs
