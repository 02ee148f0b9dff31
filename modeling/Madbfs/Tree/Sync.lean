/-
`readdir` brings a directory in step with the device.  The first loop goes over
the list of the device: an old entry stays, or is rebuilt if it is an `Error`
node or outdated, and a new one is added.  The second loop drops the entries
that the device does not have.  Each round works on one child and on what is
below it, so the subtrees of the others stay as they are.
-/
import Madbfs.Tree.Looked

namespace Madbfs

namespace FileTree

variable {s t : FileTree} {n m c c' dir : Id} {name name' : Name}

/-- The child is as the device has it: it is no `Error` node, and has not
expired or was not modified. -/
def Current (s : FileTree) (entries : List (Stat × Name)) (name : Name)
    (c : Id) : Prop :=
  ∀ stat, (stat, name) ∈ entries → ∃ node, s.nodes c = some node ∧
    node.file.isError = false ∧
    (node.expired s.now && detectModification node.stat stat) = false

end FileTree

namespace Fs

open Program FileTree

variable {s t : FileTree} {n m c dir : Id} {name : Name} {stat : Stat}
  {node : Node}

/-- The tree after an entry was added to a directory. -/
structure Added (s s' : FileTree) (dir : Id) (name : Name) : Prop where
  cache : s'.cache = s.cache
  now : s'.now = s.now
  nextId : s'.nextId = s.nextId + 1
  isDir : s'.isDir dir
  children : s'.children dir = s.children dir ++ [(name, nextNode s)]
  node : ∃ child, s'.nodes (nextNode s) = some child ∧ child.name = name ∧
    child.file.isError = false
  same : ∀ m, m ≠ dir → m ≠ nextNode s → s'.nodes m = s.nodes m

theorem addEntry_run (hdir : s.isDir dir) (hknown : dir.inner ≤ s.nextId)
    (hroom : (s.children dir).lookup name = none) (stat : Stat) :
    ∃ s', addEntry dir stat name s = some (.ok (), s') ∧
      Added s s' dir name := by
  have hne : dir ≠ nextNode s := by
    rintro rfl
    exact absurd hknown (Nat.not_succ_le_self _)
  obtain ⟨d, hd, hdirectory⟩ := isDir_iff.mp hdir
  set child := Node.create name (some dir) stat
    (.create (fileType stat.mode)) with hchild
  set s₁ := s.apply (.alloc (nextNode s) child) with hs₁
  have halloc : alloc name dir stat (.create (fileType stat.mode)) s =
      some (.ok (nextNode s), s₁) := rfl
  have hnode₁ : s₁.nodes (nextNode s) = some child :=
    Function.update_self _ _ _
  set s₂ := s₁.apply (.expire (nextNode s) s₁.deadline) with hs₂
  have hnode₂ : s₂.nodes (nextNode s) =
      some { child with expiration := s₁.deadline } :=
    nodes_modify_self hnode₁
  have hother : ∀ m, m ≠ nextNode s → s₂.nodes m = s.nodes m := by
    intro m hm
    rw [hs₂, FileTree.apply, nodes_modify, if_neg hm, hs₁, FileTree.apply]
    exact Function.update_of_ne hm _ _
  have hd₂ : s₂.nodes dir = some d := (hother dir hne).trans hd
  have hdir₂ : s₂.isDir dir := isDir_iff.mpr ⟨d, hd₂, hdirectory⟩
  have hlist₂ : s₂.children dir = s.children dir := by
    rw [children_of_nodes hd₂, children_of_nodes hd]
  have hattach : (s₂.apply (.attach dir (nextNode s))).children dir = _ :=
    children_attach hd₂ hdirectory hnode₂
  refine ⟨s₂.apply (.attach dir (nextNode s)), ?_, ?_⟩
  · unfold addEntry
    rw [bind_of_ok halloc, bind_of_ok (expiresAfter_apply hnode₁),
      bind_of_ok (directory_run hdir₂), hlist₂, hroom]
    rfl
  · have hnodes : ∀ m, m ≠ dir →
        (s₂.apply (.attach dir (nextNode s))).nodes m = s₂.nodes m := by
      intro m hm
      rw [FileTree.apply, FileTree.attach, hnode₂]
      exact Function.update_of_ne hm _ _
    constructor
    · rw [cache_apply (by intro c h; cases h)]
      rfl
    · rw [FileTree.apply, FileTree.attach, hnode₂]
      rfl
    · rw [FileTree.apply, FileTree.attach, hnode₂]
      rfl
    · rw [FileTree.apply, FileTree.attach, hnode₂]
      exact (isDir_modify fun node => isDirectory_setChildren _ _).trans hdir₂
    · rw [hattach, if_pos rfl, hlist₂]
      rfl
    · exact ⟨_, (hnodes _ hne.symm).trans hnode₂, rfl, isError_create _⟩
    · intro m hm hm'
      rw [hnodes m hm, hother m hm']

/-- A directory and a list of the device that it is to be brought in step
with. -/
structure Listing (ctx : Ctx) (s : FileTree) (dir : Id)
    (entries : List (Stat × Name)) : Prop where
  good : s.Good ctx
  inside : ctx.inside dir
  inTree : s.InTree dir
  isDir : s.isDir dir
  caching : s.Caching
  nodup : (entries.map Prod.snd).Nodup
  valid : ∀ e ∈ entries, ValidName e.2

/-- The first loop, which has come from `s` to `t` and has the entries of
`rest` before it. -/
structure Merging (ctx : Ctx) (s : FileTree) (dir : Id)
    (entries rest : List (Stat × Name)) (t : FileTree) : Prop where
  good : t.Good ctx
  caching : t.Caching
  isDir : t.isDir dir
  root : t.root = s.root
  now : t.now = s.now
  nextId : s.nextId ≤ t.nextId
  keeps : ∀ e ∈ s.children dir, e ∈ t.children dir
  origin : ∀ e ∈ t.children dir, e ∈ s.children dir ∨
    s.nextId < e.2.inner ∧ e.1 ∈ entries.map Prod.snd ∧
      e.1 ∉ rest.map Prod.snd
  found : ∀ name ∈ entries.map Prod.snd, name ∉ rest.map Prod.snd →
    ∃ c node, (name, c) ∈ t.children dir ∧ t.nodes c = some node ∧
      node.file.isError = false
  frame : ∀ e ∈ s.children dir,
    e.1 ∈ rest.map Prod.snd ∨ s.Current entries e.1 e.2 →
    ∀ m, s.Below e.2 m → t.nodes m = s.nodes m
  outside : ∀ m, ¬s.Below dir m → m.inner ≤ s.nextId →
    t.nodes m = s.nodes m

section Merge

variable {ctx : Ctx} {entries rest : List (Stat × Name)} {t' : FileTree}

theorem Listing.known (h : Listing ctx s dir entries) :
    dir.inner ≤ s.nextId := by
  obtain ⟨d, hd, -⟩ := isDir_iff.mp h.isDir
  exact h.good.wf.known hd

theorem Listing.merging (h : Listing ctx s dir entries) :
    Merging ctx s dir entries entries s where
  good := h.good
  caching := h.caching
  isDir := h.isDir
  root := rfl
  now := rfl
  nextId := Nat.le_refl _
  keeps := fun _ he => he
  origin := fun _ he => .inl he
  found := fun _ hname hnot => absurd hname hnot
  frame := fun _ _ _ _ _ => rfl
  outside := fun _ _ _ => rfl

/-- The name of an entry does not come again. -/
theorem Listing.name_once (h : Listing ctx s dir entries)
    (hsuffix : (stat, name) :: rest <:+ entries) :
    name ∈ entries.map Prod.snd ∧ name ∉ rest.map Prod.snd := by
  have hnodup := (hsuffix.sublist.map Prod.snd).nodup h.nodup
  rw [List.map_cons, List.nodup_cons] at hnodup
  exact ⟨List.mem_map.mpr ⟨_, hsuffix.mem List.mem_cons_self, rfl⟩,
    hnodup.1⟩

theorem Merging.inTree (hm : Merging ctx s dir entries rest t)
    (h : Listing ctx s dir entries) : t.InTree dir :=
  h.inTree.keep h.good.wf hm.root hm.outside

/-- The children of the directory are not below one another. -/
theorem Merging.clear (hm : Merging ctx s dir entries rest t)
    (h : Listing ctx s dir entries) {e : Name × Id}
    (he : e ∈ t.children dir) (hmem : (name, c) ∈ s.children dir)
    (hne : c ≠ e.2) : ¬s.Below c e.2 := by
  rcases hm.origin e he with hold | ⟨hnew, -⟩
  · intro hbelow
    exact InTree.apart h.good.wf h.inTree hmem hold hne hbelow .refl
  · intro hbelow
    exact absurd (h.good.wf.below_known hmem hbelow) (Nat.not_le_of_lt hnew)

/-- What a round for the entry `name` does. -/
structure Round (s : FileTree) (dir : Id) (entries : List (Stat × Name))
    (name : Name) (t t' : FileTree) : Prop where
  caching : t'.Caching
  isDir : t'.isDir dir
  now : t'.now = t.now
  nextId : t.nextId ≤ t'.nextId
  keeps : ∀ e ∈ t.children dir, e ∈ t'.children dir
  origin : ∀ e ∈ t'.children dir, e ∈ t.children dir ∨
    s.nextId < e.2.inner ∧ e.1 = name
  found : ∃ c node, (name, c) ∈ t'.children dir ∧ t'.nodes c = some node ∧
    node.file.isError = false
  others : ∀ e ∈ t.children dir, e.1 ≠ name → t'.nodes e.2 = t.nodes e.2
  frame : ∀ e ∈ s.children dir,
    e.1 ≠ name ∨ s.Current entries e.1 e.2 →
    ∀ m, s.Below e.2 m → t'.nodes m = t.nodes m
  outside : ∀ m, ¬s.Below dir m → m.inner ≤ s.nextId →
    t'.nodes m = t.nodes m

theorem Merging.round
    (hm : Merging ctx s dir entries ((stat, name) :: rest) t)
    (h : Listing ctx s dir entries)
    (hsuffix : (stat, name) :: rest <:+ entries)
    (hround : Round s dir entries name t t') (hchain : Chain ctx t t') :
    Merging ctx s dir entries rest t' := by
  obtain ⟨hname, honce⟩ := h.name_once hsuffix
  constructor
  · exact hchain.good hm.good
  · exact hround.caching
  · exact hround.isDir
  · exact hchain.root.trans hm.root
  · exact hround.now.trans hm.now
  · exact Nat.le_trans hm.nextId hround.nextId
  · exact fun e he => hround.keeps e (hm.keeps e he)
  · intro e he
    rcases hround.origin e he with hold | ⟨hid, rfl⟩
    · rcases hm.origin e hold with hs | ⟨hid, hlisted, hnot⟩
      · exact .inl hs
      · exact .inr ⟨hid, hlisted, fun h => hnot (List.mem_cons_of_mem _ h)⟩
    · exact .inr ⟨hid, hname, honce⟩
  · intro name' hlisted hnot
    by_cases heq : name' = name
    · subst heq
      exact hround.found
    · obtain ⟨c, node, hmem, hnode, herror⟩ := hm.found name' hlisted
        (fun h => (List.mem_cons.mp h).elim heq hnot)
      refine ⟨c, node, hround.keeps _ hmem, ?_, herror⟩
      rw [hround.others _ hmem heq]
      exact hnode
  · intro e he hrest m hbelow
    have hother : e.1 ≠ name ∨ s.Current entries e.1 e.2 := by
      refine hrest.imp_left fun hin heq => honce ?_
      rw [← heq]
      exact hin
    rw [hround.frame e he hother m hbelow]
    exact hm.frame e he (hrest.imp_left (List.mem_cons_of_mem _)) m hbelow
  · intro m hnot hknown
    rw [hround.outside m hnot hknown]
    exact hm.outside m hnot hknown

theorem Merging.add (hm : Merging ctx s dir entries rest t)
    (h : Listing ctx s dir entries) (hadded : Added t t' dir name) :
    Round s dir entries name t t' := by
  have hfresh : ∀ m : Id, m.inner ≤ t.nextId → m ≠ nextNode t := by
    rintro m hknown rfl
    exact absurd hknown (Nat.not_succ_le_self _)
  constructor
  · exact hm.caching.congr hadded.cache
  · exact hadded.isDir
  · exact hadded.now
  · rw [hadded.nextId]
    exact Nat.le_succ _
  · intro e he
    rw [hadded.children]
    exact List.mem_append_left _ he
  · intro e he
    rw [hadded.children] at he
    rcases List.mem_append.mp he with hold | hnew
    · exact .inl hold
    · cases List.mem_singleton.mp hnew
      exact .inr ⟨Nat.lt_succ_of_le hm.nextId, rfl⟩
  · obtain ⟨child, hchild, -, herror⟩ := hadded.node
    rw [hadded.children]
    exact ⟨_, child, List.mem_append_right _ List.mem_cons_self, hchild,
      herror⟩
  · rintro ⟨name', c⟩ he -
    have hne : c ≠ dir := by
      rintro rfl
      exact InTree.not_below hm.good.wf (hm.inTree h) he .refl
    obtain ⟨node, hnode, -⟩ := hm.good.wf.listed he
    exact hadded.same c hne (hfresh c (hm.good.wf.known hnode))
  · intro e he _ m hbelow
    have hne : m ≠ dir := by
      rintro rfl
      exact InTree.not_below h.good.wf h.inTree he hbelow
    have hknown := h.good.wf.below_known he hbelow
    exact hadded.same m hne (hfresh m (Nat.le_trans hknown hm.nextId))
  · intro m hnot hknown
    have hne : m ≠ dir := by
      rintro rfl
      exact hnot .refl
    exact hadded.same m hne (hfresh m (Nat.le_trans hknown hm.nextId))

/-- An entry that comes yet and has a child is an old one. -/
theorem Merging.old (hm : Merging ctx s dir entries ((stat, name) :: rest) t)
    (hmem : (name, c) ∈ t.children dir) : (name, c) ∈ s.children dir := by
  rcases hm.origin _ hmem with hold | ⟨-, -, hnot⟩
  · exact hold
  · exact absurd List.mem_cons_self hnot

/-- The child of an entry that comes yet has its old subtree. -/
theorem Merging.below_iff
    (hm : Merging ctx s dir entries ((stat, name) :: rest) t)
    (hmem : (name, c) ∈ s.children dir) : t.Below c m ↔ s.Below c m :=
  below_iff_of_same (hm.frame _ hmem (.inl List.mem_cons_self))

theorem Merging.replace
    (hm : Merging ctx s dir entries ((stat, name) :: rest) t)
    (h : Listing ctx s dir entries) (hmem : (name, c) ∈ t.children dir)
    (hcurrent : ¬s.Current entries name c) (hcache : t'.Caching)
    (hnow : t'.now = t.now) (hnext : t'.nextId = t.nextId)
    (hnode : t'.nodes c = some node) (herror : node.file.isError = false)
    (hsame : ∀ m, ¬t.Below c m → t'.nodes m = t.nodes m) :
    Round s dir entries name t t' := by
  have hold := hm.old hmem
  have hsame' : ∀ m, ¬s.Below c m → t'.nodes m = t.nodes m := fun m hnot =>
    hsame m fun hbelow => hnot ((hm.below_iff hold).mp hbelow)
  have hdir : t'.nodes dir = t.nodes dir :=
    hsame' dir (InTree.not_below h.good.wf h.inTree hold)
  have hchildren : t'.children dir = t.children dir := children_congr hdir
  constructor
  · exact hcache
  · rw [FileTree.isDir, hdir]
    exact hm.isDir
  · exact hnow
  · exact Nat.le_of_eq hnext.symm
  · rw [hchildren]
    exact fun e he => he
  · rw [hchildren]
    exact fun e he => .inl he
  · rw [hchildren]
    exact ⟨c, node, hmem, hnode, herror⟩
  · rintro ⟨name', c'⟩ he hother
    have hne : c ≠ c' := by
      rintro rfl
      exact hother (hm.good.wf.listed_once hmem he).1
    exact hsame' c' (hm.clear h he hold hne)
  · rintro ⟨name', c'⟩ he hother m hbelow
    have hne : c' ≠ c := by
      rintro rfl
      cases (h.good.wf.listed_once he hold).1
      exact hother.elim (absurd rfl) hcurrent
    exact hsame' m (InTree.apart h.good.wf h.inTree he hold hne hbelow)
  · intro m hnot _
    exact hsame' m fun hbelow => hnot ((Below.child .refl hold).trans hbelow)

theorem Merging.skip (hm : Merging ctx s dir entries rest t)
    (hmem : (name, c) ∈ t.children dir) (hnode : t.nodes c = some node)
    (herror : node.file.isError = false) : Round s dir entries name t t where
  caching := hm.caching
  isDir := hm.isDir
  now := rfl
  nextId := Nat.le_refl _
  keeps := fun _ he => he
  origin := fun _ he => .inl he
  found := ⟨c, node, hmem, hnode, herror⟩
  others := fun _ _ _ => rfl
  frame := fun _ _ _ _ _ => rfl
  outside := fun _ _ _ => rfl

/-- A round for an entry of the device. -/
theorem mergeEntry_run
    (hm : Merging ctx s dir entries ((stat, name) :: rest) t)
    (h : Listing ctx s dir entries)
    (hsuffix : (stat, name) :: rest <:+ entries) :
    ∃ t', mergeEntry dir stat name t = some (.ok (), t') ∧
      Merging ctx s dir entries rest t' := by
  have hwf := hm.good.wf
  have hentry : (stat, name) ∈ entries := hsuffix.mem List.mem_cons_self
  have hreached : t.Reached ctx dir :=
    ⟨h.inside, Nat.le_trans h.known hm.nextId⟩
  have hends : ∃ t', mergeEntry dir stat name t = some (.ok (), t') ∧
      Round s dir entries name t t' := by
    unfold mergeEntry
    rw [bind_of_ok (directory_run hm.isDir)]
    cases hlookup : (t.children dir).lookup name with
    | none =>
        obtain ⟨t', hrun, hadded⟩ :=
          addEntry_run hm.isDir hreached.known hlookup stat
        exact ⟨t', hrun, hm.add h hadded⟩
    | some c =>
        have hmem := hwf.lookup_iff.mp hlookup
        obtain ⟨node, hnode, -⟩ := hwf.listed hmem
        dsimp only
        rw [bind_of_ok (deref_apply hnode), bind_of_ok (state_apply t)]
        cases houtdated : node.file.isError ||
            (node.expired t.now && detectModification node.stat stat) with
        | false =>
            rw [Bool.or_eq_false_iff] at houtdated
            exact ⟨t, rfl, hm.skip hmem hnode houtdated.1⟩
        | true =>
            have hnode' : s.nodes c = some node := by
              rw [← hm.frame _ (hm.old hmem) (.inl List.mem_cons_self) c .refl]
              exact hnode
            have hcurrent : ¬s.Current entries name c := by
              intro hcurrent
              obtain ⟨node', hc, herror, hfresh⟩ := hcurrent stat hentry
              cases hc.symm.trans hnode'
              rw [hm.now, herror, hfresh] at houtdated
              cases houtdated
            have hin : t.InTree c := Below.child (hm.inTree h) hmem
            obtain ⟨t', hrun, hcache, hnow, hnext, hnew, hsame⟩ :=
              rebuild_run hm.caching hnode
                (fun e he => InTree.not_below hwf hin he) stat
                (File.children_create (fileType stat.mode))
            exact ⟨t', hrun, hm.replace h hmem hcurrent hcache hnow hnext hnew
              (isError_create _) hsame⟩
  obtain ⟨t', hrun, hround⟩ := hends
  obtain ⟨hchain, -⟩ :=
    obeys_mergeEntry hreached (h.valid _ hentry) hm.good _ _ hrun
  exact ⟨t', hrun, hm.round h hsuffix hround hchain⟩

theorem forEach_merge (h : Listing ctx s dir entries) :
    ∃ t, forEach (fun e => mergeEntry dir e.1 e.2) entries s =
        some (.ok (), t) ∧ Merging ctx s dir entries [] t := by
  refine forEach_run (I := Merging ctx s dir entries) ?_ h.merging
  rintro ⟨stat, name⟩ rest t hsuffix hm
  exact mergeEntry_run hm h hsuffix

end Merge

/-- The second loop, which has come from `s` to `t` and has the children of
`rest` before it. -/
structure Pruning (ctx : Ctx) (s : FileTree) (dir : Id) (names : List Name)
    (rest : List (Name × Id)) (t : FileTree) : Prop where
  good : t.Good ctx
  caching : t.Caching
  isDir : t.isDir dir
  labelled : Labelled t dir (s.children dir)
  children : ∀ e, e ∈ t.children dir ↔
    e ∈ s.children dir ∧ (e.1 ∈ names ∨ e ∈ rest)
  frame : ∀ e ∈ s.children dir, e.1 ∈ names ∨ e ∈ rest →
    ∀ m, s.Below e.2 m → t.nodes m = s.nodes m

section Prune

variable {ctx : Ctx} {names : List Name} {rest : List (Name × Id)}
  {e : Name × Id}

/-- A child that the device has stays. -/
theorem Pruning.skip (hp : Pruning ctx s dir names (e :: rest) t)
    (hname : e.1 ∈ names) : Pruning ctx s dir names rest t := by
  have hiff : ∀ e', e'.1 ∈ names ∨ e' ∈ e :: rest ↔
      e'.1 ∈ names ∨ e' ∈ rest := by
    intro e'
    rw [List.mem_cons]
    constructor
    · rintro (h | rfl | h)
      · exact .inl h
      · exact .inl hname
      · exact .inr h
    · rintro (h | h)
      · exact .inl h
      · exact .inr (.inr h)
  constructor
  · exact hp.good
  · exact hp.caching
  · exact hp.isDir
  · exact hp.labelled
  · intro e'
    rw [hp.children, hiff]
  · intro e' he' hrest
    exact hp.frame e' he' ((hiff e').mpr hrest)

/-- A child that the device does not have goes, with its subtree. -/
theorem Pruning.drop (hwf : s.WellFormed) (hdir : s.InTree dir)
    (hp : Pruning ctx s dir names (e :: rest) t)
    (hsuffix : e :: rest <:+ s.children dir) (hname : e.1 ∉ names)
    {t₁ : FileTree} (hsame : t₁ = { t with cache := t₁.cache })
    (hcache : t₁.Caching) {t' : FileTree}
    (ht' : t' = (t₁.apply (.detach dir e.1)).apply
      (.destroy ((t₁.apply (.detach dir e.1)).walk e.2)))
    (hgood : t'.Good ctx) (hlabelled : Labelled t' dir (s.children dir)) :
    Pruning ctx s dir names rest t' := by
  obtain ⟨key, c⟩ := e
  have hmem : (key, c) ∈ s.children dir := hsuffix.mem List.mem_cons_self
  have hkeys : key ∉ rest.map Prod.fst := by
    have hnodup := (hsuffix.sublist.map Prod.fst).nodup (hwf.unique dir)
    rw [List.map_cons, List.nodup_cons] at hnodup
    exact hnodup.1
  have hnodes₁ : t₁.nodes = t.nodes := by rw [hsame]
  have hchildren₁ : ∀ m, t₁.children m = t.children m :=
    fun m => children_congr (congrFun hnodes₁ m)
  have hbelow : ∀ m ∈ (t₁.apply (.detach dir key)).walk c, s.Below c m := by
    intro m hm
    obtain ⟨a, ha, h⟩ := Forest.below_of_mem_visit hm
    rw [List.mem_singleton.mp ha] at h
    refine (below_iff_of_same (hp.frame _ hmem
      (.inr List.mem_cons_self))).mp (below_of_children_subset ?_ h)
    intro k e' he'
    rw [children_detach, hchildren₁, hchildren₁] at he'
    split_ifs at he' with hk
    · subst hk
      exact List.mem_of_mem_filter he'
    · exact he'
  have hkept : ∀ m, ¬s.Below c m →
      t'.nodes m = (t₁.apply (.detach dir key)).nodes m := by
    intro m hnot
    rw [ht']
    exact if_neg fun h => hnot (hbelow m h)
  have hdir' := hkept dir (InTree.not_below hwf hdir hmem)
  constructor
  · exact hgood
  · rw [ht']
    exact hcache
  · rw [FileTree.isDir, hdir', ← FileTree.isDir]
    refine (isDir_modify fun node => isDirectory_setChildren _ _).trans ?_
    rw [FileTree.isDir, hnodes₁]
    exact hp.isDir
  · exact hlabelled
  · intro e'
    rw [children_congr hdir', children_detach, if_pos rfl, hchildren₁,
      List.mem_filter, hp.children, List.mem_cons]
    simp only [ne_eq, decide_not, Bool.not_eq_true', decide_eq_false_iff_not]
    constructor
    · rintro ⟨⟨hold, hin⟩, hne⟩
      refine ⟨hold, hin.imp_right ?_⟩
      rintro (rfl | hrest)
      · exact absurd rfl hne
      · exact hrest
    · rintro ⟨hold, hin⟩
      refine ⟨⟨hold, hin.imp_right .inr⟩, ?_⟩
      rintro rfl
      exact hin.elim hname fun h => hkeys (List.mem_map.mpr ⟨e', h, rfl⟩)
  · rintro ⟨key', c'⟩ he' hin m hm
    have hne : c' ≠ c := by
      rintro rfl
      cases (hwf.listed_once he' hmem).1
      exact hin.elim hname fun h => hkeys (List.mem_map.mpr ⟨_, h, rfl⟩)
    have hmdir : m ≠ dir := by
      rintro rfl
      exact InTree.not_below hwf hdir he' hm
    calc t'.nodes m
        = (t₁.apply (.detach dir key)).nodes m :=
          hkept m (InTree.apart hwf hdir he' hmem hne hm)
      _ = t₁.nodes m := Function.update_of_ne hmdir _ _
      _ = t.nodes m := congrFun hnodes₁ m
      _ = s.nodes m := hp.frame _ he' (hin.imp_right (.tail _)) m hm

theorem pruneEntry_run (hwf : s.WellFormed) (hdir : s.InTree dir)
    (hp : Pruning ctx s dir names (e :: rest) t)
    (hsuffix : e :: rest <:+ s.children dir) :
    ∃ t', pruneEntry dir names e t = some (.ok (), t') ∧
      Pruning ctx s dir names rest t' := by
  have hmem : e ∈ s.children dir := hsuffix.mem List.mem_cons_self
  obtain ⟨node, hnode, hkey, -⟩ := hwf.listed hmem
  have hnode' : t.nodes e.2 = some node := by
    rw [hp.frame e hmem (.inr List.mem_cons_self) e.2 .refl]
    exact hnode
  have hstart : pruneEntry dir names e t =
      when (!names.contains e.1) (do
        invalidateOne e.2
        edit (.detach dir e.1)
        destroy e.2) t := by
    rw [pruneEntry, bind_of_ok (deref_apply hnode'), hkey]
  by_cases hname : e.1 ∈ names
  · refine ⟨t, ?_, hp.skip hname⟩
    rw [hstart, List.contains_iff_mem.mpr hname]
    rfl
  · obtain ⟨t₁, hrun₁, hsame, hcache, -⟩ := invalidateOne_run hp.caching e.2
    have hrun : pruneEntry dir names e t = some (.ok (),
        (t₁.apply (.detach dir e.1)).apply
          (.destroy ((t₁.apply (.detach dir e.1)).walk e.2))) := by
      have hfalse : names.contains e.1 = false := by simpa using hname
      rw [hstart, hfalse]
      change (invalidateOne e.2 >>= fun _ => _) t = _
      rw [bind_of_ok hrun₁, bind_of_ok (edit_apply _ _), destroy_apply]
    obtain ⟨hchain, hlabelled⟩ :=
      obeys_pruneEntry hmem hp.labelled hp.good _ _ hrun
    exact ⟨_, hrun, hp.drop hwf hdir hsuffix hname hsame hcache rfl
      (hchain.good hp.good) (hlabelled () rfl)⟩

theorem forEach_prune (hgood : s.Good ctx) (hcache : s.Caching)
    (hisDir : s.isDir dir) (hdir : s.InTree dir) (names : List Name) :
    ∃ t, forEach (pruneEntry dir names) (s.children dir) s =
        some (.ok (), t) ∧ Pruning ctx s dir names [] t := by
  refine forEach_run (I := Pruning ctx s dir names) ?_ ?_
  · intro e rest t hsuffix hp
    exact pruneEntry_run hgood.wf hdir hp hsuffix
  · constructor
    · exact hgood
    · exact hcache
    · exact hisDir
    · intro e he l hl
      exact Option.some.inj (hl.symm.trans (hgood.wf.label he))
    · exact fun e => ⟨fun he => ⟨he, .inr he⟩, fun h => h.1⟩
    · exact fun e he _ m _ => rfl

end Prune

/-- The directory is in step with the list of the device.  Old children that
are listed keep their ids, and those that are current their subtrees. -/
structure Synchronised (s s' : FileTree) (dir : Id)
    (entries : List (Stat × Name)) : Prop where
  synced : ∃ d, s'.nodes dir = some d ∧
    d.file = .directory (s'.children dir) true
  names : ((s'.children dir).map Prod.fst).Perm (entries.map Prod.snd)
  nodes : ∀ e ∈ s'.children dir, ∃ child, s'.nodes e.2 = some child ∧
    child.name = e.1 ∧ child.file.isError = false
  keeps : ∀ e ∈ s.children dir, e.1 ∈ entries.map Prod.snd →
    e ∈ s'.children dir
  subtrees : ∀ e ∈ s.children dir, e.1 ∈ entries.map Prod.snd →
    s.Current entries e.1 e.2 → ∀ m, s.Below e.2 m → s'.nodes m = s.nodes m

section Agree

variable {ctx : Ctx} {entries : List (Stat × Name)}

/-- Without old children the two loops come down to the one that adds
entries. -/
theorem mergeEntries_eq_addEntries (h : Listing ctx s dir entries)
    (hempty : s.children dir = []) :
    mergeEntries dir entries s = addEntries dir entries s := by
  have hnone : ∀ {t stat name rest},
      Merging ctx s dir entries ((stat, name) :: rest) t →
      (t.children dir).lookup name = none := by
    intro t stat name rest hm
    cases hlookup : (t.children dir).lookup name with
    | none => rfl
    | some c =>
        have hold := hm.old (hm.good.wf.lookup_iff.mp hlookup)
        rw [hempty] at hold
        cases hold
  have hadd : forEach (fun e => mergeEntry dir e.1 e.2) entries s =
      addEntries dir entries s := by
    refine forEach_congr (I := Merging ctx s dir entries) ?_ h.merging
    rintro ⟨stat, name⟩ rest t hsuffix hm
    have heq : mergeEntry dir stat name t = addEntry dir stat name t := by
      rw [mergeEntry, bind_of_ok (directory_run hm.isDir), hnone hm]
    obtain ⟨t', hrun, hm'⟩ := mergeEntry_run hm h hsuffix
    exact ⟨heq, t', heq.symm.trans hrun, hm'⟩
  obtain ⟨t, hrun, hm⟩ := forEach_merge h
  have hprune : forEach (pruneEntry dir (entries.map Prod.snd))
      (t.children dir) t = some (.ok (), t) := by
    obtain ⟨t', hrun', rfl⟩ := forEach_run (I := fun _ t' => t' = t)
      (g := pruneEntry dir (entries.map Prod.snd)) (l := t.children dir)
      (fun e rest t' hsuffix ht' => by
        subst ht'
        have hmem := hsuffix.mem List.mem_cons_self
        obtain ⟨node, hnode, hname, -⟩ := hm.good.wf.listed hmem
        have hlisted : e.1 ∈ entries.map Prod.snd := by
          rcases hm.origin e hmem with hold | ⟨-, hlisted, -⟩
          · rw [hempty] at hold
            cases hold
          · exact hlisted
        refine ⟨t', ?_, rfl⟩
        rw [pruneEntry, bind_of_ok (deref_apply hnode), hname,
          List.contains_iff_mem.mpr hlisted]
        rfl) rfl
    exact hrun'
  rw [← hadd, mergeEntries, bind_of_ok hrun,
    bind_of_ok (directory_run hm.isDir), hprune, hrun]

/-- The entries of the device are taken over. -/
theorem takeEntries_run (h : Listing ctx s dir entries) :
    ∃ t, takeEntries dir entries s = some (.ok (), t) ∧ t.isDir dir ∧
      Synchronised s (t.apply (.setSynced dir true)) dir entries := by
  obtain ⟨t₁, hrun₁, hm⟩ := forEach_merge h
  obtain ⟨t₂, hrun₂, hp⟩ := forEach_prune hm.good hm.caching hm.isDir
    (hm.inTree h) (entries.map Prod.snd)
  have hmerge : mergeEntries dir entries s = some (.ok (), t₂) := by
    rw [mergeEntries, bind_of_ok hrun₁, bind_of_ok (directory_run hm.isDir),
      hrun₂]
  have htake : takeEntries dir entries s = mergeEntries dir entries s := by
    rw [takeEntries, bind_of_ok (directory_run h.isDir)]
    split_ifs with hempty
    · exact (mergeEntries_eq_addEntries h (List.isEmpty_iff.mp hempty)).symm
    · rfl
  refine ⟨t₂, htake.trans hmerge, hp.isDir, ?_⟩
  have hmem : ∀ e, e ∈ t₂.children dir ↔
      e ∈ t₁.children dir ∧ e.1 ∈ entries.map Prod.snd := by
    intro e
    rw [hp.children]
    simp
  have hshape : SameShape t₂ (t₂.apply (.setSynced dir true)) :=
    sameShape_apply rfl
  have hother : ∀ m, m ≠ dir →
      (t₂.apply (.setSynced dir true)).nodes m = t₂.nodes m :=
    fun m hm => Function.update_of_ne hm _ _
  have hne : ∀ e ∈ t₁.children dir, ∀ m, t₁.Below e.2 m → m ≠ dir := by
    rintro e he m hbelow rfl
    exact InTree.not_below hm.good.wf (hm.inTree h) he hbelow
  constructor
  · obtain ⟨d, hd, hdirectory⟩ := isDir_iff.mp hp.isDir
    refine ⟨_, nodes_modify_self hd, ?_⟩
    rw [hshape.children, children_of_nodes hd]
    cases hvalue : d.file with
    | directory children synced => rfl
    | _ =>
        rw [hvalue] at hdirectory
        cases hdirectory
  · rw [hshape.children]
    refine (List.perm_ext_iff_of_nodup (hp.good.wf.unique dir) h.nodup).mpr ?_
    intro name
    constructor
    · intro hname
      obtain ⟨e, he, rfl⟩ := List.mem_map.mp hname
      exact ((hmem e).mp he).2
    · intro hname
      obtain ⟨c, node, hc, -⟩ := hm.found name hname List.not_mem_nil
      exact List.mem_map.mpr ⟨(name, c), (hmem _).mpr ⟨hc, hname⟩, rfl⟩
  · intro e he
    rw [hshape.children, hmem] at he
    obtain ⟨c, node, hc, hnode, herror⟩ :=
      hm.found e.1 he.2 List.not_mem_nil
    have hsame : e.2 = c := hm.good.wf.same_child hc he.1
    subst hsame
    obtain ⟨node', hnode', hname, -⟩ := hm.good.wf.listed he.1
    cases hnode.symm.trans hnode'
    refine ⟨node, ?_, hname, herror⟩
    rw [hother _ (hne e he.1 _ .refl), hp.frame e he.1 (.inl he.2) _ .refl]
    exact hnode
  · intro e he hname
    rw [hshape.children, hmem]
    exact ⟨hm.keeps e he, hname⟩
  · intro e he hname hcurrent m hbelow
    have hframe := hm.frame e he (.inr hcurrent)
    have hbelow' := (below_iff_of_same hframe).mpr hbelow
    rw [hother m (hne e (hm.keeps e he) m hbelow'),
      hp.frame e (hm.keeps e he) (.inl hname) m hbelow', hframe m hbelow]

end Agree

/-- `readdir` reports the names of the children. -/
theorem Synchronised.listed {s' : FileTree} {entries : List (Stat × Name)}
    (h : Synchronised s s' dir entries) :
    listed s' (s'.children dir) = (s'.children dir).map Prod.fst := by
  have hsome : ∀ e ∈ s'.children dir, (s'.nodes e.2).bind (fun node =>
      if node.file.isError then none else some node.name) =
        (some ∘ Prod.fst) e := by
    intro e he
    obtain ⟨child, hchild, hname, herror⟩ := h.nodes e he
    simp [hchild, hname, herror]
  rw [Fs.listed, List.filterMap_congr hsome, List.filterMap_eq_map]

/-- `readdir` brings a directory that is not synced in step with the device.
The outcome is measured against the tree the lookup has left, when the list
arrives. -/
theorem readdir_synchronises {env : Env} {path : Path} {s₀ : FileTree}
    {d : Node} {children : List (Name × Id)} {entries : List (Stat × Name)}
    (hwf : s₀.WellFormed) (hcache : s₀.Caching)
    (hpath : ∀ name ∈ path, ValidName name)
    (hlookup : traverseOrBuild env path s₀ = some (.ok dir, s))
    (hd : s.nodes dir = some d) (hfile : d.file = .directory children false)
    (hanswer : env.answer s.tick (.statdir path) = .ok entries)
    (hnodup : (entries.map Prod.snd).Nodup)
    (hvalid : ∀ e ∈ entries, ValidName e.2) :
    ∃ names s', readdir env path s₀ = some (.ok names, s') ∧
      names.Perm (entries.map Prod.snd) ∧
      Synchronised (s.apply (.clock (env.delay s.tick))) s' dir entries ∧
      (children = [] →
        mergeEntries dir entries (s.apply (.clock (env.delay s.tick))) =
          addEntries dir entries (s.apply (.clock (env.delay s.tick)))) := by
  have hlooked : Looked ((Op.readdir path).ctx env s₀) s dir :=
    traverseOrBuild_looked (hwf.good (.refl s₀)) hcache hpath hlookup
  have hclock := hlooked.clock (env.delay s.tick)
  set t := s.apply (.clock (env.delay s.tick)) with ht
  have hd' : t.nodes dir = some d := hd
  have hisDir₀ : t.isDir dir := isDir_iff.mpr ⟨d, hd', by rw [hfile]; rfl⟩
  have hlisting : Listing ((Op.readdir path).ctx env s₀) t dir entries :=
    ⟨hclock.good, hclock.reached.inside, hclock.inTree, hisDir₀,
      hclock.caching, hnodup, hvalid⟩
  obtain ⟨t', hrun, hisDir, hsync⟩ := takeEntries_run hlisting
  obtain ⟨d', hd'', hdirectory⟩ := isDir_iff.mp hisDir
  have hrequest := request_apply env (.statdir path) s
  rw [hanswer] at hrequest
  have hset : setSynced dir true t' =
      some (.ok (), t'.apply (.setSynced dir true)) := by
    rw [setSynced, bind_of_ok (deref_apply hd''), edit_apply]
  have hisDir' : (t'.apply (.setSynced dir true)).isDir dir := by
    obtain ⟨d, hd, hdir⟩ := hsync.synced
    exact isDir_iff.mpr ⟨d, hd, by rw [hdir]; rfl⟩
  have hasDir : asDirectory dir s = some (.ok children, s) := by
    rw [asDirectory, bind_of_ok (deref_apply hd), hfile]
    rfl
  have hwhen : when (!d.file.hasSynced) (do
      let entries ← request env (.statdir path)
      takeEntries dir entries
      setSynced dir true) s = some (.ok (), t'.apply (.setSynced dir true)) := by
    rw [hfile]
    change (request env (.statdir path) >>= fun _ => _) s = _
    rw [bind_of_ok hrequest, bind_of_ok hrun, hset]
  refine ⟨_, t'.apply (.setSynced dir true), ?_, hsync.names, hsync, ?_⟩
  · rw [readdir, bind_of_ok hlookup, bind_of_ok hasDir, readdirAt,
      bind_of_ok (deref_apply hd), bind_of_ok hwhen,
      bind_of_ok (directory_run hisDir'), bind_of_ok (state_apply _),
      pure_apply, hsync.listed]
  · intro hempty
    refine mergeEntries_eq_addEntries hlisting ?_
    rw [children_of_nodes hd', hfile, hempty]
    rfl

/-- A device with a directory and two files. -/
def threeEntries : List (Stat × Name) :=
  [({ Stat.empty with mode := sIfdir }, "a"),
    ({ Stat.empty with mode := sIfreg }, "e"),
    ({ Stat.empty with mode := sIfreg }, "n")]

/-- Of the children `a`, `x` and `e`, where `e` is an `Error` node, the device
has `a` and `e`, and it has `n`. -/
theorem readdir_synchronises_mixed : ∃ (s s' : FileTree) (names : List Name),
    s.children ⟨1⟩ = [("a", ⟨2⟩), ("x", ⟨3⟩), ("e", ⟨4⟩)] ∧
      readdir (.obliging (fun _ => .ok .empty) fun _ => .ok threeEntries) [] s =
        some (.ok names, s') ∧ names.Perm ["a", "e", "n"] ∧
      ("a", ⟨2⟩) ∈ s'.children ⟨1⟩ ∧ ("e", ⟨4⟩) ∈ s'.children ⟨1⟩ := by
  have hruns : ∃ s d, Runs step Proper (create none none)
      [(.mkdir ["a"] 0, .ofMode sIfdir), (.mkdir ["x"] 0, .ofMode sIfdir),
        (.getattr ["e"], gone)] s ∧
      s.cache = none ∧ s.nodes ⟨1⟩ = some d ∧
      d.file = .directory [("a", ⟨2⟩), ("x", ⟨3⟩), ("e", ⟨4⟩)] false ∧
      s.root = ⟨1⟩ :=
    ⟨_, _, .cons rfl ⟨⟨by decide, by decide⟩, Env.proper_ofMode _⟩
      (.cons rfl ⟨⟨by decide, by decide⟩, Env.proper_ofMode _⟩
        (.cons rfl ⟨(by decide : ∀ name ∈ ["e"], ValidName name),
          proper_gone⟩ (.nil _))), rfl, rfl, rfl, rfl⟩
  obtain ⟨s, d, hs, hnone, hd, hfile, hroot⟩ := hruns
  have hcache : s.Caching := by
    intro c hc
    cases hnone.symm.trans hc
  have hlookup : traverseOrBuild (.obliging (fun _ => .ok .empty)
      fun _ => .ok threeEntries) [] s = some (.ok ⟨1⟩, s) := by
    rw [← hroot]
    rfl
  have hchildren : s.children ⟨1⟩ = [("a", ⟨2⟩), ("x", ⟨3⟩), ("e", ⟨4⟩)] := by
    rw [children_of_nodes hd, hfile]
    rfl
  obtain ⟨names, s', hrun, hperm, hsync, -⟩ := readdir_synchronises
    (wellFormed_of_runs hs) hcache (by decide) hlookup hd hfile rfl
    (by decide) (by decide)
  have hkeeps : ∀ e ∈ s.children ⟨1⟩, e.1 ∈ threeEntries.map Prod.snd →
      e ∈ s'.children ⟨1⟩ := hsync.keeps
  rw [hchildren] at hkeeps
  exact ⟨s, s', names, hchildren, hrun, hperm, hkeeps _ (by decide) (by decide),
    hkeeps _ (by decide) (by decide)⟩

end Fs

end Madbfs
