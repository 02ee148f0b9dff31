/-
The descriptors that are handed out.  The number of a descriptor is its seat in
the store, and a seat whose node was erased is free for the next `open` while
its descriptor is still in use: its reads and writes are refused, but a `flush`
or a `release` follows a null pointer, and an `open` can return it again.
-/
import Madbfs.Tree.Runs

namespace Madbfs

namespace Fs

open Program FileTree

variable {s s' : FileTree} {env : Env} {fd : Nat}

/-- The descriptor is refused by the lookups of the store and by the
operations that use them, and nothing changes. -/
structure Rejected (env : Env) (s : FileTree) (fd : Nat) : Prop where
  find : s.handles.find fd = none
  findMode : ∀ mode, s.handles.findMode fd mode = none
  taken : (s.handles.release fd).1 = none
  read : ∀ len offset, Fs.read env fd len offset s =
    some (.error .badFileDescriptor, s)
  write : ∀ input offset, Fs.write env fd input offset s =
    some (.error .badFileDescriptor, s)
  flush : Fs.flush env fd s = some (.error .badFileDescriptor, s)
  release : Fs.release env fd s = some (.error .badFileDescriptor, s)

/-- A descriptor without a node is refused just in case it is out of the range
of the store. -/
theorem rejected_iff (hnode : s.handles.nodeAt fd = none) :
    Rejected env s fd ↔ s.handles.length ≤ fd := by
  constructor
  · intro h
    exact List.getElem?_eq_none_iff.mp h.find
  · intro hle
    have hget : s.handles[fd]? = none := List.getElem?_eq_none hle
    have hmode := FileHandleStore.findMode_eq_none hnode
    constructor
    · exact hget
    · exact hmode
    · exact hget
    · intro len offset
      simp only [Fs.read, bind_apply, state_apply, hmode, found, fail_apply]
    · intro input offset
      simp only [Fs.write, bind_apply, state_apply, hmode, found, fail_apply]
    · simp only [Fs.flush, bind_apply, state_apply, FileHandleStore.find, hget,
        found, fail_apply]
    · have hset : s.handles.set fd .empty = s.handles :=
        List.set_eq_of_length_le hle
      simp only [Fs.release, bind_apply, state_apply, edit, change_apply, apply,
        FileHandleStore.release, hget, hset, found, fail_apply]

/-- Only the descriptor past the end is refused, not that of a file that was
unlinked. -/
theorem rejected_iff_unopened : ∃ s : FileTree,
    s.handles.nodeAt 1 = some ⟨3⟩ ∧ Rejected (.ofMode sIfreg) s 1024 ∧
      ¬Rejected (.ofMode sIfreg) s 0 := by
  have hseats : (([(.mknod ["f"] sIfreg 0, .ofMode sIfreg),
      (.open ["f"] 0, .ofMode sIfreg), (.mknod ["g"] sIfreg 0, .ofMode sIfreg),
      (.open ["g"] 0, .ofMode sIfreg), (.unlink ["f"], .ofMode sIfreg)] :
        List (Op × Env)).foldlM FileTree.step (create none none)).map (fun s =>
      (s.handles.length, s.handles.nodeAt 0, s.handles.nodeAt 1)) =
      some (1024, none, some ⟨3⟩) := by
    decide +kernel
  obtain ⟨s, -, hs⟩ := Option.map_eq_some_iff.mp hseats
  simp only [Prod.mk.injEq] at hs
  obtain ⟨hlength, herased, hopen⟩ := hs
  refine ⟨s, hopen, (rejected_iff ?_).mpr hlength.le, fun hrejected => ?_⟩
  · rw [FileHandleStore.nodeAt, List.getElem?_eq_none hlength.le]
    rfl
  · have hle := (rejected_iff herased).mp hrejected
    omega

end Fs

namespace FileTree

/-- A file that is unlinked while it is open leaves a descriptor whose `flush`
goes wrong. -/
theorem flush_unlinked_wrong : ∃ s, Runs step Proper (create none none)
    [(.mknod ["f"] sIfreg 0, .ofMode sIfreg), (.open ["f"] 0, .ofMode sIfreg),
      (.unlink ["f"], .ofMode sIfreg)] s ∧
    s.handles.nodeAt 0 = none ∧ s.exec (.flush 0) (.ofMode sIfreg) = none ∧
    ¬Fs.Rejected (.ofMode sIfreg) s 0 := by
  refine ⟨_, .cons rfl ⟨⟨by decide, by decide⟩, Env.proper_ofMode _⟩
    (.cons rfl ⟨by unfold Op.Proper; decide, Env.proper_ofMode _⟩
      (.cons rfl ⟨by unfold Op.Proper; decide, Env.proper_ofMode _⟩ (.nil _))),
    rfl, rfl, ?_⟩
  intro h
  cases h.flush

/-- The changes that hand out or take back a seat. -/
def Edit.seats : Edit → Bool
  | .store _ | .release _ => true
  | _ => false

section Seats

variable {s s' : FileTree} {ctx : Ctx} {e : Edit}

theorem fades_apply (he : Edit.seats e = false) :
    s.handles.Fades (s.apply e).handles := by
  cases e with
  | store | release => cases he
  | eraseHandles n => exact FileHandleStore.fades_erase _ _
  | attach dir n =>
      simp only [apply, attach]
      split <;> exact FileHandleStore.Fades.refl _
  | _ => exact FileHandleStore.Fades.refl _

/-- An operation that does not open or release a file only erases nodes of
handles. -/
theorem Chain.fades
    (hextra : ∀ t e, ctx.extra t e → Edit.seats e = false)
    (hchain : Chain ctx s s') : s.handles.Fades s'.handles := by
  induction hchain with
  | refl s => exact FileHandleStore.Fades.refl _
  | @step s t e hpermits hplain hrest ih =>
      have he : Edit.seats e = false := by
        rcases hplain with hplain | hmade
        · cases e with
          | store | release => cases hplain
          | _ => rfl
        · exact hextra s e hmade
      exact (fades_apply he).trans ih

/-- The handles stay as they are. -/
def keepHandles : Discipline FileTree where
  holds := fun _ => True
  rel := fun s s' => s'.handles = s.handles
  refl := fun _ => rfl
  trans := fun hleft hright => hright.trans hleft
  keeps := fun _ _ => trivial

end Seats

end FileTree

namespace Fs

open Program FileTree

section Handles

variable {α : Type} {s s' : FileTree} {env : Env} {n : Id} {path : Path}
  {fd flags : Nat} {handle : FileHandle}

theorem stays_edit {e : Edit} (he : (s.apply e).handles = s.handles) :
    (edit e).Obeys keepHandles s fun _ _ => True :=
  Obeys.change (fun _ => he) fun _ => trivial

theorem stays_deref : (deref n).Obeys keepHandles s fun _ _ => True := by
  intro _ r s' hrun
  unfold deref at hrun
  split at hrun
  · cases hrun
  · cases hrun
    exact ⟨rfl, fun _ _ => trivial⟩

theorem stays_ofExcept {e : Except Errc α} :
    (ofExcept e : Fs α).Obeys keepHandles s fun _ _ => True :=
  Obeys.ofExcept fun _ _ _ => trivial

theorem stays_request {req : Req α} :
    (request env req).Obeys keepHandles s fun _ _ => True := by
  apply Obeys.bind_state
  apply Obeys.bind (stays_edit rfl)
  intro _ s₁ _ _ _
  exact stays_ofExcept

theorem stays_serve {req : CacheReq} {c : Cache} :
    (serve env req c).Obeys keepHandles s fun _ _ => True := by
  apply Obeys.bind_state
  apply Obeys.bind (stays_edit rfl)
  intro _ s₁ _ _ _
  apply Obeys.bind (stays_edit rfl)
  intro _ s₂ _ _ _
  exact stays_ofExcept

theorem stays_refreshStat {atime mtime : TimeArg} :
    (refreshStat env n atime mtime).Obeys keepHandles s fun _ _ => True := by
  apply Obeys.bind stays_deref
  intro node s₁ _ _ _
  apply Obeys.bind_state
  exact stays_edit rfl

theorem stays_flushDirty :
    (flushDirty env n).Obeys keepHandles s fun _ _ => True := by
  apply Obeys.bind_state
  split
  · apply Obeys.bind stays_serve
    intro _ s₁ _ _ _
    apply Obeys.bind stays_refreshStat
    intro _ s₂ _ _ _
    exact stays_edit rfl
  · exact stays_edit rfl

theorem stays_openFile :
    (openFile n).Obeys keepHandles s fun _ _ => True := by
  apply Obeys.bind stays_deref
  intro node s₁ _ _ _
  split
  · exact Obeys.pure fun _ => trivial
  · exact Obeys.fail

theorem stays_closeFile :
    (closeFile env n handle).Obeys keepHandles s fun _ _ => True := by
  apply Obeys.bind_state
  split
  · apply Obeys.bind (stays_edit rfl)
    intro _ s₁ _ _ _
    exact stays_ofExcept
  · exact stays_request

/-- `release` takes the handle of its descriptor and leaves the others
alone. -/
theorem release_handles {r : Except Errc Unit}
    (hrun : Fs.release env fd s = some (r, s')) :
    s'.handles = (s.handles.release fd).2 := by
  have hrest : ∀ t : FileTree,
      (found (s.handles.release fd).1 >>= fun handle => do
        let n ← handleNode handle
        let dirty ← openFile n
        when (dirty && s.cache.isSome) (flushDirty env n)
        closeFile env n handle : Fs Unit).Obeys keepHandles t
        fun _ _ => True := by
    intro t
    refine Obeys.bind (Q := fun _ _ => True) ?_ fun handle s₁ _ _ _ => ?_
    · cases (s.handles.release fd).1 with
      | none => exact Obeys.fail
      | some handle => exact Obeys.pure fun _ => trivial
    · refine Obeys.bind (Q := fun _ _ => True) ?_ fun n s₂ _ _ _ => ?_
      · unfold handleNode
        split
        · exact Obeys.pure fun _ => trivial
        · exact Obeys.wrong
      · apply Obeys.bind stays_openFile
        intro dirty s₃ _ _ _
        refine Obeys.bind (Q := fun _ _ => True) ?_ fun _ s₄ _ _ _ => ?_
        · exact Obeys.when (fun _ => stays_flushDirty) fun _ _ => trivial
        · exact stays_closeFile
  exact (hrest (s.apply (.release fd)) trivial r s' hrun).1

/-- A handle was put on the first empty seat, and its number is the value, or
there is an error and nothing was stored. -/
def Stores (handles : FileHandleStore) (r : Except Errc Nat) (s' : FileTree) :
    Prop :=
  (∃ err, r = .error err ∧ s'.handles = handles) ∨
    ∃ handle, r = .ok handles.seat ∧ s'.handles = (handles.store handle).2

theorem stores_bind {x : Fs α} {f : α → Fs Nat} {handles : FileHandleStore}
    (hs : s.handles = handles) (hx : x.Obeys keepHandles s fun _ _ => True)
    (hf : ∀ a t, t.handles = handles → (f a).Sat t (Stores handles)) :
    (x >>= f).Sat s (Stores handles) := by
  intro r s' hrun
  rcases bind_cases hrun with ⟨err, hrunx, rfl⟩ | ⟨a, s₁, hrunx, hrunf⟩
  · exact .inl ⟨err, rfl, (hx trivial _ _ hrunx).1.trans hs⟩
  · exact hf a s₁ ((hx trivial _ _ hrunx).1.trans hs) r s' hrunf

theorem stores_storeHandle {mode : OpenMode} {realFd : Fd}
    {handles : FileHandleStore} (hs : s.handles = handles) :
    (storeHandle n mode realFd).Sat s (Stores handles) := by
  subst hs
  intro r s' hrun
  cases hrun
  refine .inr ⟨⟨some n, mode, realFd⟩, ?_, rfl⟩
  rw [FileHandleStore.store_fst]

theorem stores_openAt : (openAt env n path flags).Sat s
    (Stores s.handles) := by
  apply stores_bind rfl stays_deref
  intro node t ht
  apply stores_bind ht stays_ofExcept
  intro dirty t ht
  apply stores_bind (x := state) ht
  · intro _ r s' hrun
    cases hrun
    exact ⟨rfl, fun _ _ => trivial⟩
  · intro s₁ t ht
    split
    · apply stores_bind ht (stays_edit rfl)
      intro _ t ht
      apply stores_bind ht stays_ofExcept
      intro _ t ht
      exact stores_storeHandle ht
    · apply stores_bind ht stays_request
      intro realFd t ht
      exact stores_storeHandle ht

end Handles

end Fs

/-- The filesystem and its clients.  `opened` holds the descriptors that `open`
has returned and on which `release` was not called yet, each with the handle
that was stored for it. -/
structure Clients where
  tree : FileTree
  opened : List (Nat × FileHandle)

namespace Clients

open FileTree

def create (caching : Option (Nat × Nat)) (ttl : Option Nat) : Clients where
  tree := .create caching ttl
  opened := []

/-- The descriptors that are open. -/
def fds (m : Clients) : List Nat :=
  m.opened.map Prod.fst

/-- What an operation does to the descriptors that are open. -/
def record (opened : List (Nat × FileHandle)) (s' : FileTree) :
    Op → Except Errc Value → List (Nat × FileHandle)
  | .open _ _, .ok (.fd fd) => (fd, s'.handles.getD fd .empty) :: opened
  | .release fd, _ => opened.filter fun e => e.1 ≠ fd
  | _, _ => opened

def step (m : Clients) (event : Op × Env) : Option Clients :=
  (m.tree.exec event.1 event.2).map fun outcome =>
    ⟨outcome.2, record m.opened outcome.2 event.1 outcome.1⟩

/-- Where `open` stores its handle, every open descriptor whose node was erased
comes after an empty seat that is no open descriptor. -/
def Unshared (m : Clients) (event : Op × Env) (_ : Clients) : Prop :=
  event.1.Proper ∧ event.2.Proper ∧
  ∀ path flags, event.1 = .open path flags → ∀ n s₁,
    Fs.traverseOrBuild event.2 path (m.tree.start event.2) =
      some (.ok n, s₁) →
    ∀ fd ∈ m.fds, s₁.handles.nodeAt fd = none →
      ∃ free < fd, free ∉ m.fds ∧ s₁.handles.nodeAt free = none

/-- The open descriptors are distinct, and each names the handle that was
stored for it, or what is left of this handle once its node was erased. -/
structure Sole (m : Clients) : Prop where
  wf : m.tree.WellFormed
  distinct : m.fds.Nodup
  own : ∀ e ∈ m.opened, ∃ handle, m.tree.handles[e.1]? = some handle ∧
    e.2.Fades handle

section Steps

variable {m m' : Clients} {op : Op} {env : Env} {s' : FileTree}

theorem sole_create (caching : Option (Nat × Nat)) (ttl : Option Nat) :
    (create caching ttl).Sole :=
  ⟨wellFormed_create caching ttl, List.nodup_nil,
    fun _ he => absurd he List.not_mem_nil⟩

/-- Erased nodes do not matter. -/
theorem Sole.fades (h : m.Sole) (hwf : s'.WellFormed)
    (hfades : m.tree.handles.Fades s'.handles) :
    Sole ⟨s', m.opened⟩ := by
  refine ⟨hwf, h.distinct, fun e he => ?_⟩
  obtain ⟨handle, hget, hown⟩ := h.own e he
  obtain ⟨handle', hget', hfades'⟩ := hfades e.1 handle hget
  exact ⟨handle', hget', hown.trans hfades'⟩

/-- Lookups only erase. -/
theorem fades_lookup {s : FileTree} {path : Path} {r : Except Errc Id}
    (hwf : s.WellFormed) (hvalid : ∀ name ∈ path, ValidName name)
    (hrun : Fs.traverseOrBuild env path (s.start env) = some (r, s')) :
    s.handles.Fades s'.handles := by
  have hgood : (s.start env).Good (Op.shutdown.ctx env s) := good_start hwf
  have hchain : Chain (Op.shutdown.ctx env s) (s.start env) s' :=
    (Fs.obeys_traverseOrBuild hvalid hgood r s' hrun).1
  have hextra : ∀ t e, (Op.shutdown.ctx env s).extra t e →
      Edit.seats e = false := by
    intro t e hmade
    cases hmade
  exact Chain.fades (s := s.start env) hextra hchain

/-- `open` takes a seat that is no open descriptor. -/
theorem Sole.store (h : m.Sole) {s₁ : FileTree} {handle : FileHandle}
    (hwf : s'.WellFormed) (hfades : m.tree.handles.Fades s₁.handles)
    (hfree : ∀ fd ∈ m.fds, s₁.handles.nodeAt fd = none →
      ∃ free < fd, free ∉ m.fds ∧ s₁.handles.nodeAt free = none)
    (hstored : s'.handles = (s₁.handles.store handle).2) :
    Sole ⟨s', (s₁.handles.seat, s'.handles.getD s₁.handles.seat .empty) ::
      m.opened⟩ := by
  have hseat : s₁.handles.seat ∉ m.fds := by
    intro hmem
    obtain ⟨free, hlt, -, hnone⟩ :=
      hfree _ hmem (FileHandleStore.nodeAt_seat _)
    exact FileHandleStore.nodeAt_of_lt_seat hlt hnone
  have hget : s'.handles[s₁.handles.seat]? = some handle := by
    rw [hstored]
    exact FileHandleStore.getElem?_store_seat _ _
  refine ⟨hwf, List.nodup_cons.mpr ⟨hseat, h.distinct⟩, fun e he => ?_⟩
  rcases List.mem_cons.mp he with rfl | hold
  · refine ⟨handle, hget, .inl ?_⟩
    rw [List.getD_eq_getElem?_getD, hget]
    rfl
  · obtain ⟨old, hold', hown⟩ := h.own e hold
    obtain ⟨old', hget', hfades'⟩ := hfades e.1 old hold'
    refine ⟨old', ?_, hown.trans hfades'⟩
    obtain ⟨hlt, -⟩ := List.getElem?_eq_some_iff.mp hget'
    have hne : e.1 ≠ s₁.handles.seat := by
      intro heq
      exact hseat (heq ▸ List.mem_map_of_mem hold)
    rw [hstored, FileHandleStore.getElem?_store handle hlt hne]
    exact hget'

theorem Sole.release (h : m.Sole) {fd : Nat} (hwf : s'.WellFormed)
    (hreleased : s'.handles = (m.tree.handles.release fd).2) :
    Sole ⟨s', m.opened.filter fun e => e.1 ≠ fd⟩ := by
  refine ⟨hwf, ?_, fun e he => ?_⟩
  · exact h.distinct.sublist (List.filter_sublist.map _)
  · obtain ⟨hmem, hne⟩ := List.mem_filter.mp he
    obtain ⟨handle, hget, hown⟩ := h.own e hmem
    refine ⟨handle, ?_, hown⟩
    rw [hreleased, FileHandleStore.getElem?_release (of_decide_eq_true hne)]
    exact hget

theorem Sole.open (h : m.Sole) {path : Path} {flags : Nat}
    {r : Except Errc Value} (hwf : s'.WellFormed)
    (hvalid : ∀ name ∈ path, ValidName name)
    (hfree : ∀ n s₁, Fs.traverseOrBuild env path (m.tree.start env) =
        some (.ok n, s₁) → ∀ fd ∈ m.fds, s₁.handles.nodeAt fd = none →
      ∃ free < fd, free ∉ m.fds ∧ s₁.handles.nodeAt free = none)
    (hexec : m.tree.exec (.open path flags) env = some (r, s')) :
    Sole ⟨s', record m.opened s' (.open path flags) r⟩ := by
  have hopen : ∃ r₀, Fs.open env path flags (m.tree.start env) =
      some (r₀, s') ∧ r = r₀.map Value.fd := by
    rcases Program.bind_cases hexec with ⟨err, hrun, rfl⟩ | ⟨fd, t, hrun, hret⟩
    · exact ⟨.error err, hrun, rfl⟩
    · cases hret
      exact ⟨.ok fd, hrun, rfl⟩
  obtain ⟨r₀, hrun, rfl⟩ := hopen
  rcases Program.bind_cases hrun with ⟨err, hlookup, rfl⟩ | ⟨n, s₁, hlookup, hat⟩
  · exact h.fades hwf (fades_lookup h.wf hvalid hlookup)
  · have hfades := fades_lookup h.wf hvalid hlookup
    rcases Fs.stores_openAt r₀ s' hat with ⟨err, rfl, hsame⟩ | ⟨handle, rfl, hstored⟩
    · refine h.fades hwf ?_
      rw [hsame]
      exact hfades
    · exact h.store hwf hfades (hfree n s₁ hlookup) hstored

theorem release_exec {s : FileTree} {fd : Nat} {r : Except Errc Value}
    (hexec : s.exec (.release fd) env = some (r, s')) :
    s'.handles = (s.handles.release fd).2 := by
  have hrelease : ∃ r₀, Fs.release env fd (s.start env) = some (r₀, s') := by
    rcases Program.bind_cases hexec with ⟨err, hrun, -⟩ | ⟨u, t, hrun, hret⟩
    · exact ⟨_, hrun⟩
    · cases hret
      exact ⟨_, hrun⟩
  obtain ⟨r₀, hrun⟩ := hrelease
  exact Fs.release_handles (s := s.start env) hrun

theorem Sole.step {event : Op × Env} (hstep : m.step event = some m')
    (hguard : m.Unshared event m') (h : m.Sole) : m'.Sole := by
  obtain ⟨op, env⟩ := event
  obtain ⟨⟨r, s'⟩, hexec, rfl⟩ := Option.map_eq_some_iff.mp hstep
  obtain ⟨hop, henv, hfree⟩ := hguard
  have htree : m.tree.step (op, env) = some s' := by
    rw [FileTree.step, hexec]
    rfl
  obtain ⟨hchain, hgood⟩ := chain_of_step h.wf hop henv htree
  have hother : (∀ t e, op.extra env (m.tree.start env) t e →
      Edit.seats e = false) → m.tree.handles.Fades s'.handles :=
    fun hextra => Chain.fades (s := m.tree.start env) hextra hchain
  cases op with
  | «open» path flags =>
      exact h.open hgood.wf hop (hfree path flags rfl) hexec
  | release fd =>
      exact h.release hgood.wf (release_exec hexec)
  | _ =>
      refine h.fades hgood.wf (hother fun t e hmade => ?_)
      cases e with
      | store | release => cases hmade
      | _ => rfl

theorem sole_of_runs {caching : Option (Nat × Nat)} {ttl : Option Nat}
    {events : List (Op × Env)}
    (hruns : Runs step Unshared (create caching ttl) events m) : m.Sole :=
  hruns.preserves (fun hstep hguard h => h.step hstep hguard)
    (sole_create caching ttl)

end Steps

/-- In every state a run reaches, no descriptor was returned by two `open`s
that are not released, and the `release` of one takes the handle of its own
`open`, or what is left of it, and leaves the handles of the others alone. -/
theorem descriptors_distinct {m : Clients} {caching : Option (Nat × Nat)}
    {ttl : Option Nat} {events : List (Op × Env)}
    (hruns : Runs step Unshared (create caching ttl) events m) :
    m.fds.Nodup ∧ ∀ fd handle, (fd, handle) ∈ m.opened →
      (∃ taken, (m.tree.handles.release fd).1 = some taken ∧
        handle.Fades taken) ∧
      ∀ env r s', m.tree.exec (.release fd) env = some (r, s') →
        ∀ other ∈ m.fds, other ≠ fd →
          s'.handles[other]? = m.tree.handles[other]? := by
  have h := sole_of_runs hruns
  refine ⟨h.distinct, fun fd handle hmem => ⟨h.own _ hmem, ?_⟩⟩
  intro env r s' hexec other _ hne
  rw [release_exec hexec]
  exact FileHandleStore.getElem?_release hne

section Reopened

open Fs

/-- `g` is unlinked while it is open, and `f` is closed and opened again. -/
def reopened : List (Op × Env) :=
  [(.mknod ["f"] sIfreg 0, .ofMode sIfreg), (.open ["f"] 0, .ofMode sIfreg),
    (.mknod ["g"] sIfreg 0, .ofMode sIfreg), (.open ["g"] 0, .ofMode sIfreg),
    (.unlink ["g"], .ofMode sIfreg), (.release 0, .ofMode sIfreg),
    (.open ["f"] 0, .ofMode sIfreg)]

/-- The open descriptors at an `open`, and the nodes of the first two seats. -/
def seatsAt (before : List (Op × Env)) (path : Path) :
    Option (List Nat × Option Id × Option Id) := do
  let m ← before.foldlM step (create none none)
  let p ← traverseOrBuild (.ofMode sIfreg) path (m.tree.start (.ofMode sIfreg))
  return (m.fds, p.2.handles.nodeAt 0, p.2.handles.nodeAt 1)

theorem unshared_reopened {before after : List (Op × Env)} {event : Op × Env}
    {m m' : Clients} (hsplit : reopened = before ++ event :: after)
    (hbefore : before.foldlM step (create none none) = some m) :
    m.Unshared event m' := by
  have hseats : ∀ {path n s₁ view}, traverseOrBuild (.ofMode sIfreg) path
      (m.tree.start (.ofMode sIfreg)) = some (.ok n, s₁) →
      seatsAt before path = some view →
      (m.fds, s₁.handles.nodeAt 0, s₁.handles.nodeAt 1) = view := by
    intro path n s₁ view hlookup hview
    rw [seatsAt, hbefore] at hview
    simp only [Option.bind_eq_bind, Option.bind_some, hlookup] at hview
    exact Option.some.inj hview
  rcases before with _ | ⟨_, _ | ⟨_, _ | ⟨_, _ | ⟨_, _ | ⟨_, _ | ⟨_, _ |
    ⟨_, before⟩⟩⟩⟩⟩⟩⟩
  case cons.cons.cons.cons.cons.cons.cons =>
    exact absurd (congrArg List.length hsplit) (by simp [reopened])
  all_goals
    cases hsplit
    refine ⟨by unfold Op.Proper; decide, Env.proper_ofMode _, ?_⟩
    intro path flags hop n s₁ hlookup fd hfd hnone
    cases hop
  · -- nothing is open yet
    obtain ⟨hfds, -⟩ := Prod.mk.inj (hseats hlookup
      (by decide +kernel : _ = some ([], none, none)))
    rw [hfds] at hfd
    cases hfd
  · -- `f` is open
    obtain ⟨hfds, hseat⟩ := Prod.mk.inj (hseats hlookup
      (by decide +kernel : _ = some ([0], some ⟨2⟩, none)))
    rw [hfds] at hfd
    rw [List.mem_singleton.mp hfd, (Prod.mk.inj hseat).1] at hnone
    cases hnone
  · -- the seat before the one of `g` is empty
    obtain ⟨hfds, hseat⟩ := Prod.mk.inj (hseats hlookup
      (by decide +kernel : _ = some ([1], none, none)))
    rw [hfds] at hfd ⊢
    rw [List.mem_singleton.mp hfd]
    exact ⟨0, Nat.one_pos, by decide, (Prod.mk.inj hseat).1⟩

/-- The erased seat of `g` stays the one of its descriptor. -/
theorem descriptors_distinct_two : ∃ m : Clients,
    m.fds = [0, 1] ∧ m.tree.handles.nodeAt 1 = none ∧ m.fds.Nodup := by
  have hall : ((reopened.foldlM step (create none none)).map fun m =>
      (m.fds, m.tree.handles.nodeAt 1)) = some ([0, 1], none) := by
    decide +kernel
  obtain ⟨m, hm, hseats⟩ := Option.map_eq_some_iff.mp hall
  obtain ⟨hfds, herased⟩ := Prod.mk.inj hseats
  have hruns : Runs step Unshared (create none none) reopened m :=
    Runs.of_foldlM hm fun before event after u v hsplit hbefore _ =>
      unshared_reopened hsplit hbefore
  exact ⟨m, hfds, herased, (descriptors_distinct hruns).1⟩

end Reopened

/-- A file that is unlinked while it is open gives its descriptor to the next
file that is opened. -/
theorem open_unlink_open_shares : ∃ m : Clients,
    Runs step (fun _ event _ => event.1.Proper ∧ event.2.Proper)
      (create none none)
      [(.mknod ["f"] sIfreg 0, .ofMode sIfreg), (.open ["f"] 0, .ofMode sIfreg),
        (.unlink ["f"], .ofMode sIfreg),
        (.mknod ["g"] sIfreg 0, .ofMode sIfreg),
        (.open ["g"] 0, .ofMode sIfreg)] m ∧
    m.fds = [0, 0] ∧ ¬m.fds.Nodup := by
  refine ⟨_, .cons rfl ⟨⟨by decide, by decide⟩, Env.proper_ofMode _⟩
    (.cons rfl ⟨by unfold Op.Proper; decide, Env.proper_ofMode _⟩
      (.cons rfl ⟨by unfold Op.Proper; decide, Env.proper_ofMode _⟩
        (.cons rfl ⟨⟨by decide, by decide⟩, Env.proper_ofMode _⟩
          (.cons rfl ⟨by unfold Op.Proper; decide, Env.proper_ofMode _⟩
            (.nil _))))), rfl, ?_⟩
  intro hnodup
  exact List.nodup_cons.mp hnodup |>.1 List.mem_cons_self

end Clients

end Madbfs
