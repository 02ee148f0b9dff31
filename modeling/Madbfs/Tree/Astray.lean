/-
Which pointers the operations on descriptors follow.  A descriptor that is in
the range of the store may have lost its node; the operations go wrong on it
and on no other.
-/
import Madbfs.Tree.Tame

namespace Madbfs

/-- The operations of the cache leave it tidy. -/
def Env.Tidies (env : Env) : Prop :=
  ∀ turn req c, Cache.Tidy c 0 0 → Cache.Tidy (env.serve turn req c).1 0 0

namespace FileTree

/-- What a lookup in the store has returned leads to no node: the pointer is
null, or the node is gone. -/
def Astray (s : FileTree) (found : Option FileHandle) : Prop :=
  ∃ handle, found = some handle ∧
    ∀ n, handle.node = some n → s.nodes n = none

/-- A `read` gets as far as the node, which is lost: at once with a cache, and
without one when the device has answered. -/
def ReadsAstray (s : FileTree) (env : Env) (fd len : Nat) (offset : Int) :
    Prop :=
  ∃ handle, s.handles.findMode fd .read = some handle ∧
    s.Astray (some handle) ∧ (s.cache = none → ∃ count,
      env.answer s.tick (.read handle.realFd len offset) = .ok count)

theorem node_of_not_astray {s : FileTree} {handle : FileHandle}
    (h : ¬s.Astray (some handle)) :
    ∃ n, handle.node = some n ∧ (s.nodes n).isSome := by
  by_contra hnone
  refine h ⟨handle, rfl, fun n hn => ?_⟩
  cases hnode : s.nodes n with
  | none => rfl
  | some node => exact absurd ⟨n, hn, by rw [hnode]; rfl⟩ hnone

/-- The handles are those there were, and so are the nodes. -/
structure Alike (s t : FileTree) : Prop where
  caching : t.Caching
  handles : t.handles = s.handles
  isSome : ∀ n, (t.nodes n).isSome = (s.nodes n).isSome

theorem Alike.astray {s t : FileTree} (h : Alike s t)
    {found : Option FileHandle} (hlost : t.Astray found) :
    s.Astray found := by
  obtain ⟨handle, hfound, hnone⟩ := hlost
  refine ⟨handle, hfound, fun n hn => ?_⟩
  have hsome := h.isSome n
  rw [hnone n hn] at hsome
  cases hnode : s.nodes n with
  | none => rfl
  | some node =>
      rw [hnode] at hsome
      cases hsome

theorem Alike.refl {s : FileTree} (h : s.Caching) : Alike s s :=
  ⟨h, rfl, fun _ => rfl⟩

theorem Alike.trans {s t u : FileTree} (hleft : Alike s t)
    (hright : Alike t u) : Alike s u :=
  ⟨hright.caching, hright.handles.trans hleft.handles,
    fun n => (hright.isSome n).trans (hleft.isSome n)⟩

end FileTree

namespace Fs

open Program FileTree

variable {α β : Type} {s t : FileTree} {n : Id} {env : Env} {path : Path}
  {c : Cache} {req : CacheReq} {fd : Nat} {f : α → Fs β}

/-- Handles and nodes are as they were, whatever the outcome. -/
def Gentle (x : Fs α) (s : FileTree) : Prop :=
  x.Surely s fun _ t => Alike s t

theorem Gentle.bind {x : Fs α} (hx : Gentle x s)
    (hf : ∀ a t, Alike s t → Gentle (f a) t) : Gentle (x >>= f) s := by
  refine Surely.bind hx (fun a t _ ht => ?_) fun _ _ _ h => h
  exact (hf a t ht).mono fun _ u hu => ht.trans hu

theorem Gentle.tame {x : Fs α} (hx : Gentle x s) : Tame x s :=
  hx.mono fun _ _ h => h.caching

theorem gentle_pure {a : α} (h : s.Caching) : Gentle (pure a : Fs α) s :=
  Surely.pure (.refl h)

theorem gentle_edit {e : Edit} (h : s.Caching)
    (he : Edit.keepsKind e = true) (hcache : ∀ c, e ≠ .cache c)
    (hhandles : (s.apply e).handles = s.handles) : Gentle (edit e) s :=
  ⟨_, _, edit_apply e s, caching_apply h hcache, hhandles,
    fun _ => isSome_apply he⟩

theorem gentle_request {req : Req α} (h : s.Caching) :
    Gentle (request env req) s :=
  ⟨_, _, request_apply env req s, h, rfl, fun _ => rfl⟩

theorem gentle_serve (henv : env.Tidies) (h : s.Caching)
    (hcache : s.cache = some c) : Gentle (serve env req c) s := by
  have hrun : serve env req c s = some ((env.serve s.tick req c).2,
      (s.apply (.clock (env.delay s.tick))).apply
        (.cache (env.serve s.tick req c).1)) := by
    unfold serve
    rw [bind_of_ok (state_apply s), bind_of_ok (edit_apply _ _),
      bind_of_ok (edit_apply _ _)]
    cases (env.serve s.tick req c).2 <;> rfl
  refine ⟨_, _, hrun, fun c' hc' => ?_, rfl, fun _ => rfl⟩
  cases hc'
  exact henv _ _ _ (h c hcache)

theorem gentle_refreshStat {atime mtime : TimeArg} (h : s.Caching)
    (hlive : (s.nodes n).isSome) :
    Gentle (refreshStat env n atime mtime) s := by
  obtain ⟨node, hnode⟩ := Option.isSome_iff_exists.mp hlive
  exact ⟨_, _, refreshStat_apply hnode atime mtime, h, rfl,
    fun _ => isSome_apply rfl⟩

theorem gentle_setSize {size : Int} (h : s.Caching)
    (hlive : (s.nodes n).isSome) : Gentle (setSize n size) s := by
  obtain ⟨node, hnode⟩ := Option.isSome_iff_exists.mp hlive
  exact ⟨_, _, bind_of_ok (deref_apply hnode), h, rfl,
    fun _ => isSome_apply rfl⟩

theorem gentle_transfer {cached : CacheReq} {direct : Req Nat}
    (henv : env.Tidies) (h : s.Caching) :
    Gentle (transfer env cached direct) s := by
  refine Surely.bind_of_ok (state_apply s) ?_
  cases hcache : s.cache with
  | none => exact gentle_request h
  | some c => exact gentle_serve henv h hcache

theorem gentle_truncateCache {oldSize newSize : Int} (henv : env.Tidies)
    (h : s.Caching) : Gentle (truncateCache env n oldSize newSize) s := by
  refine Surely.bind_of_ok (state_apply s) ?_
  cases hcache : s.cache with
  | none => exact gentle_pure h
  | some c =>
      have hserve : Gentle (serve env (.truncate n oldSize newSize) c).outcome
          s := Surely.outcome (gentle_serve henv h hcache)
      exact hserve.bind fun _ _ ht => gentle_pure ht.caching

section Rules

variable {Q : Except Errc β → FileTree → Prop}

theorem surely_bind_openFile {f : Bool → Fs β} (herr : ∀ err, Q (.error err) s)
    (hlive : (s.nodes n).isSome) (hf : ∀ dirty, (f dirty).Surely s Q) :
    (openFile n >>= f).Surely s Q := by
  unfold openFile
  rw [bind_assoc]
  apply surely_bind_deref hlive
  intro node _
  cases node.file with
  | regular dirty => exact Surely.bind_of_ok (pure_apply _ _) (hf dirty)
  | _ => exact ⟨_, _, bind_of_error (fail_apply _ _), herr _⟩

/-- A handle that is not lost has a node. -/
theorem surely_bind_handle {seat : Option FileHandle}
    {f : FileHandle → Id → Fs β} (herr : ∀ err, Q (.error err) s)
    (hlost : ¬s.Astray seat)
    (hf : ∀ handle n, (s.nodes n).isSome → (f handle n).Surely s Q) :
    (do
      let handle ← found seat
      let n ← handleNode handle
      f handle n : Fs β).Surely s Q := by
  cases seat with
  | none => exact ⟨_, _, bind_of_error (fail_apply _ _), herr _⟩
  | some handle =>
      obtain ⟨n, hnode, hlive⟩ := node_of_not_astray hlost
      refine Surely.bind_of_ok (pure_apply _ _) ?_
      unfold handleNode
      rw [hnode]
      exact Surely.bind_of_ok (pure_apply _ _) (hf handle n hlive)

end Rules

theorem found_apply (handle : FileHandle) (s : FileTree) :
    found (some handle) s = some (.ok handle, s) := rfl

theorem handleNode_apply {handle : FileHandle} (hnode : handle.node = some n)
    (s : FileTree) : handleNode handle s = some (.ok n, s) := by
  unfold handleNode
  rw [hnode]
  exact pure_apply _ _

theorem gentle_readThrough {handle : FileHandle} {len : Nat} {offset : Int}
    (henv : env.Tidies) (h : s.Caching) (hnode : handle.node = some n)
    (hlive : (s.nodes n).isSome) :
    Gentle (readThrough env handle len offset) s := by
  refine Surely.bind_of_ok (state_apply s) ?_
  cases hcache : s.cache with
  | none => exact gentle_request h
  | some c =>
      refine Surely.bind_of_ok (handleNode_apply hnode s) ?_
      apply surely_bind_deref hlive
      exact fun _ _ => gentle_serve henv h hcache

/-- Without a cache, a failure of the device ends the `read` at once. -/
theorem read_failed {len : Nat} {offset : Int} {handle : FileHandle} {err : Errc}
    (hfound : s.handles.findMode fd .read = some handle)
    (hcache : s.cache = none)
    (hanswer : env.answer s.tick (.read handle.realFd len offset) =
      .error err) :
    read env fd len offset s =
      some (.error err, s.apply (.clock (env.delay s.tick))) := by
  have hthrough : readThrough env handle len offset s =
      some (.error err, s.apply (.clock (env.delay s.tick))) := by
    rw [readThrough, bind_of_ok (state_apply s), hcache, ← hanswer]
    exact request_apply env _ s
  refine (bind_of_ok (state_apply s)).trans ?_
  rw [hfound]
  refine (bind_of_ok (found_apply handle s)).trans ?_
  exact bind_of_error hthrough

theorem gentle_read {len : Nat} {offset : Int} (henv : env.Tidies)
    (h : s.Caching) (hlost : ¬s.ReadsAstray env fd len offset) :
    Gentle (read env fd len offset) s := by
  cases hfound : s.handles.findMode fd .read with
  | none =>
      refine Surely.bind_of_ok (state_apply s) ?_
      rw [hfound]
      exact ⟨_, _, bind_of_error (fail_apply _ _), .refl h⟩
  | some handle =>
      by_cases hastray : s.Astray (some handle)
      · -- the device fails before the node is looked at
        have hcache : s.cache = none := by
          by_contra hne
          exact hlost ⟨handle, hfound, hastray, fun hnone => absurd hnone hne⟩
        cases hanswer : env.answer s.tick
            (.read handle.realFd len offset) with
        | ok count =>
            exact absurd ⟨handle, hfound, hastray,
              fun _ => ⟨count, hanswer⟩⟩ hlost
        | error err =>
            exact ⟨_, _, read_failed hfound hcache hanswer, h, rfl,
              fun _ => rfl⟩
      · obtain ⟨n, hnode, hlive⟩ := node_of_not_astray hastray
        refine Surely.bind_of_ok (state_apply s) ?_
        rw [hfound]
        refine Surely.bind_of_ok (found_apply handle s) ?_
        apply Gentle.bind (gentle_readThrough henv h hnode hlive)
        intro count t ht
        refine Surely.bind_of_ok (handleNode_apply hnode t) ?_
        refine Gentle.bind (gentle_refreshStat ht.caching ?_) fun _ _ hu =>
          gentle_pure hu.caching
        rw [ht.isSome]
        exact hlive

theorem gentle_write {input : List Byte} {offset : Int} (henv : env.Tidies)
    (h : s.Caching) (hlost : ¬s.Astray (s.handles.findMode fd .write)) :
    Gentle (write env fd input offset) s := by
  refine Surely.bind_of_ok (state_apply s) ?_
  apply surely_bind_handle (fun _ => .refl h) hlost
  intro handle n hlive
  apply surely_bind_openFile (fun _ => .refl h) hlive
  intro dirty
  apply Gentle.bind (gentle_transfer henv h)
  intro count t ht
  have hlive₁ : (t.nodes n).isSome := by
    rw [ht.isSome]
    exact hlive
  apply surely_bind_deref hlive₁
  intro node _
  apply Gentle.bind (gentle_setSize ht.caching hlive₁)
  intro _ u hu
  have hlive₂ : (u.nodes n).isSome := by
    rw [hu.isSome]
    exact hlive₁
  apply Gentle.bind (gentle_refreshStat hu.caching hlive₂)
  intro _ v hv
  exact Gentle.bind (gentle_edit hv.caching rfl (fun c hc => by cases hc) rfl)
    fun _ _ hw => gentle_pure hw.caching

theorem gentle_flushDirty (henv : env.Tidies) (h : s.Caching)
    (hlive : (s.nodes n).isSome) : Gentle (flushDirty env n) s := by
  refine Surely.bind_of_ok (state_apply s) ?_
  cases hcache : s.cache with
  | none => exact gentle_edit h rfl (fun c hc => by cases hc) rfl
  | some c =>
      apply Gentle.bind (gentle_serve henv h hcache)
      intro _ t ht
      refine Gentle.bind (gentle_refreshStat ht.caching ?_) fun _ u hu =>
        gentle_edit hu.caching rfl (fun c hc => by cases hc) rfl
      rw [ht.isSome]
      exact hlive

theorem gentle_flush (henv : env.Tidies) (h : s.Caching)
    (hlost : ¬s.Astray (s.handles.find fd)) : Gentle (flush env fd) s := by
  refine Surely.bind_of_ok (state_apply s) ?_
  apply surely_bind_handle (fun _ => .refl h) hlost
  intro handle n hlive
  apply surely_bind_openFile (fun _ => .refl h) hlive
  intro dirty
  exact Surely.when (fun _ => gentle_flushDirty henv h hlive) fun _ => .refl h

theorem tame_closeFile {handle : FileHandle} (h : s.Caching) :
    Tame (closeFile env n handle) s := by
  refine Surely.bind_of_ok (state_apply s) ?_
  cases hcache : s.cache with
  | none => exact tame_request h
  | some c =>
      refine Surely.bind_of_ok (edit_apply _ _) ?_
      have h' : (s.apply (.cache (c.hintClose n handle.mode).1)).Caching := by
        intro c' hc'
        cases hc'
        exact (h c hcache).hintClose n handle.mode
      cases (c.hintClose n handle.mode).2 with
      | ok _ => exact Tame.pure h'
      | error err => exact Tame.fail h'

theorem tame_release (henv : env.Tidies) (h : s.Caching)
    (hlost : ¬s.Astray (s.handles.find fd)) : Tame (release env fd) s := by
  refine Surely.bind_of_ok (state_apply s) ?_
  refine Surely.bind_of_ok (edit_apply _ _) ?_
  have h₁ : (s.apply (.release fd)).Caching := h
  have hlost₁ : ¬(s.apply (.release fd)).Astray (s.handles.release fd).1 :=
    hlost
  set s₁ := s.apply (.release fd)
  apply surely_bind_handle (fun _ => h₁) hlost₁
  intro handle n hlive
  apply surely_bind_openFile (fun _ => h₁) hlive
  intro dirty
  refine Tame.bind (Surely.when (fun _ => ?_) fun _ => h₁)
    fun _ _ _ => tame_closeFile
  exact (gentle_flushDirty henv h₁ hlive).tame

end Fs

end Madbfs
