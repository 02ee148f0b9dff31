/-
The programs that only make quiet changes: they work on nodes that are there,
and neither their shape nor their variants nor the open files change.
-/
import Madbfs.Tree.Seats

namespace Madbfs

namespace FileTree

/-- Quiet changes are allowed. -/
def Allows (d : Discipline FileTree) : Prop :=
  ∀ s e, d.holds s → Edit.isQuiet e = true → d.rel s (s.apply e)

end FileTree

namespace Fs

open Program FileTree

variable {d : Discipline FileTree} {s s' : FileTree} {n : Id} {env : Env}
  {α : Type} {path : Path} {stat : Stat} {e : Edit}

theorem quiet_edit (hd : Allows d) (he : Edit.isQuiet e = true) :
    (edit e).Obeys d s fun _ _ => True :=
  Obeys.change (fun hs => hd s e hs he) fun _ => trivial

theorem bind_quiet_edit {f : Unit → Fs α} {Q : α → FileTree → Prop}
    (hd : Allows d) (he : Edit.isQuiet e = true)
    (hf : (f ()).Obeys d (s.apply e) Q) : (edit e >>= f).Obeys d s Q := by
  refine Obeys.bind (Q := fun _ s' => s' = s.apply e)
    (Obeys.change (fun hs => hd s e hs he) fun _ => rfl) ?_
  rintro _ _ _ _ rfl
  exact hf

theorem quiet_bind_deref {f : Node → Fs α} {Q : α → FileTree → Prop}
    (hf : ∀ node, s.nodes n = some node → (f node).Obeys d s Q) :
    (deref n >>= f).Obeys d s Q := by
  intro hs r s' hrun
  obtain ⟨node, hnode, hrest⟩ := bind_deref_cases hrun
  exact hf node hnode hs r s' hrest

theorem quiet_request {req : Req α} (hd : Allows d) :
    (request env req).Obeys d s fun _ _ => True := by
  apply Obeys.bind_state
  apply bind_quiet_edit hd rfl
  exact Obeys.ofExcept fun _ _ _ => trivial

theorem quiet_request_outcome {req : Req α} (hd : Allows d) :
    (request env req).outcome.Obeys d s fun r s' =>
      s' = s.apply (.clock (env.delay s.tick)) ∧
        r = env.answer s.tick req := by
  intro hs r s' hrun
  rw [outcome_apply (request_apply env req s)] at hrun
  cases hrun
  refine ⟨hd s _ hs rfl, fun a ha => ?_⟩
  cases ha
  exact ⟨rfl, rfl⟩

theorem quiet_serve {req : CacheReq} {c : Cache} (hd : Allows d) :
    (serve env req c).Obeys d s fun _ _ => True := by
  apply Obeys.bind_state
  apply bind_quiet_edit hd rfl
  apply bind_quiet_edit hd rfl
  exact Obeys.ofExcept fun _ _ _ => trivial

theorem quiet_expiresAfter (hd : Allows d) :
    (expiresAfter n).Obeys d s fun _ _ => True := by
  apply quiet_bind_deref
  intro _ _
  apply Obeys.bind_state
  exact quiet_edit hd rfl

theorem quiet_setSynced {synced : Bool} (hd : Allows d) :
    (setSynced n synced).Obeys d s fun _ _ => True :=
  quiet_bind_deref fun _ _ => quiet_edit hd rfl

theorem quiet_setStat (hd : Allows d) :
    (setStat n stat).Obeys d s fun _ _ => True :=
  quiet_bind_deref fun _ _ => quiet_edit hd rfl

theorem quiet_setSize {size : Int} (hd : Allows d) :
    (setSize n size).Obeys d s fun _ _ => True :=
  quiet_bind_deref fun _ _ => quiet_edit hd rfl

theorem quiet_refreshStat {atime mtime : TimeArg} (hd : Allows d) :
    (refreshStat env n atime mtime).Obeys d s fun _ _ => True := by
  apply quiet_bind_deref
  intro _ _
  apply Obeys.bind_state
  exact quiet_edit hd rfl

theorem quiet_truncateCache {oldSize newSize : Int} (hd : Allows d) :
    (truncateCache env n oldSize newSize).Obeys d s fun _ _ => True := by
  apply Obeys.bind_state
  split
  · exact Obeys.pure fun _ => trivial
  · refine Obeys.bind (Q := fun _ _ => True) ?_ fun _ _ _ _ _ =>
      Obeys.pure fun _ => trivial
    exact Obeys.outcome (quiet_serve hd) fun _ _ _ _ => trivial

theorem quiet_transfer {cached : CacheReq} {direct : Req Nat}
    (hd : Allows d) :
    (transfer env cached direct).Obeys d s fun _ _ => True := by
  apply Obeys.bind_state
  split
  · exact quiet_serve hd
  · exact quiet_request hd

theorem quiet_bind_found {handle : Option FileHandle} {f : FileHandle → Fs α}
    {Q : α → FileTree → Prop}
    (hf : ∀ h, handle = some h → (f h).Obeys d s Q) :
    (found handle >>= f).Obeys d s Q := by
  cases handle with
  | none => exact fun hs r s' hrun => Obeys.fail hs r s' hrun
  | some handle => exact hf handle rfl

theorem quiet_bind_handleNode {handle : FileHandle} {f : Id → Fs α}
    {Q : α → FileTree → Prop}
    (hf : ∀ n, handle.node = some n → (f n).Obeys d s Q) :
    (handleNode handle >>= f).Obeys d s Q := by
  unfold handleNode
  split
  · next n hn => exact hf n hn
  · exact fun _ => Sat.bind Sat.wrong

theorem quiet_bind_openFile {f : Bool → Fs α} {Q : α → FileTree → Prop}
    (hf : ∀ dirty, (f dirty).Obeys d s Q) :
    (openFile n >>= f).Obeys d s Q := by
  unfold openFile
  rw [bind_assoc]
  apply quiet_bind_deref
  intro node _
  split
  · exact hf _
  · exact fun hs r s' hrun => Obeys.fail hs r s' hrun

theorem quiet_readThrough {handle : FileHandle} {len : Nat} {offset : Int}
    (hd : Allows d) :
    (readThrough env handle len offset).Obeys d s fun _ _ => True := by
  apply Obeys.bind_state
  split
  · apply quiet_bind_handleNode
    intro n _
    apply quiet_bind_deref
    exact fun _ _ => quiet_serve hd
  · exact quiet_request hd

theorem quiet_read {fd len : Nat} {offset : Int} (hd : Allows d) :
    (read env fd len offset).Obeys d s fun _ _ => True := by
  apply Obeys.bind_state
  apply quiet_bind_found
  intro handle _
  apply Obeys.bind (quiet_readThrough hd)
  intro count s₁ _ _ _
  apply quiet_bind_handleNode
  intro n _
  apply Obeys.bind (quiet_refreshStat hd)
  exact fun _ _ _ _ _ => Obeys.pure fun _ => trivial

theorem quiet_write {fd : Nat} {input : List Byte} {offset : Int}
    (hd : Allows d) :
    (write env fd input offset).Obeys d s fun _ _ => True := by
  apply Obeys.bind_state
  apply quiet_bind_found
  intro handle _
  apply quiet_bind_handleNode
  intro n _
  apply quiet_bind_openFile
  intro dirty
  apply Obeys.bind (quiet_transfer hd)
  intro count s₁ _ _ _
  apply quiet_bind_deref
  intro node _
  apply Obeys.bind (quiet_setSize hd)
  intro _ s₂ _ _ _
  apply Obeys.bind (quiet_refreshStat hd)
  intro _ s₃ _ _ _
  exact bind_quiet_edit hd rfl (Obeys.pure fun _ => trivial)

theorem quiet_flushDirty (hd : Allows d) :
    (flushDirty env n).Obeys d s fun _ _ => True := by
  apply Obeys.bind_state
  split
  · apply Obeys.bind (quiet_serve hd)
    intro _ s₁ _ _ _
    apply Obeys.bind (quiet_refreshStat hd)
    exact fun _ _ _ _ _ => quiet_edit hd rfl
  · exact quiet_edit hd rfl

theorem quiet_flush {fd : Nat} (hd : Allows d) :
    (flush env fd).Obeys d s fun _ _ => True := by
  apply Obeys.bind_state
  apply quiet_bind_found
  intro handle _
  apply quiet_bind_handleNode
  intro n _
  apply quiet_bind_openFile
  intro dirty
  exact Obeys.when (fun _ => quiet_flushDirty hd) fun _ _ => trivial

theorem quiet_release {fd : Nat} (hd : Allows d) :
    (release env fd).Obeys d s fun _ _ => True := by
  apply Obeys.bind_state
  apply bind_quiet_edit hd rfl
  apply quiet_bind_found
  intro handle _
  apply quiet_bind_handleNode
  intro n _
  apply quiet_bind_openFile
  intro dirty
  refine Obeys.bind (Q := fun _ _ => True)
    (Obeys.when (fun _ => quiet_flushDirty hd) fun _ _ => trivial)
    fun _ s₁ _ _ _ => ?_
  apply Obeys.bind_state
  split
  · apply bind_quiet_edit hd rfl
    exact Obeys.ofExcept fun _ _ _ => trivial
  · exact quiet_request hd

theorem quiet_traverse :
    (traverse path).Obeys d s fun n s' => s' = s ∧ s.resolve path = some n := by
  intro hs r s' hrun
  obtain ⟨rfl, hresolve⟩ := traverse_cases hrun
  exact ⟨d.refl _, fun n hn => ⟨rfl, hresolve n hn⟩⟩

theorem quiet_copyLookup {inPath outPath : Path} {inFd outFd : Nat}
    (hd : Allows d) :
    (copyLookup env inPath inFd outPath outFd).Obeys d s fun _ _ => True := by
  refine Obeys.bind (Q := fun _ _ => True)
    (Obeys.outcome (quiet_flush hd) fun _ _ _ _ => trivial) fun _ _ _ _ _ => ?_
  refine Obeys.bind (Q := fun _ _ => True)
    (Obeys.outcome (quiet_flush hd) fun _ _ _ _ => trivial) fun _ _ _ _ _ => ?_
  apply Obeys.bind quiet_traverse
  intro inNode _ _ _ _
  apply Obeys.bind quiet_traverse
  exact fun _ _ _ _ _ => Obeys.pure fun _ => trivial

theorem quiet_copyFileRange {inPath outPath : Path} {inFd outFd : Nat}
    {inOff outOff : Int} {size : Nat} (hd : Allows d) :
    (copyFileRange env inPath inFd inOff outPath outFd outOff size).Obeys d s
      fun _ _ => True := by
  apply Obeys.bind (quiet_copyLookup hd)
  rintro ⟨inNode, outNode⟩ s₁ _ _ _
  apply Obeys.bind (quiet_request hd)
  intro copied s₂ _ _ _
  apply Obeys.bind (quiet_request hd)
  intro stat s₃ _ _ _
  apply Obeys.bind (quiet_refreshStat hd)
  intro _ s₄ _ _ _
  apply Obeys.bind (quiet_setStat hd)
  exact fun _ _ _ _ _ => Obeys.pure fun _ => trivial

theorem quiet_initializeRoot (hd : Allows d) :
    (initializeRoot env).Obeys d s fun _ _ => True := by
  apply Obeys.bind_state
  apply Obeys.when
  · intro _
    apply bind_quiet_edit hd rfl
    apply Obeys.bind (quiet_request hd)
    exact fun _ _ _ _ _ => quiet_setStat hd
  · exact fun _ _ => trivial

theorem quiet_setTtl {ttl : Option Nat} (hd : Allows d) :
    (setTtl ttl).Obeys d s fun _ _ => True := by
  apply Obeys.bind_state
  exact Obeys.when (fun _ => quiet_edit hd rfl) fun _ _ => trivial

theorem quiet_expiresAll (hd : Allows d) :
    expiresAll.Obeys d s fun _ _ => True :=
  Obeys.bind_state (quiet_edit hd rfl)

theorem quiet_shutdown (hd : Allows d) :
    (shutdown env).Obeys d s fun _ _ => True := by
  apply Obeys.bind_state
  split
  · refine Obeys.bind (Q := fun _ _ => True) ?_ fun _ _ _ _ _ =>
      Obeys.pure fun _ => trivial
    exact Obeys.outcome (quiet_serve hd) fun _ _ _ _ => trivial
  · exact Obeys.pure fun _ => trivial

theorem quiet_getattrAt : (getattrAt n).Obeys d s fun _ _ => True := by
  apply quiet_bind_deref
  intro node _
  split
  · exact Obeys.fail
  · exact Obeys.pure fun _ => trivial

end Fs

end Madbfs
