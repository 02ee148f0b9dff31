/-
The two switches of the server.  A call that the kernel does not have is given
up when it fails for the first time.  Nobody can tell: on a kernel that either
has the call or does not, a server that never learns answers the same.
-/
import Madbfs.Server.Descriptors

namespace Madbfs

namespace Rpc

namespace Server

open Rpc Program

variable {κ : Type} {kernel : Kernel κ}

/-- The kernel has none of these calls. -/
def Kernel.Lacks {α : Type} (kernel : Kernel κ) (calls : Call α → Prop) :
    Prop :=
  ∀ c, calls c → ∀ k, kernel.answer c k = (.error functionNotSupported, k)

/-- The kernel has these calls. -/
def Kernel.Has {α : Type} (kernel : Kernel κ) (calls : Call α → Prop) : Prop :=
  ∀ c, calls c → ∀ k, (kernel.answer c k).1 ≠ .error functionNotSupported

/-- The calls of `renameat2`. -/
inductive Renameat2 : Call Unit → Prop
  | mk (source target : List Byte) (flags : UInt32) :
      Renameat2 (.renameat2 source target flags)

/-- The calls of `copy_file_range`. -/
inductive CopyFileRange : Call UInt64 → Prop
  | mk (inFd : Int32) (inOff : Int64) (outFd : Int32) (outOff : Int64)
      (size : UInt64) :
      CopyFileRange (.copyFileRange inFd inOff outFd outOff size)

/-- Which calls there are is not a matter of time. -/
structure Kernel.Fixed (kernel : Kernel κ) : Prop where
  renameat2 : kernel.Lacks Renameat2 ∨ kernel.Has Renameat2
  copyFileRange : kernel.Lacks CopyFileRange ∨ kernel.Has CopyFileRange

/-- A switch is only off where the call is missing. -/
structure Honest (kernel : Kernel κ) (s : RequestHandler κ) : Prop where
  renameat2 : s.renameat2Impl = false → kernel.Lacks Renameat2
  copyFileRange : s.copyFileRangeImpl = false → kernel.Lacks CopyFileRange

theorem honest_create (kernel : Kernel κ) (k : κ) :
    Honest kernel (.create k) where
  renameat2 := fun h => by cases h
  copyFileRange := fun h => by cases h

/-- The same device, with switches that may differ. -/
structure Alike (kernel : Kernel κ) (s t : RequestHandler κ) : Prop where
  same : s.kernel = t.kernel
  left : Honest kernel s
  right : Honest kernel t

section Alike

variable {α : Type} {s t : RequestHandler κ}

theorem Honest.withoutRenameat2 (h : Honest kernel s)
    (hlacks : kernel.Lacks Renameat2) :
    Honest kernel { s with renameat2Impl := false } where
  renameat2 _ := hlacks
  copyFileRange := h.copyFileRange

theorem Honest.withoutCopyFileRange (h : Honest kernel s)
    (hlacks : kernel.Lacks CopyFileRange) :
    Honest kernel { s with copyFileRangeImpl := false } where
  renameat2 := h.renameat2
  copyFileRange _ := hlacks

/-- A switch is on where the call is there. -/
theorem Honest.renameat2Impl (h : Honest kernel s)
    (hhas : kernel.Has Renameat2) : s.renameat2Impl = true := by
  by_contra hoff
  have hlacks := h.renameat2 (Bool.eq_false_iff.mpr hoff) _ (.mk [] [] 0)
    s.kernel
  exact hhas _ (.mk [] [] 0) s.kernel (congrArg Prod.fst hlacks)

theorem Honest.copyFileRangeImpl (h : Honest kernel s)
    (hhas : kernel.Has CopyFileRange) : s.copyFileRangeImpl = true := by
  by_contra hoff
  have hlacks := h.copyFileRange (Bool.eq_false_iff.mpr hoff) _
    (.mk 0 0 0 0 0) s.kernel
  exact hhas _ (.mk 0 0 0 0 0) s.kernel (congrArg Prod.fst hlacks)

theorem Alike.setKernel (h : Alike kernel s t) (k : κ) :
    Alike kernel { s with kernel := k } { t with kernel := k } where
  same := rfl
  left := ⟨h.left.renameat2, h.left.copyFileRange⟩
  right := ⟨h.right.renameat2, h.right.copyFileRange⟩

/-- A call does not see the switches. -/
theorem call_respects (c : Call α) :
    Respects (Alike kernel) (call kernel c) := by
  rintro ⟨k, b, d⟩ ⟨k', b', d'⟩ hst r s' hrun
  obtain rfl : k = k' := hst.same
  cases hrun
  exact ⟨_, rfl, hst.setKernel _⟩

theorem ordinary_respects (kernel : Kernel κ) :
    Ordinary kernel fun _ x => Respects (Alike kernel) x where
  toClosed := respects_closed (Alike kernel)
  still _ := call_respects _

/-- A call that is there does not answer that it is missing. -/
theorem respects_ask {β : Type} {c : Call α} {f : Except Errc α → Handle κ β}
    (hhas : ∀ k, (kernel.answer c k).1 ≠ .error functionNotSupported)
    (hf : ∀ res, res ≠ .error functionNotSupported →
      Respects (Alike kernel) (f res)) :
    Respects (Alike kernel) ((call kernel c).outcome >>= f) := by
  rintro ⟨k, b, d⟩ ⟨k', b', d'⟩ hst r s' hrun
  obtain rfl : k = k' := hst.same
  have hanswer (b d : Bool) : (call kernel c).outcome ⟨k, b, d⟩ =
      some (.ok (kernel.answer c k).1, ⟨(kernel.answer c k).2, b, d⟩) :=
    rfl
  rw [bind_of_ok (hanswer b d)] at hrun
  rw [bind_of_ok (hanswer b' d')]
  exact hf _ (hhas k) _ _ (hst.setKernel _) _ _ hrun

/-- What comes after a call that is missing. -/
theorem ask_lacks {β : Type} {c : Call α} (f : Except Errc α → Handle κ β)
    (s : RequestHandler κ)
    (hlacks : kernel.answer c s.kernel =
      (.error functionNotSupported, s.kernel)) :
    ((call kernel c).outcome >>= f) s =
      f (.error functionNotSupported) s := by
  apply bind_of_ok
  simp only [outcome, call, hlacks, Option.map_some]

/-- Where `renameat2` is missing, the fallback is taken in any case. -/
theorem handleRename_lacks (hlacks : kernel.Lacks Renameat2)
    (source target : List Byte) (flags : UInt32) (s : RequestHandler κ) :
    handleRename kernel source target flags s =
      renameFallback kernel source target flags
        { s with renameat2Impl := false } := by
  obtain ⟨k, renameat2Impl, copyFileRangeImpl⟩ := s
  cases renameat2Impl with
  | false => rfl
  | true =>
      change tryRenameat2 kernel source target flags
        ⟨k, true, copyFileRangeImpl⟩ = _
      rw [tryRenameat2, ask_lacks _ _ (hlacks _ (.mk _ _ flags) k)]
      rfl

theorem handleRename_respects (hfixed : kernel.Fixed)
    (source target : List Byte) (flags : UInt32) : Respects (Alike kernel)
      (handleRename kernel source target flags) := by
  intro s t hst r s' hrun
  rcases hfixed.renameat2 with hlacks | hhas
  · rw [handleRename_lacks hlacks] at hrun
    rw [handleRename_lacks hlacks]
    exact renameFallback_rule (respects_closed (Alike kernel))
      (fun _ _ => call_respects _) source target flags
      { s with renameat2Impl := false } { t with renameat2Impl := false }
      ⟨hst.same, hst.left.withoutRenameat2 hlacks,
        hst.right.withoutRenameat2 hlacks⟩ _ _ hrun
  · have hon : handleRename kernel source target flags s =
        tryRenameat2 kernel source target flags s := by
      exact congrFun (if_pos (hst.left.renameat2Impl hhas)) s
    have hon' : handleRename kernel source target flags t =
        tryRenameat2 kernel source target flags t := by
      exact congrFun (if_pos (hst.right.renameat2Impl hhas)) t
    rw [hon] at hrun
    rw [hon']
    refine respects_ask (hhas _ (.mk _ _ _)) (fun res hres => ?_) s t hst r s'
      hrun
    cases res with
    | ok u => exact (ordinary_respects kernel).pure _
    | error err =>
        have hne : err ≠ functionNotSupported := fun h => hres (h ▸ rfl)
        simp only [if_neg hne]
        exact (ordinary_respects kernel).fail err

/-- Where `copy_file_range` is missing, the loop is run in any case. -/
theorem copyOpened_lacks (hlacks : kernel.Lacks CopyFileRange) (inFd : Int32)
    (inOff : Int64) (outFd : Int32) (outOff : Int64) (size : UInt64)
    (s : RequestHandler κ) :
    copyOpened kernel inFd inOff outFd outOff size s =
      copyByHand kernel inFd outFd size
        { s with copyFileRangeImpl := false } := by
  obtain ⟨k, renameat2Impl, copyFileRangeImpl⟩ := s
  cases copyFileRangeImpl with
  | false => rfl
  | true =>
      change tryCopyFileRange kernel inFd inOff outFd outOff size
        ⟨k, renameat2Impl, true⟩ = _
      rw [tryCopyFileRange, ask_lacks _ _ (hlacks _ (.mk _ _ _ _ _) k)]
      rfl

theorem copyOpened_respects (hfixed : kernel.Fixed) (inFd : Int32)
    (inOff : Int64) (outFd : Int32) (outOff : Int64) (size : UInt64) :
    Respects (Alike kernel)
      (copyOpened kernel inFd inOff outFd outOff size) := by
  intro s t hst r s' hrun
  rcases hfixed.copyFileRange with hlacks | hhas
  · rw [copyOpened_lacks hlacks] at hrun
    rw [copyOpened_lacks hlacks]
    exact (ordinary_respects kernel).copyByHand inFd outFd size
      { s with copyFileRangeImpl := false }
      { t with copyFileRangeImpl := false }
      ⟨hst.same, hst.left.withoutCopyFileRange hlacks,
        hst.right.withoutCopyFileRange hlacks⟩ _ _ hrun
  · have hon : copyOpened kernel inFd inOff outFd outOff size s =
        tryCopyFileRange kernel inFd inOff outFd outOff size s := by
      exact congrFun (if_pos (hst.left.copyFileRangeImpl hhas)) s
    have hon' : copyOpened kernel inFd inOff outFd outOff size t =
        tryCopyFileRange kernel inFd inOff outFd outOff size t := by
      exact congrFun (if_pos (hst.right.copyFileRangeImpl hhas)) t
    rw [hon] at hrun
    rw [hon']
    refine respects_ask (hhas _ (.mk _ _ _ _ _)) (fun res hres => ?_) s t hst r
      s' hrun
    cases res with
    | ok n => exact (ordinary_respects kernel).pure _
    | error err =>
        have hne : err ≠ functionNotSupported := fun h => hres (h ▸ rfl)
        simp only [if_neg hne]
        split_ifs
        · exact (ordinary_respects kernel).copyByHand inFd outFd size
        · exact (ordinary_respects kernel).fail err

/-- A handler answers the same whatever it has learnt about the kernel. -/
theorem handler_respects (hfixed : kernel.Fixed) (req : Request) :
    Respects (Alike kernel) (handler kernel req) := by
  have h := ordinary_respects kernel
  by_cases hreq : Handles req
  · cases req with
    | «open» path mode => exact h.bind (call_respects _) fun fd => h.pure _
    | close fd => exact h.bind (call_respects _) fun _ => h.pure _
    | _ => exact absurd hreq id
  · apply h.handler _ (handleRename_respects hfixed)
      (copyOpened_respects hfixed) hreq
    intro β acquire release body _ _ hbody
    apply h.bind (call_respects _)
    intro fd
    exact h.defer (call_respects _) (hbody fd)

end Alike

/-- A server that learns nothing: it tries every call for each request. -/
def handleAnew (kernel : Kernel κ) (req : Request) (k : κ) :
    Option (FallibleResponse × κ) :=
  (handleReq kernel req (.create k)).map fun p => (p.1, p.2.kernel)

/-- One request, from switches that may be off. -/
theorem handleReq_alike (hfixed : kernel.Fixed) (req : Request)
    {s : RequestHandler κ} (hs : Honest kernel s) :
    ∃ response s', handleReq kernel req s = some (response, s') ∧
      handleAnew kernel req s.kernel = some (response, s'.kernel) ∧
      Honest kernel s' := by
  obtain ⟨⟨r, s'⟩, hrun⟩ := handler_total kernel req s
  obtain ⟨t', hanew, halike⟩ := handler_respects hfixed req s
    (.create s.kernel) ⟨rfl, hs, honest_create kernel s.kernel⟩ r s' hrun
  refine ⟨respond req r, s', ?_, ?_, halike.left⟩
  · rw [handleReq, hrun]
    rfl
  · rw [handleAnew, handleReq, hanew, halike.same]
    rfl

/-- On a kernel that either has a call or does not, the server answers as one
that tries every call anew, over any sequence of requests. -/
theorem switches_transparent (hfixed : kernel.Fixed) (reqs : List Request)
    (k : κ) :
    (serve (handleReq kernel) reqs (.create k)).map
        (fun p => (p.1, p.2.kernel)) =
      serve (handleAnew kernel) reqs k := by
  suffices h : ∀ s : RequestHandler κ, Honest kernel s →
      (serve (handleReq kernel) reqs s).map (fun p => (p.1, p.2.kernel)) =
        serve (handleAnew kernel) reqs s.kernel from
    h (.create k) (honest_create kernel k)
  induction reqs with
  | nil => exact fun s hs => rfl
  | cons req rest ih =>
      intro s hs
      obtain ⟨response, s', hreq, hanew, hs'⟩ := handleReq_alike hfixed req hs
      have hrest := ih s' hs'
      simp only [serve, hreq, hanew, Option.bind_eq_bind, Option.bind_some,
        ← hrest, Option.map_bind, Option.bind_map]
      rfl

namespace OneFile

theorem fixed : OneFile.kernel.Fixed where
  renameat2 := .inl fun c hc k => by
    cases hc
    rfl
  copyFileRange := .inl fun c hc k => by
    cases hc
    rfl

/-- The second `Rename` goes to the fallback at once, and is refused for its
flags as the first one was. -/
theorem switches_transparent_rename :
    serve (handleAnew OneFile.kernel) [.rename [97] [98] 1,
      .rename [97] [98] 1, .rename [97] [98] 0] ⟨[], none⟩ =
        some ([.failed .rename Errc.invalidArgument,
          .failed .rename Errc.invalidArgument,
          .failed .rename permissionDenied], ⟨[], none⟩) :=
  (switches_transparent fixed _ _).symm.trans rfl

end OneFile

end Server

end Rpc

end Madbfs
