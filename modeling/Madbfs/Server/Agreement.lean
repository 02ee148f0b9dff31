/-
The handlers of the server and the models of two of them that stand alone.  A
read is the one of `ReadHandlers`, and a copy is the one of `CopyFallback`, on
the kernels that answer as these say.
-/
import Madbfs.Server.Positions

namespace Madbfs

namespace Rpc

namespace Server

open Bytes Program

variable {κ : Type}

/-- The calls of a kernel on its open files. -/
def Kernel.sys (kernel : Kernel κ) : Sys κ where
  lseek := fun k fd offset =>
    match kernel.answer (.lseek fd offset) k with
    | (.ok (), k') => .ok k'
    | (.error err, _) => .error err
  read := fun k fd size => (kernel.answer (.read fd size) k).1.map Subtype.val

theorem handleReq_read (kernel : Kernel κ) (fd : UInt64) (offset : Int64)
    (out : List Byte) (s : RequestHandler κ) :
    (handleReq kernel (.read fd offset out) s).map Prod.fst =
      some (Rpc.RequestHandler.handleRead kernel.sys s.kernel fd offset
        out) := by
  obtain ⟨⟨r, s'⟩, hrun⟩ := handler_total kernel (.read fd offset out) s
  rw [handleReq, hrun]
  rcases bind_cases hrun with ⟨err, hseek, rfl⟩ | ⟨u, s₁, hseek, hrest⟩
  · have hsys : kernel.sys.lseek s.kernel (toFd fd) offset = .error err := by
      simp only [Kernel.sys, call_cases hseek]
    have hread : Rpc.RequestHandler.handleRead kernel.sys s.kernel fd offset
        out = .failed .read err := by
      simp only [Rpc.RequestHandler.handleRead]
      rw [show kernel.sys.lseek s.kernel fd.toUInt32.toInt32 offset = _ from
        hsys]
    rw [hread]
    rfl
  · have hsys : kernel.sys.lseek s.kernel (toFd fd) offset = .ok s₁.kernel := by
      simp only [Kernel.sys, call_cases hseek]
    have hread : (∀ err, kernel.sys.read s₁.kernel (toFd fd) out.length =
          .error err → Rpc.RequestHandler.handleRead kernel.sys s.kernel fd
            offset out = .failed .read err) ∧
        ∀ bytes, kernel.sys.read s₁.kernel (toFd fd) out.length = .ok bytes →
          Rpc.RequestHandler.handleRead kernel.sys s.kernel fd offset out =
            .success (.read bytes) := by
      simp only [Rpc.RequestHandler.handleRead]
      rw [show kernel.sys.lseek s.kernel fd.toUInt32.toInt32 offset = _ from
        hsys]
      dsimp only
      rw [show fd.toUInt32.toInt32 = toFd fd from rfl]
      constructor
      · intro err herr
        rw [herr]
      · intro bytes hbytes
        rw [hbytes]
    rcases bind_cases hrest with ⟨err, hcall, rfl⟩ | ⟨bytes, s₂, hcall, hret⟩
    · rw [hread.1 err (by simp only [Kernel.sys, call_cases hcall]; rfl)]
      rfl
    · cases hret
      rw [hread.2 bytes.1 (by simp only [Kernel.sys, call_cases hcall]; rfl)]
      rfl

/-- A kernel for a copy of `input`, which is open as 3, to the output, which is
open as 4. -/
def copyKernel (sys : CopyCalls) (input : List Byte) : Kernel CopyState where
  answer
    | .open _ flags, k =>
        if flags = oRdonly then (sys.openIn.map fun _ => 3, k)
        else (sys.openOut.map fun _ => 4, k)
    | .close _, k => (.ok (), k)
    | .lseek fd offset, k =>
        match sys.lseek offset with
        | .error err => (.error err, k)
        | .ok pos =>
            (.ok (), if fd = 3 then { k with inPos := pos.1 }
              else { k with outPos := pos.1 })
    | .read _ size, k =>
        match sys.read k.history (slice input k.inPos size).length with
        | .error err => (.error err, k.fail err)
        | .ok n =>
            (.ok ⟨(slice input k.inPos size).take n.1,
              (List.length_take_le' n.1 _).trans
                ((length_slice _ _ _).trans_le (Nat.min_le_left _ _))⟩,
              k.advance n.1)
    | .write _ bytes, k =>
        match sys.write k.history bytes.length with
        | .error err => (.error err, k.fail err)
        | .ok n => (.ok n, k.put (bytes.take n.1))
    | .copyFileRange _ _ _ _ size, k =>
        match sys.copyFileRange (slice input k.inPos size.toNat).length with
        | .error err => (.error err, k)
        | .ok n => (.ok (UInt64.ofNat n.1), { k with
            output := overlay k.output k.outPos (slice input k.inPos n.1) })
    | .opendir _, k => (.error functionNotSupported, k)
    | .readdir _, k => (.error functionNotSupported, k)
    | .closedir _, k => (.error functionNotSupported, k)
    | .fstatat _ _, k => (.error functionNotSupported, k)
    | .lstat _, k => (.error functionNotSupported, k)
    | .readlink _ _, k => (.error functionNotSupported, k)
    | .mknod _ _ _, k => (.error functionNotSupported, k)
    | .mkdir _ _, k => (.error functionNotSupported, k)
    | .unlink _, k => (.error functionNotSupported, k)
    | .rmdir _, k => (.error functionNotSupported, k)
    | .renameat2 _ _ _, k => (.error functionNotSupported, k)
    | .renameat _ _, k => (.error functionNotSupported, k)
    | .truncate _ _, k => (.error functionNotSupported, k)
    | .utimensat _ _ _, k => (.error functionNotSupported, k)

/-- How a loop ends, as the end of a handler. -/
def ending {α : Type} (s : RequestHandler CopyState) (value : CopyState → α) :
    CopyState × Option Errc → Except Errc α × RequestHandler CopyState
  | (k, none) => (.ok (value k), { s with kernel := k })
  | (k, some err) => (.error err, { s with kernel := k })

section Copy

variable (sys : CopyCalls) (input : List Byte)

theorem writeAll_eq (fd : Int32) (bytes : List Byte) (k : CopyState)
    (s : RequestHandler CopyState) :
    writeAll (copyKernel sys input) fd bytes { s with kernel := k } =
      some (ending s (fun _ => ()) (writeLoop sys.toTransfers bytes k)) := by
  fun_induction writeLoop sys.toTransfers bytes k with
  | case1 bytes k hpos err hwrite =>
      unfold writeAll
      rw [dif_pos hpos]
      apply bind_of_error
      simp only [call, copyKernel, hwrite]
  | case2 bytes k hpos n hn hwrite _ ih =>
      unfold writeAll
      rw [dif_pos hpos]
      have hcall : call (copyKernel sys input) (.write fd bytes)
          { s with kernel := k } = some (.ok ⟨n, hn⟩,
            { s with kernel := k.put (bytes.take n) }) := by
        simp only [call, copyKernel, hwrite]
      exact (bind_of_ok hcall).trans ih
  | case3 bytes k hpos =>
      unfold writeAll
      rw [dif_neg hpos]
      rfl

variable {sys input} in
theorem call_read {k : CopyState} {size n : Nat}
    {hn : n ≤ (slice input k.inPos size).length ∧
      (0 < (slice input k.inPos size).length → 0 < n)}
    (hread : sys.read k.history (slice input k.inPos size).length =
      .ok ⟨n, hn⟩) (s : RequestHandler CopyState) (fd : Int32) :
    call (copyKernel sys input) (.read fd size) { s with kernel := k } =
      some (.ok ⟨(slice input k.inPos size).take n,
        (List.length_take_le' n _).trans
          ((length_slice _ _ _).trans_le (Nat.min_le_left _ _))⟩,
        { s with kernel := k.advance n }) := by
  simp only [call, copyKernel, hread]

theorem copyAll_eq (inFd outFd : Int32) (size : Nat) (k : CopyState)
    (s : RequestHandler CopyState) :
    copyAll (copyKernel sys input) inFd outFd size k.copied
        { s with kernel := k } =
      some (ending s CopyState.copied
        (copyLoop sys.toTransfers input size k)) := by
  fun_induction copyLoop sys.toTransfers input size k with
  | case1 k hlt toRead bytes err hread =>
      unfold copyAll
      rw [dif_pos hlt]
      apply bind_of_error
      simp only [call, copyKernel]
      rw [show sys.read k.history (slice input k.inPos
        (min bufferSize (size - k.copied))).length = .error err from hread]
  | case2 k hlt toRead bytes hn hread =>
      unfold copyAll
      rw [dif_pos hlt]
      have hcall := call_read hread s inFd
      rw [bind_of_ok hcall]
      rfl
  | case3 k hlt toRead bytes n hn hread hzero k₁ err hwrite =>
      unfold copyAll
      rw [dif_pos hlt, bind_of_ok (call_read hread s inFd)]
      have hlength : (bytes.take n).length = n := List.length_take_of_le hn.1
      rw [dif_neg (by rw [hlength]; exact hzero)]
      apply bind_of_error
      rw [writeAll_eq, hwrite]
      rfl
  | case4 k hlt toRead bytes n hn hread hzero k₁ hwrite _ ih =>
      unfold copyAll
      rw [dif_pos hlt, bind_of_ok (call_read hread s inFd)]
      have hlength : (bytes.take n).length = n := List.length_take_of_le hn.1
      rw [dif_neg (by rw [hlength]; exact hzero)]
      have hwritten := writeAll_eq sys input outFd (bytes.take n)
        (k.advance n) s
      rw [hwrite] at hwritten
      rw [bind_of_ok hwritten]
      have hcopied := writeLoop_copied hwrite
      rw [CopyState.copied_advance] at hcopied
      change copyAll _ inFd outFd size (k.copied + (bytes.take n).length) _ = _
      rw [← hcopied]
      exact ih
  | case5 k hlt =>
      unfold copyAll
      rw [dif_neg hlt]
      rfl

/-- Closing a descriptor changes nothing here. -/
theorem defer_close {α : Type} (fd : Int32) (x : Handle CopyState α)
    (s : RequestHandler CopyState) :
    defer (call (copyKernel sys input) (.close fd)) x s = x s := by
  simp only [defer, bind_apply, outcome]
  cases x s with
  | none => rfl
  | some p =>
      obtain ⟨r, s'⟩ := p
      cases r <;> rfl

theorem copyByHand_eq (inFd outFd : Int32) (size : UInt64) (k : CopyState)
    (hcopied : k.copied = 0) (s : RequestHandler CopyState) :
    copyByHand (copyKernel sys input) inFd outFd size { s with kernel := k } =
      some (ending s (fun k => .copyFileRange (UInt64.ofNat k.copied))
        (copyLoop sys.toTransfers input size.toNat k)) := by
  have hloop := copyAll_eq sys input inFd outFd size.toNat k s
  rw [hcopied] at hloop
  rcases hend : copyLoop sys.toTransfers input size.toNat k with ⟨k', _ | err⟩
  · rw [hend] at hloop
    exact bind_of_ok hloop
  · rw [hend] at hloop
    exact bind_of_error hloop

/-- What a copy leaves behind: its response and the output. -/
def outcomeOf (p : Except Errc (Response (List Byte)) ×
    RequestHandler CopyState) : FallibleResponse × List Byte :=
  (respond (.copyFileRange [] 0 [] 0 0) p.1, p.2.kernel.output)

theorem copyByHand_outcome (inFd outFd : Int32) (size : UInt64)
    {k : CopyState} (hcopied : k.copied = 0) (hhistory : k.history = [])
    (s : RequestHandler CopyState) :
    (copyByHand (copyKernel sys input) inFd outFd size
        { s with kernel := k }).map outcomeOf =
      some ((copyFallback sys.toTransfers input k.output k.inPos k.outPos
          size).1,
        (copyFallback sys.toTransfers input k.output k.inPos k.outPos
          size).2.output) := by
  have hstart : k = ⟨[], k.inPos, k.outPos, k.output, 0⟩ := by
    rw [← hcopied, ← hhistory]
  rw [copyByHand_eq sys input inFd outFd size k hcopied s, copyFallback,
    ← hstart]
  rcases copyLoop sys.toTransfers input size.toNat k with ⟨k', _ | err⟩
  · rfl
  · rfl

/-- What is left of the model with both descriptors at their offsets. -/
theorem copyOpened_outcome (inOff outOff : Int64) (size : UInt64)
    {k : CopyState} (hcopied : k.copied = 0) (hhistory : k.history = [])
    (renameat2Impl impl : Bool) :
    (copyOpened (copyKernel sys input) 3 inOff 4 outOff size
        ⟨k, renameat2Impl, impl⟩).map outcomeOf =
      let fallback := copyFallback sys.toTransfers input k.output k.inPos
        k.outPos size
      some (if impl then
        match sys.copyFileRange (slice input k.inPos size.toNat).length with
        | .ok n =>
            (.success (.copyFileRange (UInt64.ofNat n)),
              overlay k.output k.outPos (slice input k.inPos n))
        | .error err =>
            if err = functionNotSupported ∨ err = crossDeviceLink then
              (fallback.1, fallback.2.output)
            else (.failed .copyFileRange err, k.output)
      else (fallback.1, fallback.2.output)) := by
  have hhand (impl : Bool) := copyByHand_outcome sys input 3 4 size hcopied
    hhistory ⟨k, renameat2Impl, impl⟩
  cases impl with
  | false => exact hhand false
  | true =>
      cases hcall : sys.copyFileRange (slice input k.inPos size.toNat).length
        with
      | ok n =>
          have hask : (call (copyKernel sys input)
              (.copyFileRange 3 inOff 4 outOff size)).outcome
                ⟨k, renameat2Impl, true⟩ = some (.ok (.ok (UInt64.ofNat n)),
                  ⟨⟨k.history, k.inPos, k.outPos, overlay k.output k.outPos
                    (slice input k.inPos n), k.copied⟩, renameat2Impl,
                    true⟩) := by
            simp only [outcome, call, copyKernel, hcall, Option.map_some]
          change (tryCopyFileRange (copyKernel sys input) 3 inOff 4 outOff size
            ⟨k, renameat2Impl, true⟩).map outcomeOf = _
          rw [tryCopyFileRange, bind_of_ok hask]
          rfl
      | error err =>
          have hask : (call (copyKernel sys input)
              (.copyFileRange 3 inOff 4 outOff size)).outcome
                ⟨k, renameat2Impl, true⟩ =
              some (.ok (.error err), ⟨k, renameat2Impl, true⟩) := by
            simp only [outcome, call, copyKernel, hcall, Option.map_some]
          change (tryCopyFileRange (copyKernel sys input) 3 inOff 4 outOff size
            ⟨k, renameat2Impl, true⟩).map outcomeOf = _
          rw [tryCopyFileRange, bind_of_ok hask]
          dsimp only
          by_cases hlacks : err = functionNotSupported
          · rw [if_pos hlacks, if_pos rfl, if_pos (.inl hlacks)]
            exact hhand false
          · rw [if_neg hlacks, if_pos rfl]
            by_cases hcross : err = crossDeviceLink
            · rw [if_pos hcross, if_pos (.inr hcross)]
              exact hhand true
            · rw [if_neg hcross, if_neg (not_or.mpr ⟨hlacks, hcross⟩)]
              rfl

/-- What is left of the model with the input at its offset. -/
theorem copyOut_outcome (outPath output : List Byte) (inOff outOff : Int64)
    (size : UInt64) (renameat2Impl impl : Bool) (hin : sys.openIn = .ok ())
    {inPos : { pos : Nat // (pos : Int) = inOff.toInt }}
    (hseek : sys.lseek inOff = .ok inPos) :
    ((call (copyKernel sys input) (.open (cString outPath) oWronly) >>=
        fun outFd => defer (call (copyKernel sys input) (.close outFd)) (do
          call (copyKernel sys input) (.lseek outFd outOff)
          copyOpened (copyKernel sys input) 3 inOff outFd outOff size) :
        Handle CopyState (Response (List Byte)))
        ⟨⟨[], inPos.1, 0, output, 0⟩, renameat2Impl, impl⟩).map outcomeOf =
      some (Rpc.handleCopyFileRange sys impl input output inOff outOff
        size) := by
  set s : RequestHandler CopyState :=
    ⟨⟨[], inPos.1, 0, output, 0⟩, renameat2Impl, impl⟩
  cases hout : sys.openOut with
  | error err =>
      have hopen : call (copyKernel sys input)
          (.open (cString outPath) oWronly) s = some (.error err, s) := by
        simp only [call, copyKernel, hout]
        rfl
      rw [bind_of_error hopen, Rpc.handleCopyFileRange, CopyCalls.openBoth,
        hin, hseek, hout]
      rfl
  | ok u =>
      have hopen : call (copyKernel sys input)
          (.open (cString outPath) oWronly) s = some (.ok 4, s) := by
        simp only [call, copyKernel, hout]
        rfl
      rw [bind_of_ok hopen, defer_close]
      cases hseek' : sys.lseek outOff with
      | error err =>
          have hcall : call (copyKernel sys input) (.lseek 4 outOff) s =
              some (.error err, s) := by
            simp only [call, copyKernel, hseek', s]
          rw [bind_of_error hcall, Rpc.handleCopyFileRange,
            CopyCalls.openBoth, hin, hseek, hout, hseek']
          rfl
      | ok outPos =>
          have hcall : call (copyKernel sys input) (.lseek 4 outOff) s =
              some (.ok (), ⟨⟨[], inPos.1, outPos.1, output, 0⟩,
                renameat2Impl, impl⟩) := by
            simp only [call, copyKernel, hseek', s]
            rfl
          have hboth : sys.openBoth inOff outOff = .ok (inPos, outPos) := by
            rw [CopyCalls.openBoth, hin, hseek, hout, hseek']
            rfl
          have hleft := copyOpened_outcome sys input inOff outOff size
            (k := ⟨[], inPos.1, outPos.1, output, 0⟩) rfl rfl renameat2Impl impl
          rw [bind_of_ok hcall, hleft, Rpc.handleCopyFileRange, hboth]
          cases impl with
          | false => rfl
          | true =>
              dsimp only
              cases sys.copyFileRange (slice input inPos size.toNat).length with
              | error err => rfl
              | ok n => rfl

/-- The handler of the server on these calls is the model of the copy. -/
theorem handleReq_copyFileRange (inPath outPath output : List Byte)
    (inOff outOff : Int64) (size : UInt64) (renameat2Impl impl : Bool) :
    (handleReq (copyKernel sys input)
        (.copyFileRange inPath inOff outPath outOff size)
        ⟨⟨[], 0, 0, output, 0⟩, renameat2Impl, impl⟩).map
          (fun p => (p.1, p.2.kernel.output)) =
      some (Rpc.handleCopyFileRange sys impl input output inOff outOff
        size) := by
  set s : RequestHandler CopyState :=
    ⟨⟨[], 0, 0, output, 0⟩, renameat2Impl, impl⟩
  have houtcome : (handleReq (copyKernel sys input)
      (.copyFileRange inPath inOff outPath outOff size) s).map
        (fun p => (p.1, p.2.kernel.output)) =
      (Server.handleCopyFileRange (copyKernel sys input) inPath inOff outPath
        outOff size s).map outcomeOf := by
    rw [handleReq, Option.map_map]
    rfl
  rw [houtcome]
  cases hin : sys.openIn with
  | error err =>
      have hopen : call (copyKernel sys input) (.open (cString inPath) oRdonly)
          s = some (.error err, s) := by
        simp only [call, copyKernel, hin]
        rfl
      refine (congrArg (Option.map outcomeOf) (bind_of_error hopen)).trans ?_
      rw [Rpc.handleCopyFileRange, CopyCalls.openBoth, hin]
      rfl
  | ok u =>
      have hopen : call (copyKernel sys input) (.open (cString inPath) oRdonly)
          s = some (.ok 3, s) := by
        simp only [call, copyKernel, hin]
        rfl
      refine (congrArg (Option.map outcomeOf)
        ((bind_of_ok hopen).trans (defer_close sys input 3 _ s))).trans ?_
      cases hseek : sys.lseek inOff with
      | error err =>
          have hcall : call (copyKernel sys input) (.lseek 3 inOff) s =
              some (.error err, s) := by
            simp only [call, copyKernel, hseek, s]
          refine (congrArg (Option.map outcomeOf)
            (bind_of_error hcall)).trans ?_
          rw [Rpc.handleCopyFileRange, CopyCalls.openBoth, hin, hseek]
          rfl
      | ok inPos =>
          have hcall : call (copyKernel sys input) (.lseek 3 inOff) s =
              some (.ok (), ⟨⟨[], inPos.1, 0, output, 0⟩, renameat2Impl,
                impl⟩) := by
            simp only [call, copyKernel, hseek, s]
            rfl
          refine (congrArg (Option.map outcomeOf) (bind_of_ok hcall)).trans ?_
          exact copyOut_outcome sys input outPath output inOff outOff size
            renameat2Impl impl hin hseek

end Copy

end Server

end Rpc

end Madbfs
