/-
The sixteen handlers of the server, as they call the kernel.  A handler that
fails answers with the `errno` of the call that did; the descriptors that it
opens for itself are closed when it leaves their scope.
-/
import Madbfs.Rpc.ReadHandlers
import Madbfs.Server.Calls

namespace Madbfs

namespace Rpc

namespace Server

open Bytes Rpc Program

variable {κ α : Type} (kernel : Kernel κ)

/-- The loop of `Listdir`, with `buf` and `slices` as they are so far.  A name
whose file has no status is left out. -/
def listEntries (dir : Int32) : List (List Byte) → List Byte →
    List (Slice × Stat) → Handle κ (List Byte × List (Slice × Stat))
  | [], buf, slices => return (buf, slices)
  | name :: rest, buf, slices =>
      if name = [46] ∨ name = [46, 46] then listEntries dir rest buf slices
      else do
        let res ← (call kernel (.fstatat dir name)).outcome
        match res with
        | .error _ => listEntries dir rest buf slices
        | .ok stat =>
            listEntries dir rest (buf ++ name)
              (slices ++ [(⟨buf.length, name.length⟩, stat)])

def handleListdir (path : List Byte) : Handle κ (Response (List Byte)) := do
  let dir ← call kernel (.opendir (cString path))
  defer (call kernel (.closedir dir)) do
    let names ← (call kernel (.readdir dir)).outcome
    let (buf, slices) ← listEntries kernel dir (names.toOption.getD []) [] []
    return .listdir (slices.map fun e => (e.1.view buf, e.2))

def handleStat (path : List Byte) : Handle κ (Response (List Byte)) := do
  let filestat ← call kernel (.lstat (cString path))
  return .stat filestat

/-- The size of `m_readlink_buf`. -/
def pathMax : Nat :=
  4096

def handleReadlink (path : List Byte) : Handle κ (Response (List Byte)) := do
  let target ← call kernel (.readlink (cString path) pathMax)
  return .readlink target.1

/-- The handlers that make one call and answer with an empty response. -/
def handleCall (c : Call Unit) (resp : Response (List Byte)) :
    Handle κ (Response (List Byte)) := do
  call kernel c
  return resp

def handleMknod (path : List Byte) (mode : UInt32) (dev : UInt64) :
    Handle κ (Response (List Byte)) :=
  handleCall kernel (.mknod (cString path) mode dev) .mknod

def handleMkdir (path : List Byte) (mode : UInt32) :
    Handle κ (Response (List Byte)) :=
  handleCall kernel (.mkdir (cString path) mode) .mkdir

def handleUnlink (path : List Byte) : Handle κ (Response (List Byte)) :=
  handleCall kernel (.unlink (cString path)) .unlink

def handleRmdir (path : List Byte) : Handle κ (Response (List Byte)) :=
  handleCall kernel (.rmdir (cString path)) .rmdir

/-- `renameat` takes no flags. -/
def renameFallback (source target : List Byte) (flags : UInt32) :
    Handle κ (Response (List Byte)) := do
  require (flags = 0) Errc.invalidArgument
  call kernel (.renameat (cString source) (cString target))
  return .rename

/-- What is done while `renameat2` may be there. -/
def tryRenameat2 (source target : List Byte) (flags : UInt32) :
    Handle κ (Response (List Byte)) := do
  let res ← (call kernel
    (.renameat2 (cString source) (cString target) flags)).outcome
  match res with
  | .ok () => return .rename
  | .error err =>
      if err = functionNotSupported then
        change fun s => { s with renameat2Impl := false }
        renameFallback kernel source target flags
      else fail err

def handleRename (source target : List Byte) (flags : UInt32) :
    Handle κ (Response (List Byte)) := do
  let s ← state
  if s.renameat2Impl then tryRenameat2 kernel source target flags
  else renameFallback kernel source target flags

def handleTruncate (path : List Byte) (size : Int64) :
    Handle κ (Response (List Byte)) :=
  handleCall kernel (.truncate (cString path) size) .truncate

def handleUtimens (path : List Byte) (atime mtime : Timespec) :
    Handle κ (Response (List Byte)) :=
  handleCall kernel (.utimensat (cString path) atime mtime) .utimens

/-- The inner loop of the fallback. -/
def writeAll (fd : Int32) (bytes : List Byte) : Handle κ Unit :=
  if _hpos : 0 < bytes.length then do
    let written ← call kernel (.write fd bytes)
    writeAll fd (bytes.drop written.1)
  else return ()
termination_by bytes.length
decreasing_by
  rw [List.length_drop]
  exact Nat.sub_lt _hpos (written.2.2 _hpos)

/-- The outer loop of the fallback. -/
def copyAll (inFd outFd : Int32) (size copied : Nat) : Handle κ Nat :=
  if _hlt : copied < size then do
    let buffer ← call kernel (.read inFd (min bufferSize (size - copied)))
    if _hread : buffer.1.length = 0 then return copied
    else
      writeAll kernel outFd buffer.1
      copyAll inFd outFd size (copied + buffer.1.length)
  else return copied
termination_by size - copied

def copyByHand (inFd outFd : Int32) (size : UInt64) :
    Handle κ (Response (List Byte)) := do
  let copied ← copyAll kernel inFd outFd size.toNat 0
  return .copyFileRange (UInt64.ofNat copied)

/-- What is done while `copy_file_range` may be there.  It does not copy from
one filesystem to another. -/
def tryCopyFileRange (inFd : Int32) (inOff : Int64) (outFd : Int32)
    (outOff : Int64) (size : UInt64) : Handle κ (Response (List Byte)) := do
  let res ← (call kernel
    (.copyFileRange inFd inOff outFd outOff size)).outcome
  match res with
  | .ok n => return .copyFileRange n
  | .error err =>
      if err = functionNotSupported then
        change fun s => { s with copyFileRangeImpl := false }
        copyByHand kernel inFd outFd size
      else if err = crossDeviceLink then copyByHand kernel inFd outFd size
      else fail err

/-- What is done with both files open and at their offsets. -/
def copyOpened (inFd : Int32) (inOff : Int64) (outFd : Int32) (outOff : Int64)
    (size : UInt64) : Handle κ (Response (List Byte)) := do
  let s ← state
  if s.copyFileRangeImpl then
    tryCopyFileRange kernel inFd inOff outFd outOff size
  else copyByHand kernel inFd outFd size

def oRdonly : Int32 :=
  0

def oWronly : Int32 :=
  1

def handleCopyFileRange (inPath : List Byte) (inOff : Int64)
    (outPath : List Byte) (outOff : Int64) (size : UInt64) :
    Handle κ (Response (List Byte)) := do
  let inFd ← call kernel (.open (cString inPath) oRdonly)
  defer (call kernel (.close inFd)) do
    call kernel (.lseek inFd inOff)
    let outFd ← call kernel (.open (cString outPath) oWronly)
    defer (call kernel (.close outFd)) do
      call kernel (.lseek outFd outOff)
      copyOpened kernel inFd inOff outFd outOff size

def handleOpen (path : List Byte) (mode : Rpc.OpenMode) :
    Handle κ (Response (List Byte)) := do
  let fd ← call kernel (.open (cString path) (Int32.ofNat mode.value.toNat))
  return .open (ofFd fd)

def handleClose (fd : UInt64) : Handle κ (Response (List Byte)) :=
  handleCall kernel (.close (toFd fd)) .close

def handleRead (fd : UInt64) (offset : Int64) (out : List Byte) :
    Handle κ (Response (List Byte)) := do
  call kernel (.lseek (toFd fd) offset)
  let bytes ← call kernel (.read (toFd fd) out.length)
  return .read bytes.1

def handleWrite (fd : UInt64) (offset : Int64) (input : List Byte) :
    Handle κ (Response (List Byte)) := do
  call kernel (.lseek (toFd fd) offset)
  let len ← call kernel (.write (toFd fd) input)
  return .write (UInt64.ofNat len.1)

def handlePing (num : UInt64) : Handle κ (Response (List Byte)) :=
  return .ping num

/-- The handler of a request. -/
def handler : Request → Handle κ (Response (List Byte))
  | .stat path => handleStat kernel path
  | .listdir path _ => handleListdir kernel path
  | .readlink path _ => handleReadlink kernel path
  | .mknod path mode dev => handleMknod kernel path mode dev
  | .mkdir path mode => handleMkdir kernel path mode
  | .unlink path => handleUnlink kernel path
  | .rmdir path => handleRmdir kernel path
  | .rename source target flags => handleRename kernel source target flags
  | .truncate path size => handleTruncate kernel path size
  | .utimens path atime mtime => handleUtimens kernel path atime mtime
  | .copyFileRange inPath inOff outPath outOff size =>
      handleCopyFileRange kernel inPath inOff outPath outOff size
  | .open path mode => handleOpen kernel path mode
  | .close fd => handleClose kernel fd
  | .read fd offset out => handleRead kernel fd offset out
  | .write fd offset input => handleWrite kernel fd offset input
  | .ping num => handlePing num

/-- What a handler ends with, as a response to the request. -/
def respond (req : Request) : Except Errc (Response (List Byte)) →
    FallibleResponse
  | .ok resp => .success resp
  | .error status => .failed req.proc status

/-- `RequestHandler::handle_req`.  The pool has one thread, so one handler is
run at a time. -/
def handleReq (req : Request) (s : RequestHandler κ) :
    Option (FallibleResponse × RequestHandler κ) :=
  (handler kernel req s).map fun p => (respond req p.1, p.2)

/-- The responses to requests that are handled one after the other. -/
def serve {σ : Type}
    (handle : Request → σ → Option (FallibleResponse × σ)) :
    List Request → σ → Option (List FallibleResponse × σ)
  | [], s => some ([], s)
  | req :: rest, s => do
      let (response, s₁) ← handle req s
      let (responses, s') ← serve handle rest s₁
      return (response :: responses, s')

/-- A request with the response that it gets. -/
abbrev Exchange : Type :=
  Request × FallibleResponse

/-- The handler answers a request. -/
def step (s : RequestHandler κ) (e : Exchange) : Option (RequestHandler κ) :=
  match handleReq kernel e.1 s with
  | some (response, s') => if response = e.2 then some s' else none
  | none => none

theorem step_eq_some {kernel : Kernel κ} {s s' : RequestHandler κ}
    {e : Exchange} : step kernel s e = some s' ↔
      handleReq kernel e.1 s = some (e.2, s') := by
  unfold step
  rcases hhandle : handleReq kernel e.1 s with _ | ⟨response, t⟩
  · simp
  · by_cases heq : response = e.2
    · simp [heq]
    · simp [heq]

/-- The requests whose handlers keep a descriptor or give one back. -/
def Handles : Request → Prop
  | .open _ _ => True
  | .close _ => True
  | _ => False

/-- Properties of programs that the calls have which leave the descriptors
alone. -/
structure Plain (P : (α : Type) → Handle κ α → Prop) : Prop
    extends Sequential P where
  still : ∀ {α : Type} {c : Call α}, c.Still → P α (call kernel c)

/-- A property of the programs that stat the entries of a directory. -/
theorem listEntries_rule {kernel : Kernel κ}
    {P : (α : Type) → Handle κ α → Prop} (h : Sequential P)
    (hcall : ∀ dir name, P _ (call kernel (.fstatat dir name))) (dir : Int32)
    (names : List (List Byte)) (buf : List Byte)
    (slices : List (Slice × Stat)) :
    P _ (listEntries kernel dir names buf slices) := by
  induction names generalizing buf slices with
  | nil => exact h.pure _
  | cons name rest ih =>
      unfold listEntries
      split_ifs
      · exact ih _ _
      · apply h.bind (h.outcome (hcall dir name))
        intro res
        cases res with
        | error err => exact ih _ _
        | ok stat => exact ih _ _

theorem renameFallback_rule {kernel : Kernel κ}
    {P : (α : Type) → Handle κ α → Prop} (h : Closed P)
    (hcall : ∀ source target, P _ (call kernel (.renameat source target)))
    (source target : List Byte) (flags : UInt32) :
    P _ (renameFallback kernel source target flags) := by
  apply h.bind (h.require _ _)
  intro _
  apply h.bind (hcall _ _)
  intro _
  exact h.pure _

/-- Where the switch may be looked at and turned off. -/
theorem handleRename_rule {kernel : Kernel κ}
    {P : (α : Type) → Handle κ α → Prop} (h : Closed P)
    (hask : ∀ source target flags,
      P _ (call kernel (.renameat2 source target flags)))
    (hcall : ∀ source target, P _ (call kernel (.renameat source target)))
    (hstate : ∀ {β : Type} {f : RequestHandler κ → Handle κ β},
      (∀ s, P β (f s)) → P β (state >>= f))
    (hchange : P _ (change fun s => { s with renameat2Impl := false }))
    (source target : List Byte) (flags : UInt32) :
    P _ (handleRename kernel source target flags) := by
  have hfallback := renameFallback_rule h hcall source target flags
  apply hstate
  intro s
  split_ifs
  · apply h.bind (h.outcome (hask _ _ flags))
    intro res
    cases res with
    | ok u => exact h.pure _
    | error err =>
        dsimp only
        split_ifs
        · exact h.bind hchange fun _ => hfallback
        · exact h.fail err
  · exact hfallback

structure Ordinary (P : (α : Type) → Handle κ α → Prop) : Prop
    extends Plain kernel P, Closed P

section Loops

variable {kernel : Kernel κ} {P : (α : Type) → Handle κ α → Prop}
  (h : Plain kernel P)

include h

/-- The loop writes what is left, which is less in every round. -/
theorem Plain.writeAll (fd : Int32) (bytes : List Byte) :
    P _ (writeAll kernel fd bytes) := by
  induction hlength : bytes.length using Nat.strong_induction_on
    generalizing bytes with
  | h n ih =>
      subst hlength
      unfold Server.writeAll
      split_ifs with hpos
      · apply h.bind (h.still (by trivial))
        intro written
        refine ih _ ?_ _ rfl
        rw [List.length_drop]
        exact Nat.sub_lt hpos (written.2.2 hpos)
      · exact h.pure ()

theorem Plain.copyAll (inFd outFd : Int32) (size copied : Nat) :
    P _ (copyAll kernel inFd outFd size copied) := by
  induction hleft : size - copied using Nat.strong_induction_on
    generalizing copied with
  | h n ih =>
      subst hleft
      unfold Server.copyAll
      split_ifs with hlt
      · apply h.bind (h.still (by trivial))
        intro buffer
        split_ifs with hread
        · exact h.pure _
        · apply h.bind (h.writeAll outFd buffer.1)
          intro _
          exact ih _ (by omega) _ rfl
      · exact h.pure _

theorem Plain.copyByHand (inFd outFd : Int32) (size : UInt64) :
    P _ (copyByHand kernel inFd outFd size) := by
  apply h.bind (h.copyAll inFd outFd size.toNat 0)
  intro copied
  exact h.pure _

theorem Plain.handleCall {c : Call Unit} (hc : c.Still)
    (resp : Response (List Byte)) : P _ (handleCall kernel c resp) := by
  apply h.bind (h.still hc)
  intro _
  exact h.pure _

end Loops

section Rules

variable {kernel : Kernel κ} {P : (α : Type) → Handle κ α → Prop}
  (h : Ordinary kernel P)

include h

/-- What is left to prove for the handlers: scopes that hold a descriptor, and
the two places that look at a switch. -/
theorem Ordinary.handler
    (hscope : ∀ {β : Type} {acquire : Call Int32}
      {release : Int32 → Call Unit} {body : Int32 → Handle κ β},
      Acquires acquire → (∀ fd, Releases (release fd) fd) →
      (∀ fd, P β (body fd)) → P β (call kernel acquire >>= fun fd =>
        defer (call kernel (release fd)) (body fd)))
    (hrename : ∀ source target flags,
      P _ (handleRename kernel source target flags))
    (hcopy : ∀ inFd inOff outFd outOff size,
      P _ (copyOpened kernel inFd inOff outFd outOff size))
    {req : Request} (hreq : ¬Handles req) : P _ (handler kernel req) := by
  cases req with
  | stat path =>
      apply h.bind (h.still (by trivial))
      intro filestat
      exact h.pure _
  | listdir path buf =>
      apply hscope (.opendir _) .closedir
      intro dir
      apply h.bind (h.outcome (h.still (by trivial)))
      intro names
      apply h.bind (listEntries_rule h.toSequential
        (fun _ _ => h.still (by trivial)) dir _ _ _)
      intro entries
      exact h.pure _
  | readlink path buf =>
      apply h.bind (h.still (by trivial))
      intro target
      exact h.pure _
  | mknod path mode dev => exact h.handleCall (by trivial) _
  | mkdir path mode => exact h.handleCall (by trivial) _
  | unlink path => exact h.handleCall (by trivial) _
  | rmdir path => exact h.handleCall (by trivial) _
  | rename source target flags => exact hrename source target flags
  | truncate path size => exact h.handleCall (by trivial) _
  | utimens path atime mtime => exact h.handleCall (by trivial) _
  | copyFileRange inPath inOff outPath outOff size =>
      apply hscope (.open _ _) .close
      intro inFd
      apply h.bind (h.still (by trivial))
      intro _
      apply hscope (.open _ _) .close
      intro outFd
      apply h.bind (h.still (by trivial))
      intro _
      exact hcopy inFd inOff outFd outOff size
  | «open» path mode => exact absurd trivial hreq
  | close fd => exact absurd trivial hreq
  | read fd offset out =>
      apply h.bind (h.still (by trivial))
      intro _
      apply h.bind (h.still (by trivial))
      intro bytes
      exact h.pure _
  | write fd offset input =>
      apply h.bind (h.still (by trivial))
      intro _
      apply h.bind (h.still (by trivial))
      intro len
      exact h.pure _
  | ping num => exact h.pure _

theorem Ordinary.handleRename
    (hstate : ∀ {β : Type} {f : RequestHandler κ → Handle κ β},
      (∀ s, P β (f s)) → P β (state >>= f))
    (hchange : P _ (change fun s => { s with renameat2Impl := false }))
    (source target : List Byte) (flags : UInt32) :
    P _ (handleRename kernel source target flags) :=
  handleRename_rule h.toClosed (fun _ _ _ => h.still (by trivial))
    (fun _ _ => h.still (by trivial)) hstate hchange source target flags

theorem Ordinary.copyOpened
    (hstate : ∀ {β : Type} {f : RequestHandler κ → Handle κ β},
      (∀ s, P β (f s)) → P β (state >>= f))
    (hchange : P _ (change fun s => { s with copyFileRangeImpl := false }))
    (inFd : Int32) (inOff : Int64) (outFd : Int32) (outOff : Int64)
    (size : UInt64) :
    P _ (copyOpened kernel inFd inOff outFd outOff size) := by
  apply hstate
  intro s
  split_ifs
  · apply h.bind (h.outcome (h.still (by trivial)))
    intro res
    cases res with
    | ok n => exact h.pure _
    | error err =>
        dsimp only
        split_ifs
        · exact h.bind hchange fun _ => h.copyByHand inFd outFd size
        · exact h.copyByHand inFd outFd size
        · exact h.fail err
  · exact h.copyByHand inFd outFd size

end Rules

theorem ordinary_total :
    Ordinary kernel fun _ (x : Handle κ _) => Total x where
  toClosed := total_closed
  still _ _ := ⟨_, rfl⟩

/-- The server answers every request. -/
theorem handler_total (req : Request) : Total (handler kernel req) := by
  have h := ordinary_total kernel
  have hcall {α : Type} (c : Call α) : Total (call kernel c) := fun s => ⟨_, rfl⟩
  have hstate {β : Type} {f : RequestHandler κ → Handle κ β}
      (hf : ∀ s, Total (f s)) : Total (state >>= f) := fun s => hf s s
  have hchange (f : RequestHandler κ → RequestHandler κ) :
      Total (change f : Handle κ Unit) := fun s => ⟨_, rfl⟩
  by_cases hreq : Handles req
  · cases req with
    | «open» path mode => exact h.bind (hcall _) fun fd => h.pure _
    | close fd => exact h.bind (hcall _) fun _ => h.pure _
    | _ => exact absurd hreq id
  · apply h.handler _ (h.handleRename hstate (hchange _))
      (h.copyOpened hstate (hchange _)) hreq
    intro β acquire release body _ _ hbody
    exact h.bind (hcall _) fun fd => h.defer (hcall _) (hbody fd)

end Server

end Rpc

end Madbfs
