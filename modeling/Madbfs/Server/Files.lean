/-
The files of a device as the clients of the server see them.  The kernel reads
and writes at the position of a descriptor; the handlers seek first, so that a
position never outlives a request.  What is left is a device whose files are
read and written at the offsets of the requests.
-/
import Mathlib.Data.List.Infix
import Mathlib.Logic.Function.Basic
import Madbfs.Server.Wire

namespace Madbfs

namespace Rpc

namespace Server

open Bytes Rpc Program

variable {κ ι : Type}

/-- The regular files of a device: the ones that paths lead to, the ones that
descriptors are open on, and what they contain. -/
@[ext] structure Device (ι : Type) where
  name : List Byte → Option ι
  file : Int32 → Option ι
  content : ι → List Byte

/-- The kernel also has the position of every descriptor. -/
@[ext] structure OpenFiles (ι : Type) extends Device ι where
  pos : Int32 → Nat

/-- What a transfer takes of the bytes there are: the first ones, and at least
one of them. -/
def Part (bytes whole : List Byte) : Prop :=
  bytes <+: whole ∧ (bytes = [] → whole = [])

def OpenFiles.seek (v : OpenFiles ι) (fd : Int32) (pos : Nat) : OpenFiles ι :=
  { v with pos := Function.update v.pos fd pos }

section Update

variable [DecidableEq ι]

def Device.put (d : Device ι) (i : ι) (bytes : List Byte) : Device ι :=
  { d with content := Function.update d.content i bytes }

def OpenFiles.put (v : OpenFiles ι) (i : ι) (bytes : List Byte) :
    OpenFiles ι :=
  { v with content := Function.update v.content i bytes }

end Update

@[simp] theorem OpenFiles.pos_seek (v : OpenFiles ι) (fd : Int32)
    (pos : Nat) : (v.seek fd pos).pos fd = pos :=
  Function.update_self _ _ _

theorem OpenFiles.pos_seek_of_ne (v : OpenFiles ι) {fd fd' : Int32}
    (hne : fd' ≠ fd) (pos : Nat) : (v.seek fd pos).pos fd' = v.pos fd' :=
  Function.update_of_ne hne _ _

@[simp] theorem OpenFiles.toDevice_seek (v : OpenFiles ι) (fd : Int32)
    (pos : Nat) : (v.seek fd pos).toDevice = v.toDevice :=
  rfl

/-- The calls that change neither the content of a file nor the descriptors
that are open on one. -/
def Call.Quiet {α : Type} : Call α → Prop
  | .closedir _ => False
  | .truncate _ _ => False
  | .copyFileRange _ _ _ _ _ => False
  | .open _ _ => False
  | .close _ => False
  | .lseek _ _ => False
  | .read _ _ => False
  | .write _ _ => False
  | _ => True

/-- The calls that do nothing to the files when they fail. -/
def Call.Fallible {α : Type} : Call α → Prop
  | .truncate _ _ => True
  | .open _ _ => True
  | .lseek _ _ => True
  | .read _ _ => True
  | .write _ _ => True
  | _ => False

/-- What a copy does between two files, if they are not the same one.  `bytes`
are the ones that it has moved. -/
structure Copies (d d' : Device ι) (source target : Option ι)
    (inOff outOff size : Nat) (bytes : List Byte) : Prop where
  names : d'.name = d.name
  files : d'.file = d.file
  others : ∀ l, target ≠ some l → d'.content l = d.content l
  copied : ∀ i j, source = some i → target = some j → i ≠ j →
    bytes <+: slice (d.content i) inOff size ∧
      d'.content j = overlay (d.content j) outOff bytes

/-- The flags that the handlers open a file with come from one byte, so
`O_TRUNC` is not among them. -/
def OpenFlags (flags : Int32) : Prop :=
  ∃ mode : UInt8, flags = Int32.ofNat mode.toNat

/-- How a kernel deals with files.  A descriptor that is open on something
else, say a terminal, may do what it likes, but not with the content of a
file. -/
structure Kernel.Files [DecidableEq ι] (kernel : Kernel κ)
    (view : κ → OpenFiles ι) : Prop where
  opened : ∀ {path : List Byte} {flags : Int32} {k k' : κ} {fd : Int32},
    OpenFlags flags → kernel.answer (.open path flags) k = (.ok fd, k') →
      (view k).file fd = none ∧
      (view k').file =
        Function.update (view k).file fd ((view k').name path) ∧
      (view k').content = (view k).content ∧
      (∀ fd' ≠ fd, (view k').pos fd' = (view k).pos fd') ∧
      (flags = oRdonly ∨ flags = oWronly → (view k').name = (view k).name)
  closed : ∀ (fd : Int32) (k : κ),
    (view (kernel.answer (.close fd) k).2).toDevice =
      { (view k).toDevice with
        file := Function.update (view k).file fd none }
  seeked : ∀ {fd : Int32} {offset : Int64} {k k' : κ},
    kernel.answer (.lseek fd offset) k = (.ok (), k') →
      0 ≤ offset.toInt ∧ view k' = (view k).seek fd offset.toInt.toNat
  read : ∀ {fd : Int32} {size : Nat} {k k' : κ}
    {bytes : { bytes : List Byte // bytes.length ≤ size }},
    kernel.answer (.read fd size) k = (.ok bytes, k') →
      ∃ pos, view k' = (view k).seek fd pos ∧
        ∀ i, (view k).file fd = some i →
          pos = (view k).pos fd + bytes.1.length ∧
          Part bytes.1 (slice ((view k).content i) ((view k).pos fd) size)
  written : ∀ {fd : Int32} {bytes : List Byte} {k k' : κ}
    {n : Transferred bytes.length},
    kernel.answer (.write fd bytes) k = (.ok n, k') →
      ∃ pos, match (view k).file fd with
        | none => view k' = (view k).seek fd pos
        | some i => pos = (view k).pos fd + n.1 ∧
            view k' = ((view k).put i (overlay ((view k).content i)
              ((view k).pos fd) (bytes.take n.1))).seek fd pos
  copied : ∀ {inFd outFd : Int32} {inOff outOff : Int64} {size n : UInt64}
    {k k' : κ},
    kernel.answer (.copyFileRange inFd inOff outFd outOff size) k =
      (.ok n, k') →
      ∃ bytes, Copies (view k).toDevice (view k').toDevice
          ((view k).file inFd) ((view k).file outFd) inOff.toInt.toNat
          outOff.toInt.toNat size.toNat bytes ∧
        n = UInt64.ofNat bytes.length ∧
        ∀ i, (view k).file inFd = some i → bytes = [] →
          slice ((view k).content i) inOff.toInt.toNat size.toNat = []
  refused : ∀ {inFd outFd : Int32} {inOff outOff : Int64} {size : UInt64}
    {k k' : κ} {err : Errc},
    kernel.answer (.copyFileRange inFd inOff outFd outOff size) k =
      (.error err, k') → view k' = view k
  truncated : ∀ {path : List Byte} {size : Int64} {k k' : κ},
    kernel.answer (.truncate path size) k = (.ok (), k') →
      match (view k).name path with
      | none => (view k').toDevice = (view k).toDevice
      | some i => (view k').toDevice = (view k).toDevice.put i
          (resize ((view k).content i) size.toInt.toNat)
  failed : ∀ {α : Type} {c : Call α} {k k' : κ} {err : Errc}, c.Fallible →
    kernel.answer c k = (.error err, k') →
      (view k').toDevice = (view k).toDevice
  quiet : ∀ {α : Type} {c : Call α}, c.Quiet → ∀ k,
    (view (kernel.answer c k).2).file = (view k).file ∧
      (view (kernel.answer c k).2).content = (view k).content
  directory : ∀ {path : List Byte} {k k' : κ} {dir : Int32},
    kernel.answer (.opendir path) k = (.ok dir, k') →
      (view k').file dir = none
  closedir : ∀ {dir : Int32} {k : κ}, (view k).file dir = none →
    (view (kernel.answer (.closedir dir) k).2).file = (view k).file ∧
      (view (kernel.answer (.closedir dir) k).2).content = (view k).content

/-- What a client can tell of an exchange, in terms of offsets alone. -/
def Device.Answers [DecidableEq ι] (d : Device ι) :
    Request → FallibleResponse → Device ι → Prop
  | .open path _, .success resp, d' => ∃ fd, resp = .open (ofFd fd) ∧
      d.file fd = none ∧ d'.content = d.content ∧
      d'.file = Function.update d.file fd (d'.name (cString path))
  | .open _ _, .failed _ _, d' => d' = d
  | .close fd, _, d' =>
      d' = { d with file := Function.update d.file (toFd fd) none }
  | .read fd offset out, .success resp, d' => d' = d ∧ 0 ≤ offset.toInt ∧
      ∃ bytes, resp = .read bytes ∧ ∀ i, d.file (toFd fd) = some i →
        Part bytes (slice (d.content i) offset.toInt.toNat out.length)
  | .read _ _ _, .failed _ _, d' => d' = d
  | .write fd offset input, .success resp, d' => 0 ≤ offset.toInt ∧
      ∃ bytes, resp = .write (UInt64.ofNat bytes.length) ∧ Part bytes input ∧
        match d.file (toFd fd) with
        | none => d' = d
        | some i => d' =
            d.put i (overlay (d.content i) offset.toInt.toNat bytes)
  | .write _ _ _, .failed _ _, d' => d' = d
  | .truncate path size, .success _, d' =>
      match d.name (cString path) with
      | none => d' = d
      | some i => d' = d.put i (resize (d.content i) size.toInt.toNat)
  | .truncate _ _, .failed _ _, d' => d' = d
  | .copyFileRange inPath inOff outPath outOff size, response, d' =>
      ∃ bytes, Copies d d' (d.name (cString inPath)) (d.name (cString outPath))
          inOff.toInt.toNat outOff.toInt.toNat size.toNat bytes ∧
        ∀ resp, response = .success resp →
          ∀ i j, d.name (cString inPath) = some i →
            d.name (cString outPath) = some j → i ≠ j →
              resp = .copyFileRange (UInt64.ofNat bytes.length) ∧
              Part bytes (slice (d.content i) inOff.toInt.toNat size.toNat)
  | _, _, d' => d'.file = d.file ∧ d'.content = d.content

/-- The exchanges of a device, one after the other. -/
inductive Device.Serves [DecidableEq ι] :
    Device ι → List Exchange → Device ι → Prop
  | nil (d : Device ι) : Serves d [] d
  | cons {d d₁ d' : Device ι} {e : Exchange} {exchanges : List Exchange}
      (hanswers : d.Answers e.1 e.2 d₁) (hrest : Serves d₁ exchanges d') :
      Serves d (e :: exchanges) d'

section Steps

variable [DecidableEq ι] {kernel : Kernel κ} {view : κ → OpenFiles ι}
  {s s' : RequestHandler κ}

/-- A call in a run. -/
theorem call_cases {α : Type} {c : Call α} {r : Except Errc α}
    (hrun : call kernel c s = some (r, s')) :
    kernel.answer c s.kernel = (r, s'.kernel) := by
  cases hrun
  rfl

theorem answers_open (h : kernel.Files view) {path : List Byte}
    {mode : Rpc.OpenMode} {r : Except Errc (Response (List Byte))}
    (hrun : handleOpen kernel path mode s = some (r, s')) :
    (view s.kernel).toDevice.Answers (.open path mode)
      (respond (.open path mode) r) (view s'.kernel).toDevice := by
  rcases bind_cases hrun with ⟨err, hopen, rfl⟩ | ⟨fd, s₁, hopen, hrest⟩
  · exact h.failed (by trivial) (call_cases hopen)
  · cases hrest
    obtain ⟨hfree, hfile, hcontent, -, -⟩ := h.opened ⟨mode.value, rfl⟩ (call_cases hopen)
    exact ⟨fd, rfl, hfree, hcontent, hfile⟩

theorem answers_close (h : kernel.Files view) {fd : UInt64}
    {r : Except Errc (Response (List Byte))}
    (hrun : handleClose kernel fd s = some (r, s')) :
    (view s.kernel).toDevice.Answers (.close fd) (respond (.close fd) r)
      (view s'.kernel).toDevice := by
  have hkernel : s'.kernel =
      (kernel.answer (.close (toFd fd)) s.kernel).2 := by
    rcases bind_cases hrun with ⟨err, hclose, -⟩ | ⟨u, s₁, hclose, hrest⟩
    · rw [call_cases hclose]
    · cases hrest
      rw [call_cases hclose]
  change (view s'.kernel).toDevice = _
  rw [hkernel, h.closed]

/-- The position is the offset of the request when the bytes are read. -/
theorem answers_read (h : kernel.Files view) {fd : UInt64} {offset : Int64}
    {out : List Byte} {r : Except Errc (Response (List Byte))}
    (hrun : handleRead kernel fd offset out s = some (r, s')) :
    (view s.kernel).toDevice.Answers (.read fd offset out)
      (respond (.read fd offset out) r) (view s'.kernel).toDevice := by
  rcases bind_cases hrun with ⟨err, hseek, rfl⟩ | ⟨u, s₁, hseek, hrest⟩
  · exact h.failed (by trivial) (call_cases hseek)
  obtain ⟨hoffset, hview⟩ := h.seeked (call_cases hseek)
  have hdevice : (view s₁.kernel).toDevice = (view s.kernel).toDevice := by
    rw [hview]
    rfl
  rcases bind_cases hrest with ⟨err, hread, rfl⟩ | ⟨bytes, s₂, hread, hrest⟩
  · exact (h.failed (by trivial) (call_cases hread)).trans hdevice
  · cases hrest
    obtain ⟨pos, hmoved, hbytes⟩ := h.read (call_cases hread)
    rw [hview] at hmoved hbytes
    refine ⟨?_, hoffset, bytes.1, rfl, fun i hi => ?_⟩
    · rw [hmoved]
      rfl
    · have hpart := (hbytes i hi).2
      rw [OpenFiles.pos_seek] at hpart
      exact hpart

/-- A write may take a part of the bytes. -/
theorem part_take {bytes : List Byte} (n : Transferred bytes.length) :
    (bytes.take n.1).length = n.1 ∧ Part (bytes.take n.1) bytes := by
  have hlength : (bytes.take n.1).length = n.1 :=
    List.length_take_of_le n.2.1
  refine ⟨hlength, List.take_prefix _ _, fun hnil => ?_⟩
  rw [hnil] at hlength
  by_contra hne
  have hpos := n.2.2 (List.length_pos_iff.mpr hne)
  rw [← hlength] at hpos
  exact Nat.lt_irrefl 0 hpos

theorem answers_write (h : kernel.Files view) {fd : UInt64} {offset : Int64}
    {input : List Byte} {r : Except Errc (Response (List Byte))}
    (hrun : handleWrite kernel fd offset input s = some (r, s')) :
    (view s.kernel).toDevice.Answers (.write fd offset input)
      (respond (.write fd offset input) r) (view s'.kernel).toDevice := by
  rcases bind_cases hrun with ⟨err, hseek, rfl⟩ | ⟨u, s₁, hseek, hrest⟩
  · exact h.failed (by trivial) (call_cases hseek)
  obtain ⟨hoffset, hview⟩ := h.seeked (call_cases hseek)
  have hdevice : (view s₁.kernel).toDevice = (view s.kernel).toDevice := by
    rw [hview]
    rfl
  rcases bind_cases hrest with ⟨err, hwrite, rfl⟩ | ⟨n, s₂, hwrite, hrest⟩
  · exact (h.failed (by trivial) (call_cases hwrite)).trans hdevice
  · cases hrest
    obtain ⟨hlength, hpart⟩ := part_take n
    obtain ⟨pos, hmoved⟩ := h.written (call_cases hwrite)
    rw [hview] at hmoved
    refine ⟨hoffset, input.take n.1, ?_, hpart, ?_⟩
    · rw [hlength]
    · change match (view s.kernel).file (toFd fd) with
        | none => _
        | some i => _ at hmoved
      split
      · next hnone =>
          rw [hnone] at hmoved
          rw [hmoved]
          rfl
      · next i hsome =>
          rw [hsome] at hmoved
          rw [hmoved.2, OpenFiles.pos_seek]
          rfl

theorem answers_truncate (h : kernel.Files view) {path : List Byte}
    {size : Int64} {r : Except Errc (Response (List Byte))}
    (hrun : handleTruncate kernel path size s = some (r, s')) :
    (view s.kernel).toDevice.Answers (.truncate path size)
      (respond (.truncate path size) r) (view s'.kernel).toDevice := by
  rcases bind_cases hrun with ⟨err, hcall, rfl⟩ | ⟨u, s₁, hcall, hrest⟩
  · exact h.failed (by trivial) (call_cases hcall)
  · cases hrest
    exact h.truncated (call_cases hcall)

/-- Programs of quiet calls. -/
def quietly (view : κ → OpenFiles ι) : Discipline (RequestHandler κ) where
  holds _ := True
  rel s s' := (view s'.kernel).file = (view s.kernel).file ∧
    (view s'.kernel).content = (view s.kernel).content
  refl _ := ⟨rfl, rfl⟩
  trans h h' := ⟨h'.1.trans h.1, h'.2.trans h.2⟩
  keeps _ _ := trivial

/-- The program does nothing to the files. -/
def Quietly (view : κ → OpenFiles ι) {α : Type} (x : Handle κ α) : Prop :=
  ∀ s, x.Obeys (quietly view) s fun _ _ => True

theorem quietly_call (h : kernel.Files view) {α : Type} {c : Call α}
    (hc : c.Quiet) : Quietly view (call kernel c) := by
  intro s _ r s' hrun
  cases hrun
  exact ⟨h.quiet hc s.kernel, fun _ _ => trivial⟩

theorem quietly_handleCall (h : kernel.Files view) {c : Call Unit}
    (hc : c.Quiet) (resp : Response (List Byte)) :
    Quietly view (handleCall kernel c resp) := by
  have hclosed := obeys_closed (ε := Errc) (quietly view)
  exact hclosed.bind (quietly_call h hc) fun _ => hclosed.pure _

/-- The stream of a directory is not a descriptor on a file. -/
theorem quietly_listdir (h : kernel.Files view) (path : List Byte) :
    Quietly view (handleListdir kernel path) := by
  have hclosed := obeys_closed (ε := Errc) (quietly view)
  intro s _ r s' hrun
  refine ⟨?_, fun _ _ => trivial⟩
  rcases bind_cases hrun with ⟨err, hopen, -⟩ | ⟨dir, s₁, hopen, hscope⟩
  · exact (quietly_call h (by trivial) s trivial _ _ hopen).1
  obtain ⟨hfile, hcontent⟩ :=
    (quietly_call h (by trivial) s trivial _ _ hopen).1
  have hdir := h.directory (call_cases hopen)
  obtain ⟨s₂, u, hbody, hclose⟩ := defer_cases hscope
  have hquiet : Quietly view (do
      let names ← (call kernel (.readdir dir)).outcome
      let list ← listEntries kernel dir (names.toOption.getD []) [] []
      return Response.listdir
        (list.2.map fun e => (e.1.view list.1, e.2))) := by
    apply hclosed.bind (hclosed.outcome (quietly_call h (by trivial)))
    intro names
    apply hclosed.bind (listEntries_rule hclosed.toSequential
      (fun _ _ => quietly_call h (by trivial)) dir _ _ _)
    intro entries
    exact hclosed.pure _
  obtain ⟨hfile', hcontent'⟩ := (hquiet s₁ trivial _ _ hbody).1
  rw [← hfile'] at hdir
  have hkernel : s'.kernel = (kernel.answer (.closedir dir) s₂.kernel).2 := by
    rw [call_cases hclose]
  obtain ⟨hfile'', hcontent''⟩ := h.closedir hdir
  rw [← hkernel] at hfile'' hcontent''
  exact ⟨hfile''.trans (hfile'.trans hfile),
    hcontent''.trans (hcontent'.trans hcontent)⟩

/-- The requests that are about names and attributes alone. -/
def Shallow : Request → Prop
  | .truncate _ _ => False
  | .copyFileRange _ _ _ _ _ => False
  | .open _ _ => False
  | .close _ => False
  | .read _ _ _ => False
  | .write _ _ _ => False
  | _ => True

theorem quietly_handler (h : kernel.Files view) {req : Request}
    (hreq : Shallow req) : Quietly view (handler kernel req) := by
  have hclosed := obeys_closed (ε := Errc) (quietly view)
  cases req with
  | stat path =>
      exact hclosed.bind (quietly_call h (by trivial)) fun _ => hclosed.pure _
  | listdir path buf => exact quietly_listdir h path
  | readlink path buf =>
      exact hclosed.bind (quietly_call h (by trivial)) fun _ => hclosed.pure _
  | mknod path mode dev => exact quietly_handleCall h (by trivial) _
  | mkdir path mode => exact quietly_handleCall h (by trivial) _
  | unlink path => exact quietly_handleCall h (by trivial) _
  | rmdir path => exact quietly_handleCall h (by trivial) _
  | rename source target flags =>
      apply handleRename_rule hclosed
      · exact fun _ _ _ => quietly_call h (by trivial)
      · exact fun _ _ => quietly_call h (by trivial)
      · exact fun hf s => Obeys.bind_state (hf s s)
      · exact fun s => Obeys.change (fun _ => ⟨rfl, rfl⟩) fun _ => trivial
  | utimens path atime mtime => exact quietly_handleCall h (by trivial) _
  | ping num => exact hclosed.pure _
  | _ => exact absurd hreq id

end Steps

end Server

end Rpc

end Madbfs
