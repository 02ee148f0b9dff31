/-
The two ways to read a file.  `AdbTransport` runs `dd` on the device; the
server seeks and reads, and its response goes over the wire.  Both put the
bytes of the file at the start of the caller's buffer, but the first one
reports the whole buffer as read.
-/
import Madbfs.Rpc.Framing

namespace Madbfs

namespace Rpc

open Bytes NetBytes

/-- What `Connection::read` leaves its caller with: the count it returns, and
the buffer. -/
structure ReadAnswer where
  count : Nat
  buffer : List Byte
deriving Repr, DecidableEq

/-- `Connection::read`, on what the transport returned.  A response of another
procedure is refused in `Transport::send_req`. -/
def Connection.read : Except Errc (Response Slice × List Byte) →
    Except Errc ReadAnswer
  | .ok (.read view, buf) => .ok ⟨view.size, buf⟩
  | .ok _ => .error Errc.badMessage
  | .error err => .error err

/-- The answer that a read is to have: what the file has at the offset is at
the start of the buffer, and is counted. -/
def ReadAnswer.ofFile (file : List Byte) (offset : Nat) (out : List Byte) :
    ReadAnswer :=
  let bytes := slice file offset out.length
  ⟨bytes.length, overlay out 0 bytes⟩

namespace AdbTransport

/-- The command of a read. -/
def ddCommand (path : String) (offset : Int64) (count : Nat) : List String :=
  ["adb", "shell", "dd", "iflag=skip_bytes,count_bytes",
    "skip=" ++ toString offset, "count=" ++ toString count,
    "if=\"" ++ path ++ "\""]

/-- `Handler::handle_req` for `Read`.  `exec` is `cmd::exec`, with what the
command prints, and `fdMap` is `m_fd_map`. -/
def handleRead (exec : List String → Except Errc (List Byte))
    (fdMap : List (UInt64 × String)) (fd : UInt64) (offset : Int64)
    (out : List Byte) : Except Errc (Response Slice × List Byte) :=
  match fdMap.lookup fd with
  | none => .error Errc.badFileDescriptor
  | some path =>
      (exec (ddCommand path offset out.length)).map fun str =>
        let size := min str.length out.length
        let out := overlay out 0 (str.take size)
        (.read ⟨0, out.length⟩, out)

end AdbTransport

/-- The system calls of the server on the open files, with the errors that
`errno` has. -/
structure Sys (κ : Type) where
  lseek : κ → Int32 → Int64 → Except Errc κ
  read : κ → Int32 → Nat → Except Errc (List Byte)

/-- `RequestHandler::handle_req` for `Read`. -/
def RequestHandler.handleRead {κ : Type} (sys : Sys κ) (files : κ)
    (fd : UInt64) (offset : Int64) (out : List Byte) : FallibleResponse :=
  match sys.lseek files fd.toUInt32.toInt32 offset with
  | .error status => .failed .read status
  | .ok files =>
      match sys.read files fd.toUInt32.toInt32 out.length with
      | .error status => .failed .read status
      | .ok bytes => .success (.read bytes)

/-- `ProxyTransport::send`, on the response of the server: it is written to
the socket and taken from it again, with the request that waits for it. -/
def ProxyTransport.receive (response : FallibleResponse) (id : Id)
    (req : Request) : Except Errc (Response Slice × List Byte) :=
  match responseReceive (fun i => if i = id then some req else none)
      (buildResponse response id) with
  | some (.set _ (.response resp buf), _) => .ok (resp, buf)
  | some (.set _ (.failed status), _) => .error status
  | _ => .error Errc.operationCanceled

section Agreement

variable {file out : List Byte} {offset : Int64} {fd : UInt64} {id : Id}

/-- A response to a request arrives as it was sent. -/
theorem ProxyTransport.receive_success {resp : Response (List Byte)}
    {req : Request} (hproc : resp.proc = req.proc)
    (hsize : (buildResponse (.success resp) id).length ≤ maxSize)
    (hfits : resp.Fits req) :
    ProxyTransport.receive (.success resp) id req =
      .ok (resp.received req) := by
  have hmessage := buildResponse_eq (.success resp) id
  have hle : (responsePayload resp).length ≤ maxSize := by
    rw [hmessage, List.length_append] at hsize
    exact Nat.le_trans (Nat.le_add_left _ _) hsize
  have hlength : (UInt64.ofNat (responsePayload resp).length).toNat =
      (responsePayload resp).length :=
    UInt64.toNat_ofNat_of_lt' (Nat.lt_of_le_of_lt hle (by decide))
  have hparse : (parseResponse (responsePayload resp) req).1 =
      .ok (resp.received req) :=
    (Takes.responseOf hproc hfits).on_create
      (Nat.lt_of_le_of_lt hle (by decide))
  have hreceive : responseReceive (fun i => if i = id then some req else none)
      (buildResponse (.success resp) id) =
        some (.set id (.response (resp.received req).1
          (resp.received req).2), []) := by
    have hheader : (toNetBytes id.inner ++ toNetBytes resp.proc.toByte ++
        toNetBytes (Int32.ofInt (⟨0⟩ : Errc).code) ++
        toNetBytes (UInt64.ofNat (responsePayload resp).length)).length =
          ResponseBuilder.headerSize :=
      rfl
    have hstatus : narrowStatus ⟨0⟩ = ⟨0⟩ := by decide
    have hpayload : readExact (responsePayload resp).length
        (responsePayload resp) = some (responsePayload resp, []) := by
      rw [readExact, if_pos (Nat.le_refl _), List.take_length,
        List.drop_length]
    rw [hmessage]
    change responseReceive _ (toNetBytes id.inner ++
      toNetBytes resp.proc.toByte ++ toNetBytes (Int32.ofInt (⟨0⟩ : Errc).code) ++
      toNetBytes (UInt64.ofNat (responsePayload resp).length) ++
      responsePayload resp) = _
    rw [responseReceive, Text.bind_on, readExact_append _ _ hheader,
      Option.bind_some]
    dsimp only
    rw [receiveResponseHeader_eq]
    dsimp only
    rw [if_pos rfl]
    dsimp only
    rw [Text.bind_on, receiveResponse]
    dsimp only
    rw [hstatus, if_neg (not_not_intro rfl), if_neg (not_not_intro hproc),
      hlength, if_neg (Nat.not_lt_of_le hle), Text.bind_on, hpayload,
      Option.bind_some]
    dsimp only
    rw [hparse]
    rfl
  rw [ProxyTransport.receive, hreceive]

/-- The server reads what the file has. -/
theorem ProxyTransport.read_eq {κ : Type} {sys : Sys κ} {files files' : κ}
    {buf : List Byte} (hbuf : buf.length = out.length)
    (hseek : sys.lseek files fd.toUInt32.toInt32 offset = .ok files')
    (hread : sys.read files' fd.toUInt32.toInt32 out.length =
      .ok (slice file offset.toInt.toNat out.length))
    (hsize : ResponseBuilder.headerSize + 8 + out.length ≤ maxSize) :
    Connection.read (ProxyTransport.receive
      (RequestHandler.handleRead sys files fd offset buf) id
      (.read fd offset out)) =
        .ok (.ofFile file offset.toInt.toNat out) := by
  set bytes := slice file offset.toInt.toNat out.length with hbytes
  have hhandle : RequestHandler.handleRead sys files fd offset buf =
      .success (.read bytes) := by
    rw [RequestHandler.handleRead, hseek]
    dsimp only
    rw [hbuf, hread]
  have hfits : (Response.read bytes).Fits (.read fd offset out) := by
    change bytes.length ≤ out.length
    rw [hbytes, length_slice]
    exact Nat.min_le_left _ _
  have hlength : (buildResponse (.success (.read bytes)) id).length ≤
      maxSize := by
    have hle : bytes.length ≤ out.length := hfits
    have hpayload : (bytesField bytes).length = 8 + bytes.length := by
      rw [bytesField, List.length_append, length_toNetBytes]
      rfl
    have hmessage : (buildResponse (.success (.read bytes)) id).length =
        ResponseBuilder.headerSize + (8 + bytes.length) := by
      rw [buildResponse_eq, List.length_append]
      exact congrArg (ResponseBuilder.headerSize + ·) hpayload
    omega
  have hreceive : ProxyTransport.receive (.success (.read bytes)) id
      (.read fd offset out) = _ :=
    ProxyTransport.receive_success rfl hlength hfits
  rw [hhandle, hreceive]
  rfl

/-- `dd` prints what the file has; all of the buffer is reported. -/
theorem AdbTransport.read_eq {exec : List String → Except Errc (List Byte)}
    {fdMap : List (UInt64 × String)} {path : String}
    (hpath : fdMap.lookup fd = some path)
    (hdd : exec (ddCommand path offset out.length) =
      .ok (slice file offset.toInt.toNat out.length)) :
    Connection.read (AdbTransport.handleRead exec fdMap fd offset out) =
      .ok { ReadAnswer.ofFile file offset.toInt.toNat out with
        count := out.length } := by
  set bytes := slice file offset.toInt.toNat out.length with hbytes
  have hle : bytes.length ≤ out.length := by
    rw [hbytes, length_slice]
    exact Nat.min_le_left _ _
  have hhandle : AdbTransport.handleRead exec fdMap fd offset out =
      .ok (.read ⟨0, out.length⟩, overlay out 0 bytes) := by
    rw [AdbTransport.handleRead, hpath]
    dsimp only
    rw [hdd]
    change Except.ok (Response.read (Slice.mk 0 (overlay out 0
      (bytes.take (min bytes.length out.length))).length), overlay out 0
      (bytes.take (min bytes.length out.length))) = _
    rw [Nat.min_eq_left hle, List.take_length,
      length_overlay_of_le (by rw [Nat.zero_add]; exact hle)]
  rw [hhandle]
  rfl

/-- The two transports give the caller the same answer, the one it is to have,
if and only if the read is empty or ends within the file. -/
theorem reads_agree_iff {κ : Type} {sys : Sys κ} {files files' : κ}
    {exec : List String → Except Errc (List Byte)}
    {fdMap : List (UInt64 × String)} {path : String} {fd' : UInt64}
    {buf : List Byte} (hbuf : buf.length = out.length)
    (hseek : sys.lseek files fd.toUInt32.toInt32 offset = .ok files')
    (hread : sys.read files' fd.toUInt32.toInt32 out.length =
      .ok (slice file offset.toInt.toNat out.length))
    (hsize : ResponseBuilder.headerSize + 8 + out.length ≤ maxSize)
    (hpath : fdMap.lookup fd' = some path)
    (hdd : exec (AdbTransport.ddCommand path offset out.length) =
      .ok (slice file offset.toInt.toNat out.length)) :
    (Connection.read (AdbTransport.handleRead exec fdMap fd' offset out) =
        .ok (.ofFile file offset.toInt.toNat out) ∧
      Connection.read (ProxyTransport.receive
        (RequestHandler.handleRead sys files fd offset buf) id
        (.read fd offset out)) = .ok (.ofFile file offset.toInt.toNat out)) ↔
      out.length = 0 ∨ offset.toInt.toNat + out.length ≤ file.length := by
  rw [AdbTransport.read_eq hpath hdd,
    ProxyTransport.read_eq hbuf hseek hread hsize]
  have hcount : (ReadAnswer.ofFile file offset.toInt.toNat out).count =
      min out.length (file.length - offset.toInt.toNat) :=
    length_slice _ _ _
  constructor
  · rintro ⟨hadb, -⟩
    have hlength : out.length = _ :=
      congrArg ReadAnswer.count (Except.ok.inj hadb)
    rw [hcount] at hlength
    omega
  · intro hwithin
    have hlength : (ReadAnswer.ofFile file offset.toInt.toNat out).count =
        out.length := by
      rw [hcount]
      omega
    rw [← hlength]
    exact ⟨rfl, rfl⟩

/-- A device with one file, which has one byte. -/
def ddOneByte (args : List String) : Except Errc (List Byte) :=
  if args = AdbTransport.ddCommand "/f" 0 1 then .ok [7]
  else if args = AdbTransport.ddCommand "/f" 0 2 then .ok [7]
  else .error Errc.ioError

/-- The calls on a file of one byte.  Its state is the position. -/
def sysOneByte : Sys Nat where
  lseek := fun _ _ offset => .ok offset.toInt.toNat
  read := fun pos _ count => .ok (slice [7] pos count)

theorem reads_agree_iff_one_byte :
    Connection.read (AdbTransport.handleRead ddOneByte [(3, "/f")] 3 0 [0]) =
        .ok ⟨1, [7]⟩ ∧
      Connection.read (ProxyTransport.receive
        (RequestHandler.handleRead sysOneByte 0 3 0 [1]) ⟨0⟩
        (.read 3 0 [0])) = .ok ⟨1, [7]⟩ := by
  have hwithin : ([0] : List Byte).length = 0 ∨
      (0 : Int64).toInt.toNat + ([0] : List Byte).length ≤
        ([7] : List Byte).length := by
    decide
  have hiff : (Connection.read (AdbTransport.handleRead ddOneByte
      [(3, "/f")] 3 0 [0]) = .ok (.ofFile [7] (0 : Int64).toInt.toNat [0]) ∧
      Connection.read (ProxyTransport.receive
        (RequestHandler.handleRead sysOneByte 0 3 0 [1]) ⟨0⟩
        (.read 3 0 [0])) = .ok (.ofFile [7] (0 : Int64).toInt.toNat [0])) ↔ _ :=
    reads_agree_iff rfl rfl rfl (by decide) rfl rfl
  exact hiff.mpr hwithin

/-- A read of two bytes of a file that has one is reported as two bytes. -/
theorem adb_read_past_end :
    ddOneByte (AdbTransport.ddCommand "/f" 0 2) = .ok (slice [7] 0 2) ∧
      Connection.read (AdbTransport.handleRead ddOneByte [(3, "/f")] 3 0
        [0, 0]) = .ok ⟨2, [7, 0]⟩ ∧
      Connection.read (AdbTransport.handleRead ddOneByte [(3, "/f")] 3 0
        [0, 0]) ≠ .ok (.ofFile [7] 0 [0, 0]) := by
  refine ⟨rfl, rfl, fun h => ?_⟩
  have hcount : (2 : Nat) = 1 := congrArg ReadAnswer.count (Except.ok.inj h)
  cases hcount

end Agreement

end Rpc

end Madbfs
