/-
Round trips of the codec.  What the builders write is a header and the fields
of the payload one after the other; the parsers take exactly these fields, in
this order, and give the message back.
-/
import Madbfs.Rpc.Reader

namespace Madbfs

namespace Rpc

open Bytes NetBytes PayloadReader

/-- The bytes of a field written by `write_bytes`. -/
def bytesField (bytes : List Byte) : List Byte :=
  toNetBytes (UInt64.ofNat bytes.length) ++ bytes

/-- The bytes of a field written by `write_path`. -/
def pathField (path : List Byte) : List Byte :=
  toNetBytes (UInt64.ofNat (path.length + 1)) ++ (path ++ [0])

namespace PayloadBuilder

variable {I : Type} [Integral I] (self : PayloadBuilder)

@[simp] theorem writeInt_buffer (value : I) :
    (self.writeInt value).buffer = self.buffer ++ toNetBytes value :=
  rfl

@[simp] theorem writeOpenMode_buffer (mode : OpenMode) :
    (self.writeOpenMode mode).buffer = self.buffer ++ toNetBytes mode.value :=
  rfl

@[simp] theorem writeBytes_buffer (bytes : List Byte) :
    (self.writeBytes bytes).buffer = self.buffer ++ bytesField bytes := by
  simp [writeBytes, bytesField]

@[simp] theorem writePath_buffer (path : List Byte) :
    (self.writePath path).buffer = self.buffer ++ pathField path := by
  simp [writePath, pathField]

/-- The length is filled in between the front of the header and the
payload. -/
theorem build_eq {headerSize : Nat} (front zeros payload : List Byte)
    (hfront : front.length + 8 = headerSize) (hzeros : zeros.length = 8)
    (hbuffer : self.buffer = front ++ zeros ++ payload) :
    self.build headerSize =
      front ++ toNetBytes (UInt64.ofNat payload.length) ++ payload := by
  have hlength : self.buffer.length - headerSize = payload.length := by
    rw [hbuffer, List.length_append, List.length_append]
    omega
  have hoff : headerSize - 8 = front.length := by omega
  have hnum : (toNetBytes (UInt64.ofNat payload.length)).length = 8 :=
    length_toNetBytes _
  rw [build, hlength, hoff, overlay, if_neg (by omega), hnum, hbuffer]
  have htake : (front ++ zeros ++ payload).take front.length = front := by
    rw [List.append_assoc, List.take_left]
  have hdrop : (front ++ zeros ++ payload).drop (front.length + 8) =
      payload := by
    rw [← hzeros, ← List.length_append, List.drop_left]
  have hgap : front.length - (front ++ zeros ++ payload).length = 0 := by
    simp only [List.length_append]
    omega
  rw [htake, hdrop, hgap, List.replicate_zero, List.append_nil]

theorem build_request {id : Id} {proc : Procedure} {payload : List Byte}
    (hbuffer : self.buffer =
      (RequestBuilder.create id proc).buffer ++ payload) :
    self.build RequestBuilder.headerSize =
      toNetBytes id.inner ++ toNetBytes proc.toByte ++
        toNetBytes (UInt64.ofNat payload.length) ++ payload :=
  self.build_eq (toNetBytes id.inner ++ toNetBytes proc.toByte)
    (toNetBytes (0 : UInt64)) payload rfl (length_toNetBytes _) hbuffer

end PayloadBuilder

/-- The fields of the payload of a request. -/
def requestPayload : Request → List Byte
  | .stat path => pathField path
  | .listdir path _ => pathField path
  | .readlink path _ => pathField path
  | .mknod path mode dev => pathField path ++ toNetBytes mode ++ toNetBytes dev
  | .mkdir path mode => pathField path ++ toNetBytes mode
  | .unlink path => pathField path
  | .rmdir path => pathField path
  | .rename source target flags =>
      pathField source ++ pathField target ++ toNetBytes flags
  | .truncate path size => pathField path ++ toNetBytes size
  | .utimens path atime mtime =>
      pathField path ++ toNetBytes atime.sec ++ toNetBytes atime.nsec ++
        toNetBytes mtime.sec ++ toNetBytes mtime.nsec
  | .copyFileRange inPath inOffset outPath outOffset size =>
      pathField inPath ++ toNetBytes inOffset ++ pathField outPath ++
        toNetBytes outOffset ++ toNetBytes size
  | .open path mode => pathField path ++ toNetBytes mode.value
  | .close fd => toNetBytes fd
  | .read fd offset out =>
      toNetBytes fd ++ toNetBytes offset ++
        toNetBytes (UInt64.ofNat out.length)
  | .write fd offset input =>
      toNetBytes fd ++ toNetBytes offset ++ bytesField input
  | .ping num => toNetBytes num

theorem buildRequest_eq (req : Request) (id : Id) :
    buildRequest req id = toNetBytes id.inner ++ toNetBytes req.proc.toByte ++
      toNetBytes (UInt64.ofNat (requestPayload req).length) ++
      requestPayload req := by
  cases req <;>
    exact PayloadBuilder.build_request _ (by simp [requestPayload])

/-- The request as the server sees it: its output spans are over a buffer of
the server. -/
def Request.received (outBuf : List Byte) : Request → Request
  | .listdir path _ => .listdir path outBuf
  | .readlink path _ => .readlink path outBuf
  | .read fd offset out =>
      .read fd offset
        (if outBuf.length < out.length then resize outBuf out.length
          else outBuf.take out.length)
  | req => req

theorem Request.fields_received (outBuf : List Byte) (req : Request) :
    (req.received outBuf).fields = req.fields := by
  cases req with
  | read fd offset out =>
      simp only [received, fields]
      congr 2
      split
      · exact length_resize _ _
      · exact List.length_take_of_le (by omega)
  | _ => rfl

/-- The output span of a request is one that a buffer can have. -/
def Request.OutFits : Request → Prop
  | .read _ _ out => out.length ≤ maxSize
  | _ => True

/-- `parse_request` takes the fields of the payload. -/
theorem Takes.requestOf (outBuf : List Byte) (req : Request)
    (hout : req.OutFits) :
    Takes (requestOf outBuf req.proc) (requestPayload req)
      (req.received outBuf) := by
  cases req with
  | stat path => exact (readPath path).map Request.stat
  | listdir path buf => exact (readPath path).map (Request.listdir · outBuf)
  | readlink path buf => exact (readPath path).map (Request.readlink · outBuf)
  | mknod path mode dev =>
      rw [requestPayload, List.append_assoc]
      apply (readPath path).bind
      apply (readInt mode).bind
      exact (readInt dev).map (Request.mknod path mode)
  | mkdir path mode =>
      apply (readPath path).bind
      exact (readInt mode).map (Request.mkdir path)
  | unlink path => exact (readPath path).map Request.unlink
  | rmdir path => exact (readPath path).map Request.rmdir
  | rename source target flags =>
      rw [requestPayload, List.append_assoc]
      apply (readPath source).bind
      apply (readPath target).bind
      exact (readInt flags).map (Request.rename source target)
  | truncate path size =>
      apply (readPath path).bind
      exact (readInt size).map (Request.truncate path)
  | utimens path atime mtime =>
      simp only [requestPayload, List.append_assoc]
      apply (readPath path).bind
      apply (readInt atime.sec).bind
      apply (readInt atime.nsec).bind
      apply (readInt mtime.sec).bind
      exact (readInt mtime.nsec).map fun nsec =>
        Request.utimens path atime ⟨mtime.sec, nsec⟩
  | copyFileRange inPath inOffset outPath outOffset size =>
      simp only [requestPayload, List.append_assoc]
      apply (readPath inPath).bind
      apply (readInt inOffset).bind
      apply (readPath outPath).bind
      apply (readInt outOffset).bind
      exact (readInt size).map
        (Request.copyFileRange inPath inOffset outPath outOffset)
  | «open» path mode =>
      apply (readPath path).bind
      exact (readOpenMode mode).map (Request.open path)
  | close fd => exact (readInt fd).map Request.close
  | read fd offset out =>
      have hout : out.length ≤ maxSize := hout
      have hlt : out.length < 2 ^ 64 := Nat.lt_of_le_of_lt hout (by decide)
      have hsize : (UInt64.ofNat out.length).toNat = out.length :=
        UInt64.toNat_ofNat_of_lt' hlt
      rw [requestPayload, List.append_assoc]
      apply (readInt fd).bind
      apply (readInt offset).bind
      apply (readInt (UInt64.ofNat out.length)).last
      rw [hsize, Request.received]
      split
      · rw [if_neg (by omega)]
        exact pure _
      · exact pure _
  | write fd offset input =>
      rw [requestPayload, List.append_assoc]
      apply (readInt fd).bind
      apply (readInt offset).bind
      exact (readBytes input).map (Request.write fd offset)
  | ping num => exact (readInt num).map Request.ping

theorem receiveRequestHeader_eq (id : Id) (proc : Procedure) (size : UInt64) :
    receiveRequestHeader (toNetBytes id.inner ++ toNetBytes proc.toByte ++
      toNetBytes size) = .ok ⟨id, proc, size⟩ := by
  have htakes : Takes requestHeader (toNetBytes id.inner ++
      toNetBytes proc.toByte ++ toNetBytes size) (id, some proc, size) := by
    rw [List.append_assoc]
    apply (Takes.readId id).bind
    apply (((Takes.readProcedure proc).functor some).tryCatch _).bind
    exact (Takes.readInt size).map fun size => (id, some proc, size)
  have hheader := htakes.on_create (by
    simp only [List.length_append, length_toNetBytes]
    decide)
  rw [receiveRequestHeader, hheader]

/-- A message is a header of a fixed size and the payload. -/
theorem split_message (front payload : List Byte) {headerSize : Nat}
    (hfront : front.length = headerSize) :
    (front ++ payload).take headerSize = front ∧
      (front ++ payload).drop headerSize = payload := by
  subst hfront
  exact ⟨List.take_left, List.drop_left⟩

theorem request_roundtrip (req : Request) (id : Id) (outBuf : List Byte)
    (hsize : (buildRequest req id).length ≤ maxSize) (hout : req.OutFits) :
    (∃ size : UInt64,
      receiveRequestHeader
          ((buildRequest req id).take RequestBuilder.headerSize) =
        .ok ⟨id, req.proc, size⟩ ∧
      size.toNat =
        ((buildRequest req id).drop RequestBuilder.headerSize).length) ∧
    ∃ req',
      (parseRequest ((buildRequest req id).drop RequestBuilder.headerSize)
        outBuf req.proc).1 = .ok req' ∧
      req'.fields = req.fields := by
  have hmessage := buildRequest_eq req id
  obtain ⟨hfront, hpayload⟩ := split_message
    (toNetBytes id.inner ++ toNetBytes req.proc.toByte ++
      toNetBytes (UInt64.ofNat (requestPayload req).length))
    (requestPayload req) (rfl : _ = RequestBuilder.headerSize)
  have hle : (requestPayload req).length ≤ maxSize := by
    rw [hmessage, List.length_append] at hsize
    omega
  have hlt : (requestPayload req).length < 2 ^ 63 :=
    Nat.lt_of_le_of_lt hle (by decide)
  rw [hmessage, hfront, hpayload]
  refine ⟨⟨_, receiveRequestHeader_eq _ _ _, ?_⟩, req.received outBuf, ?_,
    req.fields_received outBuf⟩
  · exact UInt64.toNat_ofNat_of_lt' (Nat.lt_trans hlt (by decide))
  · exact (Takes.requestOf outBuf req hout).on_create hlt

theorem request_roundtrip_empty_target :
    Request.OutFits (.rename [97] [] 1) ∧
    (buildRequest (.rename [97] [] 1) ⟨7⟩).length ≤ maxSize ∧
    ∃ req',
      (parseRequest ((buildRequest (.rename [97] [] 1) ⟨7⟩).drop 13) []
        .rename).1 = .ok req' ∧
      req'.fields = .rename [97] [] 1 :=
  ⟨trivial, by decide,
    (request_roundtrip (.rename [97] [] 1) ⟨7⟩ [] (by decide) trivial).2⟩

/-- The bytes of the eleven integers of a `resp::Stat`. -/
def statField (stat : Stat) : List Byte :=
  toNetBytes stat.size ++ (toNetBytes stat.links ++
    (toNetBytes stat.mtime.sec ++ (toNetBytes stat.mtime.nsec ++
    (toNetBytes stat.atime.sec ++ (toNetBytes stat.atime.nsec ++
    (toNetBytes stat.ctime.sec ++ (toNetBytes stat.ctime.nsec ++
    (toNetBytes stat.mode ++ (toNetBytes stat.uid ++
    toNetBytes stat.gid)))))))))

def entryField (entry : List Byte × Stat) : List Byte :=
  pathField entry.1 ++ statField entry.2

namespace PayloadBuilder

variable (self : PayloadBuilder)

@[simp] theorem writeStat_buffer (stat : Stat) :
    (self.writeStat stat).buffer = self.buffer ++ statField stat := by
  simp [writeStat, statField]

@[simp] theorem writeEntries_buffer (entries : List (List Byte × Stat)) :
    (entries.foldl writeEntry self).buffer =
      self.buffer ++ entries.flatMap entryField := by
  induction entries generalizing self with
  | nil => simp
  | cons entry rest ih =>
      rw [List.foldl_cons, ih]
      simp [writeEntry, entryField]

theorem build_response {id : Id} {proc : Procedure} {status : Errc}
    {payload : List Byte}
    (hbuffer : self.buffer =
      (ResponseBuilder.create id proc status).buffer ++ payload) :
    self.build ResponseBuilder.headerSize =
      toNetBytes id.inner ++ toNetBytes proc.toByte ++
        toNetBytes (Int32.ofInt status.code) ++
        toNetBytes (UInt64.ofNat payload.length) ++ payload :=
  self.build_eq (toNetBytes id.inner ++ toNetBytes proc.toByte ++
      toNetBytes (Int32.ofInt status.code))
    (toNetBytes (0 : UInt64)) payload rfl (length_toNetBytes _) hbuffer

end PayloadBuilder

/-- The fields of the payload of a response. -/
def responsePayload : Response (List Byte) → List Byte
  | .stat stat => statField stat
  | .listdir entries =>
      toNetBytes (UInt64.ofNat entries.length) ++ entries.flatMap entryField
  | .readlink target => pathField target
  | .copyFileRange size => toNetBytes size
  | .open fd => toNetBytes fd
  | .read bytes => bytesField bytes
  | .write size => toNetBytes size
  | .ping num => toNetBytes num
  | _ => []

def FallibleResponse.status : FallibleResponse → Errc
  | .success _ => ⟨0⟩
  | .failed _ status => status

def FallibleResponse.payload : FallibleResponse → List Byte
  | .success resp => responsePayload resp
  | .failed _ _ => []

theorem buildResponse_eq (response : FallibleResponse) (id : Id) :
    buildResponse response id = toNetBytes id.inner ++
      toNetBytes response.proc.toByte ++
      toNetBytes (Int32.ofInt response.status.code) ++
      toNetBytes (UInt64.ofNat response.payload.length) ++
      response.payload := by
  cases response with
  | failed proc status =>
      exact PayloadBuilder.build_response _
        (by simp [FallibleResponse.proc, FallibleResponse.status,
          FallibleResponse.payload])
  | success resp =>
      cases resp <;>
        exact PayloadBuilder.build_response _
          (by simp [FallibleResponse.proc, FallibleResponse.status,
            FallibleResponse.payload, responsePayload])

/-- Where `parse_response` puts the names of a directory, from an offset
on. -/
def nameSlices : Nat → List (List Byte × Stat) → List (Slice × Stat)
  | _, [] => []
  | off, (name, stat) :: rest =>
      (⟨off, name.length⟩, stat) :: nameSlices (off + name.length + 1) rest

/-- The names of a directory, each followed by a null byte. -/
def nameBuffer (entries : List (List Byte × Stat)) : List Byte :=
  entries.flatMap fun entry => entry.1 ++ [0]

theorem view_nameSlices (front : List Byte)
    (entries : List (List Byte × Stat)) :
    (nameSlices front.length entries).map
        (fun e => (e.1.view (front ++ nameBuffer entries), e.2)) =
      entries := by
  induction entries generalizing front with
  | nil => rfl
  | cons entry rest ih =>
      obtain ⟨name, stat⟩ := entry
      have hbuffer : front ++ nameBuffer ((name, stat) :: rest) =
          (front ++ name ++ [0]) ++ nameBuffer rest := by
        simp [nameBuffer]
      have hlength : front.length + name.length + 1 =
          (front ++ name ++ [0]).length := by
        simp [Nat.add_assoc]
      have hview : (Slice.mk front.length name.length).view
          (front ++ nameBuffer ((name, stat) :: rest)) = name := by
        simp [Slice.view, slice, nameBuffer]
      rw [nameSlices, List.map_cons, hview, hbuffer, hlength, ih]

namespace Takes

theorem readStat (stat : Stat) :
    Takes Rpc.readStat (statField stat) stat := by
  apply (readInt stat.size).bind
  apply (readInt stat.links).bind
  apply (readInt stat.mtime.sec).bind
  apply (readInt stat.mtime.nsec).bind
  apply (readInt stat.atime.sec).bind
  apply (readInt stat.atime.nsec).bind
  apply (readInt stat.ctime.sec).bind
  apply (readInt stat.ctime.nsec).bind
  apply (readInt stat.mode).bind
  apply (readInt stat.uid).bind
  exact (readInt stat.gid).map fun gid => { stat with gid := gid }

/-- The loop over the entries, from any buffer and any slices on. -/
theorem readEntries (entries : List (List Byte × Stat)) (buf : List Byte)
    (slices : List (Slice × Stat)) :
    Takes (Rpc.readEntries entries.length buf slices)
      (entries.flatMap entryField)
      (buf ++ nameBuffer entries, slices ++ nameSlices buf.length entries) := by
  induction entries generalizing buf slices with
  | nil =>
      simpa [Rpc.readEntries, nameBuffer, nameSlices] using pure (buf, slices)
  | cons entry rest ih =>
      obtain ⟨name, stat⟩ := entry
      have hrest := ih (buf ++ name ++ [0])
        (slices ++ [(⟨buf.length, name.length⟩, stat)])
      have hbuf : buf ++ name ++ [0] ++ nameBuffer rest =
          buf ++ nameBuffer ((name, stat) :: rest) := by
        simp [nameBuffer]
      have hslices : slices ++ [(⟨buf.length, name.length⟩, stat)] ++
            nameSlices (buf ++ name ++ [0]).length rest =
          slices ++ nameSlices buf.length ((name, stat) :: rest) := by
        simp [nameSlices, Nat.add_assoc]
      rw [hbuf, hslices] at hrest
      rw [List.flatMap_cons, entryField, List.append_assoc]
      apply (readPath name).bind
      apply (readStat stat).bind
      exact hrest

end Takes

/-- The span a request gives for the bytes of `read`. -/
def Request.out : Request → List Byte
  | .read _ _ out => out
  | _ => []

/-- The response as the client sees it, and the buffer of the request that its
views point into. -/
def Response.received (req : Request) :
    Response (List Byte) → Response Slice × List Byte
  | .listdir entries => (.listdir (nameSlices 0 entries), nameBuffer entries)
  | .readlink target => (.readlink ⟨0, target.length⟩, target)
  | .read bytes => (.read ⟨0, bytes.length⟩, overlay req.out 0 bytes)
  | resp => (resp.map fun _ => default, [])

/-- The entries fit into a vector, and the bytes read into the span of the
request. -/
def Response.Fits (req : Request) : Response (List Byte) → Prop
  | .listdir entries => entries.length ≤ maxEntries
  | .read bytes => bytes.length ≤ req.out.length
  | _ => True

theorem Response.view_received {req : Request} {resp : Response (List Byte)}
    (hfits : resp.Fits req) :
    (resp.received req).1.map (Slice.view (resp.received req).2) = resp := by
  cases resp with
  | listdir entries => exact congrArg _ (view_nameSlices [] entries)
  | readlink target =>
      exact congrArg Response.readlink (List.take_length)
  | read bytes =>
      have hfits : bytes.length ≤ req.out.length := hfits
      have hslice : slice (overlay req.out 0 bytes) 0 bytes.length = bytes := by
        symm
        apply slice_eq_of_valueAt
        · rw [length_overlay_of_le (by omega)]
          omega
        · intro pos hpos
          rw [valueAt_overlay, if_pos (by omega)]
          congr 1
          omega
      exact congrArg Response.read hslice
  | _ => rfl

/-- `parse_response` takes the fields of the payload. -/
theorem Takes.responseOf {req : Request} {resp : Response (List Byte)}
    (hproc : resp.proc = req.proc) (hfits : resp.Fits req) :
    Takes (responseOf req) (responsePayload resp) (resp.received req) := by
  cases req <;> cases resp <;> cases hproc
  case stat.stat path stat =>
      exact (readStat stat).map fun stat => (Response.stat stat, [])
  case listdir.listdir path buf entries =>
      have hfits : entries.length ≤ maxEntries := hfits
      have hlt : entries.length < 2 ^ 64 := Nat.lt_of_le_of_lt hfits (by decide)
      have hsize : (UInt64.ofNat entries.length).toNat = entries.length :=
        UInt64.toNat_ofNat_of_lt' hlt
      apply (readInt (UInt64.ofNat entries.length)).bind
      rw [hsize, if_neg (by omega)]
      exact (readEntries entries [] []).map fun x => (Response.listdir x.2, x.1)
  case readlink.readlink path buf target =>
      exact (readPath target).map fun path =>
        (Response.readlink (Slice.mk 0 path.length), path)
  case copyFileRange.copyFileRange size =>
      exact (readInt size).map fun size => (Response.copyFileRange size, [])
  case open.open fd =>
      exact (readInt fd).map fun fd => (Response.open fd, [])
  case read.read fd offset out bytes =>
      have hfits : bytes.length ≤ out.length := hfits
      have hmin : min bytes.length out.length = bytes.length := by omega
      have hmap := (readBytes bytes).map fun bytes =>
        (Response.read (Slice.mk 0 (min bytes.length out.length)),
          overlay out 0 (bytes.take (min bytes.length out.length)))
      rw [hmin, List.take_length] at hmap
      exact hmap
  case write.write size =>
      exact (readInt size).map fun size => (Response.write size, [])
  case ping.ping num =>
      exact (readInt num).map fun num => (Response.ping num, [])
  all_goals exact pure _

theorem response_roundtrip (req : Request) (resp : Response (List Byte))
    (id : Id) (hproc : resp.proc = req.proc)
    (hsize : (buildResponse (.success resp) id).length ≤ maxSize)
    (hfits : resp.Fits req) :
    ∃ resp' buf,
      (parseResponse ((buildResponse (.success resp) id).drop
        ResponseBuilder.headerSize) req).1 = .ok (resp', buf) ∧
      resp'.map (Slice.view buf) = resp ∧
      ∀ entries, resp = .listdir entries →
        resp' = .listdir (nameSlices 0 entries) ∧ buf = nameBuffer entries := by
  have hmessage := buildResponse_eq (.success resp) id
  obtain ⟨-, hpayload⟩ := split_message
    (toNetBytes id.inner ++ toNetBytes resp.proc.toByte ++
      toNetBytes (Int32.ofInt 0) ++
      toNetBytes (UInt64.ofNat (responsePayload resp).length))
    (responsePayload resp) (rfl : _ = ResponseBuilder.headerSize)
  have hdrop : (buildResponse (.success resp) id).drop
      ResponseBuilder.headerSize = responsePayload resp := by
    rw [hmessage]
    exact hpayload
  have hle : (responsePayload resp).length ≤ maxSize := by
    rw [← hdrop, List.length_drop]
    omega
  have htakes := (Takes.responseOf hproc hfits).on_create
    (Nat.lt_of_le_of_lt hle (by decide))
  refine ⟨(resp.received req).1, (resp.received req).2, ?_,
    Response.view_received hfits, ?_⟩
  · rw [hdrop]
    exact htakes
  · rintro entries rfl
    exact ⟨rfl, rfl⟩

theorem response_roundtrip_two_names :
    ∃ resp' buf,
      (parseResponse ((buildResponse (.success (.listdir
        [([97], default), ([], default)])) ⟨7⟩).drop 17)
        (.listdir [47] [1])).1 = .ok (resp', buf) ∧
      resp'.map (Slice.view buf) =
        .listdir [([97], default), ([], default)] := by
  obtain ⟨resp', buf, hparse, hview, -⟩ := response_roundtrip
    (.listdir [47] [1]) (.listdir [([97], default), ([], default)]) ⟨7⟩ rfl
    (by decide +kernel) (by decide : (2 : Nat) ≤ maxEntries)
  exact ⟨resp', buf, hparse, hview⟩

end Rpc

end Madbfs
