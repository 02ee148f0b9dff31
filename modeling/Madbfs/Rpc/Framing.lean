/-
Framing of the responses on the socket of a client.  One iteration of
`ProxyTransport::response_receive` reads a header, looks the request up, and
takes the payload from the same byte stream.  The message is consumed whole
exactly when its payload is empty or its id stands for a request of the same
procedure; otherwise the payload is left in front of the next header.
-/
import Madbfs.Rpc.RoundTrip

namespace Madbfs

namespace Rpc

open Bytes NetBytes PayloadReader

/-- Text that reads from a socket, on the bytes that have arrived.  It has no
outcome while it waits for more of them. -/
abbrev Text (α : Type) : Type :=
  StateT (List Byte) Option α

theorem Text.bind_on {α β : Type} (m : Text α) (k : α → Text β)
    (stream : List Byte) :
    (m >>= k) stream = (m stream).bind fun x => k x.1 x.2 :=
  rfl

/-- `async::read_exact`. -/
def readExact (size : Nat) : Text (List Byte) := fun stream =>
  if size ≤ stream.length then some (stream.take size, stream.drop size)
  else none

/-- `async::discard`: reads of at most 1024 bytes until nothing is left. -/
def discard (size : Nat) : Text Unit :=
  if size = 0 then pure ()
  else do
    let _ ← readExact (min 1024 size)
    discard (size - min 1024 size)
termination_by size

/-- `std::ignore = text`.  An awaitable starts when it is awaited; one that is
not is destroyed before its first step. -/
def ignore {α : Type} (_ : Text α) : Text Unit :=
  pure ()

/-- What `receive_response` ends with: a response with the buffer of its
request, an error, or an exception. -/
inductive Received where
  | response (resp : Response Slice) (buf : List Byte)
  | failed (status : Errc)
  | raised (stop : Stop)
deriving Repr, DecidableEq

/-- `receive_response`. -/
def receiveResponse (header : ResponseHeader) (req : Request) :
    Text Received :=
  if header.status ≠ ⟨0⟩ then return .failed header.status
  else if header.proc ≠ req.proc then return .failed Errc.badMessage
  else if maxSize < header.size.toNat then return .raised .lengthError
  else do
    let buffer ← readExact header.size.toNat
    match (parseResponse buffer req).1 with
    | .ok (resp, buf) => return .response resp buf
    | .error .nullopt => return .failed Errc.badMessage
    | .error stop => return .raised stop

/-- What an iteration of `response_receive` does: it ends the loop, drops a
response that nobody waits for, or sets a promise. -/
inductive Handled where
  | ended (status : Errc)
  | unknown (id : Id)
  | set (id : Id) (result : Received)
deriving Repr, DecidableEq

/-- One iteration of `response_receive`.  `requests` is what `m_requests`
holds when the header has arrived. -/
def responseReceive (requests : Id → Option Request) : Text Handled := do
  let header ← readExact ResponseBuilder.headerSize
  match receiveResponseHeader header with
  | .error status => return .ended status
  | .ok header =>
      match requests header.id with
      | none => do
          ignore (discard header.size.toNat)
          return .unknown header.id
      | some req => do
          let result ← receiveResponse header req
          return .set header.id result

/-- The loop goes on after this iteration. -/
def Handled.continues : Handled → Bool
  | .ended _ => false
  | .unknown _ => true
  | .set _ (.raised _) => false
  | .set _ _ => true

/-- The bytes in front of each header that `response_receive` reads, with the
table of each iteration. -/
def headerStreams : List (Id → Option Request) → List Byte → List (List Byte)
  | [], stream => [stream]
  | requests :: rest, stream =>
      stream :: match responseReceive requests stream with
        | some (handled, stream') =>
            if handled.continues then headerStreams rest stream' else []
        | none => []

/-- A response on the socket, and the table when its header has arrived. -/
structure Arrival where
  response : FallibleResponse
  id : Id
  requests : Id → Option Request

namespace Arrival

def message (a : Arrival) : List Byte :=
  buildResponse a.response a.id

/-- There is nothing after the header, or somebody who waits for this response
and reads it. -/
def Expected (a : Arrival) : Prop :=
  a.response.payload = [] ∨
    ∃ req, a.requests a.id = some req ∧ req.proc = a.response.proc

/-- The iteration for this message leaves what follows it. -/
def Framed (a : Arrival) : Prop :=
  ∀ rest, ∃ handled,
    responseReceive a.requests (a.message ++ rest) = some (handled, rest)

end Arrival

theorem readExact_append (front rest : List Byte) {size : Nat}
    (hsize : front.length = size) :
    readExact size (front ++ rest) = some (front, rest) := by
  subst hsize
  rw [readExact, if_pos (by simp), List.take_left, List.drop_left]

theorem discard_append (front rest : List Byte) :
    discard front.length (front ++ rest) = some ((), rest) := by
  generalize hsize : front.length = size
  induction size using Nat.strong_induction_on generalizing front with
  | h size ih =>
      rw [discard]
      split_ifs with hzero
      · obtain rfl := List.eq_nil_of_length_eq_zero (hsize.trans hzero)
        rfl
      · have hchunk : (front.take (min 1024 size)).length = min 1024 size := by
          rw [List.length_take]
          omega
        have hdrop : (front.drop (min 1024 size)).length =
            size - min 1024 size := by
          rw [List.length_drop, hsize]
        have hread := readExact_append (front.take (min 1024 size))
          (front.drop (min 1024 size) ++ rest) hchunk
        rw [← List.append_assoc, List.take_append_drop] at hread
        rw [Text.bind_on, hread, Option.bind_some]
        exact ih _ (by omega) _ hdrop

/-- The status of a header, which `read_status` narrows. -/
def narrowStatus (status : Errc) : Errc :=
  ⟨(Int32.ofInt status.code).toUInt32.toUInt8.toNat⟩

/-- The low byte of the status is what is left of it. -/
theorem narrowStatus_eq (status : Errc) :
    narrowStatus status = ⟨status.code % 256⟩ := by
  have hbits : (Int32.ofInt status.code).toUInt32.toNat =
      (status.code % 2 ^ 32).toNat :=
    BitVec.toNat_ofInt status.code
  simp only [narrowStatus, Errc.mk.injEq, UInt32.toNat_toUInt8, hbits]
  omega

theorem receiveResponseHeader_eq (id : Id) (proc : Procedure) (status : Errc)
    (size : UInt64) :
    receiveResponseHeader (toNetBytes id.inner ++ toNetBytes proc.toByte ++
      toNetBytes (Int32.ofInt status.code) ++ toNetBytes size) =
      .ok ⟨id, proc, narrowStatus status, size⟩ := by
  have htakes : Takes responseHeader (toNetBytes id.inner ++
      toNetBytes proc.toByte ++ toNetBytes (Int32.ofInt status.code) ++
      toNetBytes size) (id, some proc, narrowStatus status, size) := by
    simp only [List.append_assoc]
    apply (Takes.readId id).bind
    apply (((Takes.readProcedure proc).functor some).tryCatch _).bind
    apply Takes.bind (a := narrowStatus status)
    · exact (Takes.readInt (Int32.ofInt status.code)).map _
    · exact (Takes.readInt size).map fun size =>
        (id, some proc, narrowStatus status, size)
  have hheader := htakes.on_create (by
    simp only [List.length_append, length_toNetBytes]
    decide)
  rw [receiveResponseHeader, hheader]

/-- The header of a response, as it is received: only the status can be
another one. -/
theorem receiveResponseHeader_message (response : FallibleResponse) (id : Id) :
    receiveResponseHeader
        ((buildResponse response id).take ResponseBuilder.headerSize) =
      .ok ⟨id, response.proc, narrowStatus response.status,
        UInt64.ofNat response.payload.length⟩ ∧
    (buildResponse response id).drop ResponseBuilder.headerSize =
      response.payload := by
  obtain ⟨hfront, hpayload⟩ := split_message
    (toNetBytes id.inner ++ toNetBytes response.proc.toByte ++
      toNetBytes (Int32.ofInt response.status.code) ++
      toNetBytes (UInt64.ofNat response.payload.length))
    response.payload (rfl : _ = ResponseBuilder.headerSize)
  rw [buildResponse_eq, hfront, hpayload]
  exact ⟨receiveResponseHeader_eq _ _ _ _, rfl⟩

/-- A header is received as it was sent exactly when its status is one byte. -/
theorem response_header_roundtrip_iff (response : FallibleResponse) (id : Id)
    (hrange : -2 ^ 31 ≤ response.status.code ∧ response.status.code < 2 ^ 31)
    (hsize : (buildResponse response id).length ≤ maxSize) :
    (∃ size : UInt64,
      receiveResponseHeader
          ((buildResponse response id).take ResponseBuilder.headerSize) =
        .ok ⟨id, response.proc, response.status, size⟩ ∧
      size.toNat =
        ((buildResponse response id).drop ResponseBuilder.headerSize).length) ↔
      0 ≤ response.status.code ∧ response.status.code < 256 := by
  obtain ⟨hheader, hpayload⟩ := receiveResponseHeader_message response id
  rw [hheader, hpayload, narrowStatus_eq]
  constructor
  · rintro ⟨size, hsame, -⟩
    have hstatus : response.status.code % 256 = response.status.code := by
      simp only [Except.ok.injEq, ResponseHeader.mk.injEq] at hsame
      exact congrArg Errc.code hsame.2.2.1
    omega
  · intro hbyte
    have hstatus : response.status.code % 256 = response.status.code := by
      omega
    have hlt : response.payload.length < 2 ^ 64 := by
      have hmax : maxSize < 2 ^ 64 := by decide
      have hlength := congrArg List.length hpayload
      rw [List.length_drop] at hlength
      omega
    rw [hstatus]
    exact ⟨_, rfl, UInt64.toNat_ofNat_of_lt' hlt⟩

/-- An `ENOENT` goes through. -/
theorem response_header_roundtrip_iff_errno :
    receiveResponseHeader ((buildResponse
        (.failed .stat Errc.noSuchFileOrDirectory) ⟨7⟩).take 17) =
      .ok ⟨⟨7⟩, .stat, Errc.noSuchFileOrDirectory, 0⟩ := by
  obtain ⟨size, hheader, hlength⟩ := (response_header_roundtrip_iff
    (.failed .stat Errc.noSuchFileOrDirectory) ⟨7⟩ (by decide)
    (by decide)).mpr (by decide)
  have hzero : size = 0 := UInt64.toNat_inj.mp hlength
  rw [hzero] at hheader
  exact hheader

/-- A failure with the status 256 is received as a success. -/
theorem failure_received_as_success :
    receiveResponseHeader ((buildResponse (.failed .read ⟨256⟩) ⟨7⟩).take
        ResponseBuilder.headerSize) =
      .ok ⟨⟨7⟩, .read, ⟨0⟩, 0⟩ ∧
    ¬ ∃ size : UInt64,
      receiveResponseHeader ((buildResponse (.failed .read ⟨256⟩) ⟨7⟩).take
          ResponseBuilder.headerSize) =
        .ok ⟨⟨7⟩, .read, ⟨256⟩, size⟩ := by
  have hheader : receiveResponseHeader ((buildResponse
      (.failed .read ⟨256⟩) ⟨7⟩).take ResponseBuilder.headerSize) =
        .ok ⟨⟨7⟩, .read, ⟨0⟩, 0⟩ := by
    decide +kernel
  refine ⟨hheader, ?_⟩
  rintro ⟨size, hsame⟩
  rw [hheader] at hsame
  cases hsame

/-- The bytes of a response that `receive_response` reads, if any. -/
theorem receiveResponse_on (header : ResponseHeader) (req : Request)
    {payload : List Byte} (rest : List Byte)
    (hsize : header.size.toNat = payload.length)
    (hfits : payload.length ≤ maxSize) :
    ∃ result, receiveResponse header req (payload ++ rest) =
      some (result,
        if header.status = ⟨0⟩ ∧ req.proc = header.proc then rest
        else payload ++ rest) := by
  rw [receiveResponse]
  by_cases hstatus : header.status = ⟨0⟩
  · by_cases hproc : header.proc = req.proc
    · rw [if_neg (not_not_intro hstatus), if_neg (not_not_intro hproc),
        if_neg (by omega), if_pos ⟨hstatus, hproc.symm⟩]
      rw [Text.bind_on, readExact_append payload rest hsize.symm,
        Option.bind_some]
      dsimp only
      rcases (parseResponse payload req).1 with stop | ⟨resp, buf⟩
      · cases stop <;> exact ⟨_, rfl⟩
      · exact ⟨_, rfl⟩
    · rw [if_neg (not_not_intro hstatus), if_pos hproc,
        if_neg fun h => hproc h.2.symm]
      exact ⟨_, rfl⟩
  · rw [if_pos hstatus, if_neg fun h => hstatus h.1]
    exact ⟨_, rfl⟩

/-- One iteration on a message: the header is read, and the request that is
waiting decides about the payload. -/
theorem responseReceive_on (a : Arrival) (hsize : a.message.length ≤ maxSize)
    (rest : List Byte) :
    ∃ handled, responseReceive a.requests (a.message ++ rest) =
      some (handled,
        if narrowStatus a.response.status = ⟨0⟩ ∧
            ∃ req, a.requests a.id = some req ∧ req.proc = a.response.proc
          then rest
        else a.response.payload ++ rest) := by
  have hmessage : a.message = _ := buildResponse_eq a.response a.id
  have hle : a.response.payload.length ≤ maxSize := by
    rw [hmessage, List.length_append] at hsize
    omega
  have hlength : (UInt64.ofNat a.response.payload.length).toNat =
      a.response.payload.length :=
    UInt64.toNat_ofNat_of_lt' (Nat.lt_of_le_of_lt hle (by decide))
  have hheader : (toNetBytes a.id.inner ++ toNetBytes a.response.proc.toByte ++
      toNetBytes (Int32.ofInt a.response.status.code) ++
      toNetBytes (UInt64.ofNat a.response.payload.length)).length =
      ResponseBuilder.headerSize :=
    rfl
  rw [hmessage, List.append_assoc, responseReceive, Text.bind_on,
    readExact_append _ _ hheader, Option.bind_some]
  dsimp only
  rw [receiveResponseHeader_eq]
  dsimp only
  cases hlookup : a.requests a.id with
  | none =>
      refine ⟨.unknown a.id, ?_⟩
      rw [if_neg (by simp)]
      rfl
  | some req =>
      obtain ⟨result, hreceive⟩ := receiveResponse_on
        ⟨a.id, a.response.proc, narrowStatus a.response.status,
          UInt64.ofNat a.response.payload.length⟩ req rest hlength hle
      refine ⟨.set a.id result, ?_⟩
      dsimp only
      rw [Text.bind_on, hreceive, Option.bind_some]
      simp only [Option.some.injEq, exists_eq_left']
      rfl

/-- A message that is expected is consumed whole, and no other one is. -/
theorem Arrival.framed_iff (a : Arrival) (hsize : a.message.length ≤ maxSize) :
    a.Framed ↔ a.Expected := by
  constructor
  · intro hframed
    by_cases hempty : a.response.payload = []
    · exact .inl hempty
    · obtain ⟨handled, hon⟩ := hframed []
      obtain ⟨handled', hon'⟩ := responseReceive_on a hsize []
      rw [hon] at hon'
      split_ifs at hon' with hread
      · exact .inr hread.2
      · simp [hempty] at hon'
  · intro hexpected rest
    obtain ⟨handled, hon⟩ := responseReceive_on a hsize rest
    refine ⟨handled, ?_⟩
    rw [hon]
    split_ifs with hread
    · rfl
    · rcases hexpected with hempty | hwaiting
      · rw [hempty, List.nil_append]
      · -- only a failure has a status, and it has no payload
        cases hresponse : a.response with
        | failed proc status => rfl
        | success resp =>
            rw [hresponse] at hread hwaiting
            have hstatus : narrowStatus ⟨0⟩ = ⟨0⟩ := by decide
            exact absurd ⟨hstatus, hwaiting⟩ hread

/-- The stream of the messages that are to arrive. -/
def arrivalStream (arrivals : List Arrival) (rest : List Byte) : List Byte :=
  arrivals.flatMap Arrival.message ++ rest

/-- While every message is expected, every header is read at the start of a
message. -/
theorem headerStreams_boundary {arrivals : List Arrival} {rest : List Byte}
    (hframed : ∀ a ∈ arrivals, a.Framed) {k : Nat} {stream : List Byte}
    (hk : (headerStreams (arrivals.map Arrival.requests)
      (arrivalStream arrivals rest))[k]? = some stream) :
    stream = arrivalStream (arrivals.drop k) rest := by
  induction arrivals generalizing k with
  | nil =>
      cases k with
      | zero =>
          simp only [List.map_nil, headerStreams, List.getElem?_cons_zero,
            Option.some.injEq] at hk
          exact hk.symm
      | succ k => simp [headerStreams] at hk
  | cons a arrivals ih =>
      have hstream : arrivalStream (a :: arrivals) rest =
          a.message ++ arrivalStream arrivals rest := by
        simp [arrivalStream]
      obtain ⟨handled, hon⟩ :=
        hframed a List.mem_cons_self (arrivalStream arrivals rest)
      rw [hstream, List.map_cons, headerStreams, hon] at hk
      cases k with
      | zero =>
          rw [List.getElem?_cons_zero, Option.some.injEq] at hk
          rw [← hk, List.drop_zero, hstream]
      | succ k =>
          rw [List.getElem?_cons_succ] at hk
          dsimp only at hk
          split_ifs at hk
          · exact ih (fun b hb => hframed b (List.mem_cons_of_mem a hb)) hk
          · simp at hk

theorem framing_iff_expected (arrivals : List Arrival) (rest : List Byte)
    (hsize : ∀ a ∈ arrivals, a.message.length ≤ maxSize) :
    (∀ a ∈ arrivals, (a.Framed ↔ a.Expected)) ∧
    ((∀ a ∈ arrivals, a.Expected) → ∀ k stream,
      (headerStreams (arrivals.map Arrival.requests)
        (arrivalStream arrivals rest))[k]? = some stream →
      stream = arrivalStream (arrivals.drop k) rest) := by
  have hiff : ∀ a ∈ arrivals, (a.Framed ↔ a.Expected) :=
    fun a ha => a.framed_iff (hsize a ha)
  refine ⟨hiff, fun hexpected k stream hk => ?_⟩
  apply headerStreams_boundary _ hk
  intro a ha
  exact (hiff a ha).mpr (hexpected a ha)

/-- The response to an `open` whose request is registered. -/
theorem framing_iff_expected_registered :
    (Arrival.mk (.success (.open 3)) ⟨1⟩
      fun _ => some (.open [47] ⟨0⟩)).Framed := by
  have hsize : ∀ a ∈ [Arrival.mk (.success (.open 3)) ⟨1⟩
      fun _ => some (.open [47] ⟨0⟩)], a.message.length ≤ maxSize := by
    intro a ha
    rw [List.mem_singleton.mp ha]
    decide
  obtain ⟨hiff, -⟩ := framing_iff_expected _ [] hsize
  exact (hiff _ (List.mem_singleton_self _)).mpr (.inr ⟨_, rfl, rfl⟩)

namespace LateResponse

/-- The response to an `open` whose request is not registered any more. -/
def arrival : Arrival :=
  ⟨.success (.open 3), ⟨1⟩, fun _ => none⟩

/-- Its descriptor is left on the socket, and the next header is read there. -/
theorem not_framed :
    responseReceive arrival.requests
        (arrival.message ++ buildResponse (.success .close) ⟨2⟩) =
      some (.unknown ⟨1⟩, [0, 0, 0, 0, 0, 0, 0, 3] ++
        buildResponse (.success .close) ⟨2⟩) ∧
    ¬ arrival.Framed := by
  refine ⟨by decide +kernel, fun hframed => ?_⟩
  obtain ⟨handled, hon⟩ := hframed []
  have hleft : responseReceive arrival.requests (arrival.message ++ []) =
      some (.unknown ⟨1⟩, [0, 0, 0, 0, 0, 0, 0, 3]) := by
    decide +kernel
  rw [hleft] at hon
  cases hon

end LateResponse

end Rpc

end Madbfs
