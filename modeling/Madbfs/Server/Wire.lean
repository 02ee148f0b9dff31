/-
The messages of a session between the proxy transport and its server.  The
server takes a request from its stream as it was sent, what its handlers answer
is what the client counts on, and the client takes the responses from its
stream as they were written.
-/
import Madbfs.Rpc.Transport
import Madbfs.Server.Switches

namespace Madbfs

namespace Rpc

namespace Server

open Bytes NetBytes Rpc Program

variable {κ α β : Type} {kernel : Kernel κ}

/-- What `errno` can be: the code of an error, which is less than 256. -/
def Errno : Except Errc α → Prop
  | .ok _ => True
  | .error err => 0 < err.code ∧ err.code < 256

/-- A call that fails sets `errno`. -/
def Kernel.SetsErrno (kernel : Kernel κ) : Prop :=
  ∀ {α : Type} (c : Call α) (k : κ), Errno (kernel.answer c k).1

/-- What a handler of the request may end with: a response of its procedure,
with no more bytes than are asked for, or an errno. -/
def Proper (req : Request) : Except Errc (Response (List Byte)) → Prop
  | .ok (.read bytes) =>
      req.proc = .read ∧ bytes.length ≤ req.out.length
  | .ok resp => resp.proc = req.proc
  | .error err => 0 < err.code ∧ err.code < 256

section Proper

variable {req : Request}

theorem call_errno (h : kernel.SetsErrno) (c : Call α) :
    Ends Errno (call kernel c) := by
  intro s r s' hrun
  cases hrun
  exact h c s.kernel

/-- A call in front of the rest of a handler. -/
theorem Proper.call (h : kernel.SetsErrno) (c : Call α)
    {f : α → Handle κ (Response (List Byte))}
    (hf : ∀ a, Ends (Proper req) (f a)) :
    Ends (Proper req) (call kernel c >>= f) :=
  (call_errno h c).bind (fun _ herr => herr) fun a _ => hf a

/-- A call whose failure is looked at. -/
theorem Proper.ask (h : kernel.SetsErrno) (c : Call α)
    {f : Except Errc α → Handle κ (Response (List Byte))}
    (hf : ∀ res, Errno res → Ends (Proper req) (f res)) :
    Ends (Proper req) ((Server.call kernel c).outcome >>= f) := by
  refine (call_errno h c).outcome.bind ?_ ?_
  · rintro err ⟨r, hr, -⟩
    cases hr
  · rintro res ⟨r, hr, herrno⟩
    cases hr
    exact hf res herrno

theorem handleCall_proper (h : kernel.SetsErrno) (c : Call Unit)
    {resp : Response (List Byte)} (hresp : Proper req (.ok resp)) :
    Ends (Proper req) (handleCall kernel c resp) :=
  Proper.call h c fun _ => Ends.pure hresp

/-- Programs of calls fail with what a call sets. -/
theorem plain_errno (h : kernel.SetsErrno) :
    Plain kernel fun _ (x : Handle κ _) => Ends Errno x where
  pure _ := Ends.pure trivial
  bind hx hf := hx.bind (fun _ herr => herr) fun a _ => hf a
  outcome hx := fun s => (hx.outcome s).mono fun _ _ ⟨_, hr, _⟩ => hr ▸ trivial
  still _ := call_errno h _

theorem copyByHand_proper (h : kernel.SetsErrno)
    (hreq : req.proc = .copyFileRange)
    (inFd outFd : Int32) (size : UInt64) :
    Ends (Proper req) (copyByHand kernel inFd outFd size) := by
  apply ((plain_errno h).copyAll inFd outFd size.toNat 0).bind
  · exact fun err herr => herr
  · exact fun copied _ => Ends.pure hreq.symm

theorem copyOpened_proper (h : kernel.SetsErrno)
    (hreq : req.proc = .copyFileRange) (inFd : Int32) (inOff : Int64)
    (outFd : Int32) (outOff : Int64) (size : UInt64) :
    Ends (Proper req) (copyOpened kernel inFd inOff outFd outOff size) := by
  have hhand := copyByHand_proper h hreq inFd outFd size
  apply Ends.bind_state
  intro s
  split_ifs
  · apply Proper.ask h
    intro res herrno
    cases res with
    | ok n => exact Ends.pure hreq.symm
    | error err =>
        dsimp only
        split_ifs
        · exact Ends.bind_change hhand
        · exact hhand
        · exact Ends.fail herrno
  · exact hhand

theorem renameFallback_proper (h : kernel.SetsErrno)
    (hreq : req.proc = .rename) (source target : List Byte) (flags : UInt32) :
    Ends (Proper req) (renameFallback kernel source target flags) := by
  have hinvalid : Ends Errno (require (flags = 0) Errc.invalidArgument :
      Handle κ Unit) := by
    intro s
    rw [require]
    split_ifs
    · exact Sat.pure trivial
    · exact Sat.fail ⟨by decide, by decide⟩
  apply hinvalid.bind
  · exact fun err herr => herr
  · exact fun _ _ => Proper.call h _ fun _ => Ends.pure hreq.symm

theorem handleRename_proper (h : kernel.SetsErrno)
    (hreq : req.proc = .rename) (source target : List Byte) (flags : UInt32) :
    Ends (Proper req) (handleRename kernel source target flags) := by
  have hfallback := renameFallback_proper h hreq source target flags
  apply Ends.bind_state
  intro s
  split_ifs
  · apply Proper.ask h
    intro res herrno
    cases res with
    | ok u => exact Ends.pure hreq.symm
    | error err =>
        dsimp only
        split_ifs
        · exact Ends.bind_change hfallback
        · exact Ends.fail herrno
  · exact hfallback

/-- A handler answers the request that it is given. -/
theorem handler_proper (h : kernel.SetsErrno) (req : Request) :
    Ends (Proper req) (handler kernel req) := by
  cases req with
  | stat path => exact Proper.call h _ fun _ => Ends.pure rfl
  | listdir path buf =>
      apply Proper.call h
      intro dir
      apply Ends.defer
      apply Proper.ask h
      intro names _
      apply (listEntries_rule (plain_errno h).toSequential
        (fun _ _ => call_errno h _) dir _ _ _).bind
      · exact fun err herr => herr
      · exact fun entries _ => Ends.pure rfl
  | readlink path buf => exact Proper.call h _ fun _ => Ends.pure rfl
  | mknod path mode dev => exact handleCall_proper h _ rfl
  | mkdir path mode => exact handleCall_proper h _ rfl
  | unlink path => exact handleCall_proper h _ rfl
  | rmdir path => exact handleCall_proper h _ rfl
  | rename source target flags =>
      exact handleRename_proper h rfl source target flags
  | truncate path size => exact handleCall_proper h _ rfl
  | utimens path atime mtime => exact handleCall_proper h _ rfl
  | copyFileRange inPath inOff outPath outOff size =>
      apply Proper.call h
      intro inFd
      apply Ends.defer
      apply Proper.call h
      intro _
      apply Proper.call h
      intro outFd
      apply Ends.defer
      apply Proper.call h
      intro _
      exact copyOpened_proper h rfl inFd inOff outFd outOff size
  | «open» path mode => exact Proper.call h _ fun _ => Ends.pure rfl
  | close fd => exact handleCall_proper h _ rfl
  | read fd offset out =>
      apply Proper.call h
      intro _
      apply Proper.call h
      intro bytes
      exact Ends.pure ⟨rfl, bytes.2⟩
  | write fd offset input =>
      apply Proper.call h
      intro _
      apply Proper.call h
      intro len
      exact Ends.pure rfl
  | ping num => exact Ends.pure rfl

/-- A response is not longer than a vector can be. -/
def Sized : FallibleResponse → Prop
  | .success (.listdir entries) => entries.length ≤ maxEntries ∧
      (responsePayload (.listdir entries)).length ≤ maxSize
  | response => response.payload.length ≤ maxSize

/-- What the handlers of a server answer is what its clients count on. -/
theorem handleReq_answers (h : kernel.SetsErrno) {req : Request}
    {s s' : RequestHandler κ} {response : FallibleResponse}
    (hhandle : handleReq kernel req s = some (response, s'))
    (hsized : Sized response) : Answers req response := by
  obtain ⟨⟨r, t⟩, hrun, hpair⟩ := Option.map_eq_some_iff.mp hhandle
  obtain ⟨rfl, rfl⟩ := Prod.mk.inj hpair
  have hproper := handler_proper h req s r _ hrun
  cases r with
  | error err => exact ⟨rfl, hproper⟩
  | ok resp =>
      cases resp with
      | read bytes => exact ⟨hproper.1.symm, hproper.2, hsized⟩
      | listdir entries => exact ⟨hproper, hsized⟩
      | _ => exact ⟨hproper, trivial, hsized⟩

end Proper

/-- What a round of `run` takes from the socket.  The loop ends at a message
that is not a request. -/
inductive Incoming where
  | ended
  | request (id : Rpc.Id) (req : Request)
deriving Repr, DecidableEq

/-- `receive_request_header` and `receive_request`.  The payload is also the
buffer that a request may use for its output. -/
def requestReceive : Text Incoming := do
  let header ← readExact RequestBuilder.headerSize
  match receiveRequestHeader header with
  | .error _ => return .ended
  | .ok header =>
      if maxSize < header.size.toNat then return .ended
      else do
        let buffer ← readExact header.size.toNat
        match (parseRequest buffer buffer header.proc).1 with
        | .ok req => return .request header.id req
        | .error _ => return .ended

/-- `response_receive` of the client, for `n` rounds. -/
def receiveResponses (requests : Rpc.Id → Option Request) :
    Nat → Text (List Handled)
  | 0 => return []
  | n + 1 => do
      let handled ← responseReceive requests
      if handled.continues then
        let rest ← receiveResponses requests n
        return handled :: rest
      else return [handled]

/-- The result that a promise is set to, with the views looked at. -/
def result : Handled → Option (Rpc.Id × Except Errc (Response (List Byte)))
  | .set id (.response resp buf) => some (id, .ok (resp.map (Slice.view buf)))
  | .set id (.failed status) => some (id, .error status)
  | _ => none

/-- The result that a response stands for. -/
def resultOf : FallibleResponse → Except Errc (Response (List Byte))
  | .success resp => .ok resp
  | .failed _ status => .error status

section Session

/-- A handler does not look at the output buffer of its request. -/
theorem handleReq_received (buf : List Byte) (req : Request)
    (s : RequestHandler κ) :
    handleReq kernel (req.received buf) s = handleReq kernel req s := by
  cases req with
  | read fd offset out =>
      have hlength : (if buf.length < out.length then resize buf out.length
          else buf.take out.length).length = out.length := by
        split_ifs
        · exact length_resize _ _
        · exact List.length_take_of_le (by omega)
      have hread : handleRead kernel fd offset
          (if buf.length < out.length then resize buf out.length
            else buf.take out.length) = handleRead kernel fd offset out := by
        rw [handleRead, handleRead, hlength]
      exact congrArg (fun x : Handle κ _ => (x s).map fun p =>
        (respond (.read fd offset out) p.1, p.2)) hread
  | _ => rfl

/-- The server takes a request from its stream as it was sent. -/
theorem requestReceive_message {req : Request} {id : Rpc.Id}
    (hsize : (buildRequest req id).length ≤ maxSize) (hout : req.OutFits)
    (rest : List Byte) :
    requestReceive (buildRequest req id ++ rest) =
      some (.request id (req.received (requestPayload req)), rest) := by
  have hmessage := buildRequest_eq req id
  have hle : (requestPayload req).length ≤ maxSize := by
    rw [hmessage, List.length_append] at hsize
    omega
  have hlt : (requestPayload req).length < 2 ^ 63 :=
    Nat.lt_of_le_of_lt hle (by decide)
  have hlength : (UInt64.ofNat (requestPayload req).length).toNat =
      (requestPayload req).length :=
    UInt64.toNat_ofNat_of_lt' (Nat.lt_trans hlt (by decide))
  have hheader : (toNetBytes id.inner ++ toNetBytes req.proc.toByte ++
      toNetBytes (UInt64.ofNat (requestPayload req).length)).length =
      RequestBuilder.headerSize :=
    rfl
  have hparse := (Takes.requestOf (requestPayload req) req hout).on_create hlt
  rw [hmessage, List.append_assoc, requestReceive, Text.bind_on,
    readExact_append _ _ hheader, Option.bind_some]
  dsimp only
  rw [receiveRequestHeader_eq]
  dsimp only
  rw [hlength, if_neg (Nat.not_lt_of_le hle), Text.bind_on,
    readExact_append _ _ rfl, Option.bind_some]
  dsimp only
  rw [parseRequest, hparse]
  rfl

theorem receiveResponse_failed {header : ResponseHeader} (req : Request)
    (hstatus : header.status ≠ ⟨0⟩) (stream : List Byte) :
    receiveResponse header req stream =
      some (.failed header.status, stream) := by
  rw [receiveResponse, if_pos hstatus]
  rfl

theorem receiveResponse_success (header : ResponseHeader) {req : Request}
    {resp : Response (List Byte)} (hstatus : header.status = ⟨0⟩)
    (hheader : header.proc = req.proc) (hproc : resp.proc = req.proc)
    (hsize : header.size.toNat = (responsePayload resp).length)
    (hle : (responsePayload resp).length ≤ maxSize) (hfits : resp.Fits req)
    (rest : List Byte) :
    receiveResponse header req (responsePayload resp ++ rest) =
      some (.response (resp.received req).1 (resp.received req).2, rest) := by
  have hparse : (parseResponse (responsePayload resp) req).1 =
      .ok (resp.received req) :=
    (Takes.responseOf hproc hfits).on_create
      (Nat.lt_of_le_of_lt hle (by decide))
  rw [receiveResponse, if_neg (not_not_intro hstatus),
    if_neg (not_not_intro hheader), hsize, if_neg (Nat.not_lt_of_le hle),
    Text.bind_on, readExact_append _ _ rfl, Option.bind_some]
  dsimp only
  rw [hparse]
  rfl

/-- The client takes a response from its stream as it was sent. -/
theorem responseReceive_message {requests : Rpc.Id → Option Request}
    {req : Request} {id : Rpc.Id} {response : FallibleResponse}
    (hreq : requests id = some req) (hanswers : Answers req response)
    (rest : List Byte) :
    ∃ handled, responseReceive requests (buildResponse response id ++ rest) =
        some (handled, rest) ∧ handled.continues = true ∧
      result handled = some (id, resultOf response) := by
  have hproc : response.proc = req.proc := hanswers.1
  have hheader : (toNetBytes id.inner ++ toNetBytes response.proc.toByte ++
      toNetBytes (Int32.ofInt response.status.code) ++
      toNetBytes (UInt64.ofNat response.payload.length)).length =
      ResponseBuilder.headerSize :=
    rfl
  rw [buildResponse_eq, List.append_assoc, responseReceive, Text.bind_on,
    readExact_append _ _ hheader, Option.bind_some]
  dsimp only
  rw [receiveResponseHeader_eq]
  dsimp only
  rw [hreq]
  dsimp only
  rw [Text.bind_on]
  cases response with
  | failed proc status =>
      obtain ⟨hpos, hlt⟩ := hanswers.2
      have hstatus : narrowStatus status = status := by
        rw [narrowStatus_eq, Int.emod_eq_of_lt (Int.le_of_lt hpos) hlt]
      have hne : status ≠ ⟨0⟩ := by
        rintro rfl
        exact absurd hpos (by decide)
      refine ⟨.set id (.failed status), ?_, rfl, rfl⟩
      change (receiveResponse ⟨id, proc, narrowStatus status, _⟩ req
        rest).bind _ = _
      rw [hstatus, receiveResponse_failed req hne, Option.bind_some]
      rfl
  | success resp =>
      obtain ⟨hfits, hle⟩ := hanswers.2
      have hlength : (UInt64.ofNat (responsePayload resp).length).toNat =
          (responsePayload resp).length :=
        UInt64.toNat_ofNat_of_lt' (Nat.lt_of_le_of_lt hle (by decide))
      refine ⟨.set id (.response (resp.received req).1 (resp.received req).2),
        ?_, rfl, ?_⟩
      · have hstatus : narrowStatus ⟨0⟩ = ⟨0⟩ := by decide
        have hreceive := receiveResponse_success ⟨id, resp.proc,
          narrowStatus ⟨0⟩, UInt64.ofNat (responsePayload resp).length⟩
          hstatus hproc hproc hlength hle hfits rest
        exact congrArg (Option.bind · _) hreceive
      · rw [result, Response.view_received hfits]
        rfl

/-- A call of the client with the response it gets. -/
abbrev Served : Type :=
  (Rpc.Id × Request) × FallibleResponse

/-- The client gets the responses that are written for its requests. -/
theorem receiveResponses_messages (requests : Rpc.Id → Option Request)
    (served : List Served)
    (hserved : ∀ x ∈ served, requests x.1.1 = some x.1.2 ∧ Answers x.1.2 x.2)
    (rest : List Byte) :
    ∃ handled, receiveResponses requests served.length
        (served.flatMap (fun x => buildResponse x.2 x.1.1) ++ rest) =
          some (handled, rest) ∧
      handled.map result =
        served.map fun x => some (x.1.1, resultOf x.2) := by
  induction served with
  | nil => exact ⟨[], rfl, rfl⟩
  | cons x served ih =>
      obtain ⟨hcall, hanswers⟩ := hserved x List.mem_cons_self
      obtain ⟨many, hmany, hresults⟩ := ih fun y hy =>
        hserved y (List.mem_cons_of_mem _ hy)
      obtain ⟨one, hone, hcontinues, hresult⟩ := responseReceive_message hcall
        hanswers (served.flatMap (fun x => buildResponse x.2 x.1.1) ++ rest)
      refine ⟨one :: many, ?_, ?_⟩
      · rw [List.flatMap_cons, List.append_assoc, List.length_cons,
          receiveResponses, Text.bind_on, hone, Option.bind_some]
        dsimp only
        rw [if_pos hcontinues, Text.bind_on, hmany, Option.bind_some]
        rfl
      · rw [List.map_cons, hresult, hresults, List.map_cons]

theorem lookup_of_nodup {calls : List (Rpc.Id × Request)}
    (hids : (calls.map Prod.fst).Nodup) {c : Rpc.Id × Request}
    (hc : c ∈ calls) : calls.lookup c.1 = some c.2 := by
  obtain ⟨front, back, rfl⟩ := List.append_of_mem hc
  refine List.lookup_eq_some_iff.mpr ⟨front, back, rfl, fun d hd => ?_⟩
  rw [List.map_append, List.map_cons, List.nodup_middle,
    List.nodup_cons] at hids
  have hne : c.1 ≠ d.1 := fun heq => hids.1 (heq ▸
    List.mem_append_left _ (List.mem_map_of_mem hd))
  simpa using hne

namespace OneFile

theorem errno_closed (k : OneFile) (fd : Int32) : Errno (k.closed fd).1 := by
  rw [closed]
  split_ifs
  · trivial
  · exact ⟨by decide, by decide⟩

theorem setsErrno : OneFile.kernel.SetsErrno := by
  intro α c k
  cases c with
  | «open» path flags =>
      simp only [OneFile.kernel, answer]
      split_ifs
      · exact ⟨by decide, by decide⟩
      · split
        · exact ⟨by decide, by decide⟩
        · trivial
  | close fd => exact errno_closed k fd
  | closedir dir => exact errno_closed k dir
  | lseek fd offset =>
      simp only [OneFile.kernel, answer]
      split_ifs
      · exact ⟨by decide, by decide⟩
      · trivial
      · exact ⟨by decide, by decide⟩
  | read fd size =>
      simp only [OneFile.kernel, answer]
      split
      · exact ⟨by decide, by decide⟩
      · trivial
  | write fd bytes =>
      simp only [OneFile.kernel, answer]
      split
      · exact ⟨by decide, by decide⟩
      · trivial
  | _ => exact ⟨by decide, by decide⟩

end OneFile

end Session

end Server

end Rpc

end Madbfs
