/-
The proxy transport and the server it talks to.  The client numbers its
requests and keeps a promise for each; the server answers them in any order.
The socket is a queue of whole messages in each direction.  The state moves by
the steps of the coroutines of both sides from one suspension point to the
next, by failures of the socket, by timers and by `stop`.
-/
import Madbfs.Rpc.Framing

namespace Madbfs

namespace Rpc

/-- A request that was sent.  Nothing but the id and the request goes over the
wire; the serial number tells the calls of `send`, and so the promises,
apart. -/
structure Ticket where
  serial : Nat
  id : Id
  req : Request
deriving Repr, DecidableEq

/-- A response that the server computed, with the request it is for. -/
structure Answer where
  ticket : Ticket
  response : FallibleResponse
deriving Repr, DecidableEq

abbrev Result : Type :=
  Except Errc (Response (List Byte))

/-- A call of `send` that is suspended, with or without a timeout. -/
structure Pending where
  ticket : Ticket
  timed : Bool
deriving Repr, DecidableEq

/-- Where `request_send` is suspended. -/
inductive Sender where
  | idle
  | receiving
  | writing (ticket : Ticket)
  | ended
deriving Repr, DecidableEq

def Sender.tickets : Sender → List Ticket
  | .writing t => [t]
  | _ => []

/-- Where `response_receive` is suspended.  While it reads a payload it holds
the entry that it has extracted.  A loop that has ended waits for its
completion handler. -/
inductive Receiver where
  | idle
  | header
  | payload (entry : Ticket) (answer : Answer)
  | ended
  | finished
deriving Repr, DecidableEq

def Receiver.tickets : Receiver → List Ticket
  | .payload t _ => [t]
  | _ => []

def Receiver.answers : Receiver → List Answer
  | .payload _ a => [a]
  | _ => []

/-- The client, the socket and the server.  `values` lists the calls of
`set_value`, `returned` what the calls of `send` have returned and `computed`
what the handlers have, all in the order of time. -/
structure Transport where
  counter : UInt32
  running : Bool
  requests : List Ticket
  channel : List Pending
  waiting : List Pending
  sender : Sender
  receiver : Receiver
  toServer : List Ticket
  toClient : List Answer
  served : List Ticket
  handlers : List Ticket
  answers : List Answer
  serials : Nat
  values : List (Ticket × Result)
  returned : List (Ticket × Result)
  computed : List Answer

namespace Transport

/-- `ProxyTransport::ProxyTransport`, and a server that is connected. -/
def create : Transport where
  counter := 0
  running := false
  requests := []
  channel := []
  waiting := []
  sender := .idle
  receiver := .idle
  toServer := []
  toClient := []
  served := []
  handlers := []
  answers := []
  serials := 0
  values := []
  returned := []
  computed := []

inductive Event where
  | start
  | send (req : Request) (timed : Bool)
  | take
  | wrote
  | writeFailed (err : Errc)
  | arrive
  | finish (i : Nat) (response : FallibleResponse)
  | answer
  | answerLost
  | serverFailed
  | header
  | headerFailed
  | payload
  | payloadFailed (err : Errc)
  | completed
  | timeout (i : Nat)
  | resume (i : Nat)
  | stop (status : Errc)
deriving Repr, DecidableEq

/-- The entry of a map for an id. -/
def entry (requests : List Ticket) (id : Id) : Option Ticket :=
  requests.find? fun t => t.id == id

/-- The map without the entry for an id. -/
def without (requests : List Ticket) (id : Id) : List Ticket :=
  requests.filter fun t => t.id != id

/-- `m_channel.cancel()`: the calls of `send` that wait in the channel return,
and `request_send` ends if it waits there. -/
def cancelChannel (s : Transport) : Transport :=
  { s with
    channel := []
    returned := s.returned ++
      s.channel.map fun p => (p.ticket, .error Errc.brokenPipe)
    sender := match s.sender with
      | .receiving => .ended
      | sender => sender }

/-- Set every promise in `m_requests` and clear it. -/
def failAll (s : Transport) (status : Errc) : Transport :=
  { s with
    values := s.values ++ s.requests.map fun t => (t, .error status)
    requests := [] }

/-- Find the promise for an id in `m_requests`, set it and erase it. -/
def failOne (s : Transport) (id : Id) (status : Errc) : Transport :=
  match entry s.requests id with
  | none => s
  | some t =>
      { s with
        values := s.values ++ [(t, .error status)]
        requests := without s.requests id }

/-- What a promise was set to. -/
def future (s : Transport) (t : Ticket) : Option Result :=
  (s.values.find? fun v => v.1 == t).map Prod.snd

/-- `receive_response` on a whole message. -/
def received (req : Request) (response : FallibleResponse) : Result :=
  if narrowStatus response.status ≠ ⟨0⟩ then
    .error (narrowStatus response.status)
  else if response.proc ≠ req.proc then .error Errc.badMessage
  else
    match (parseResponse response.payload req).1 with
    | .ok (resp, buf) => .ok (resp.map (Slice.view buf))
    | .error _ => .error Errc.badMessage

/-- The next round of `request_send`. -/
def nextSend (s : Transport) : Sender :=
  if s.running then .receiving else .ended

/-- The next round of `response_receive`. -/
def nextReceive (s : Transport) : Receiver :=
  if s.running then .header else .ended

/-- `send` up to the channel.  An id that is taken keeps its entry. -/
def send (s : Transport) (req : Request) (timed : Bool) : Transport :=
  if s.running then
    let t : Ticket := ⟨s.serials, ⟨s.counter + 1⟩, req⟩
    { s with
      counter := s.counter + 1
      serials := s.serials + 1
      requests := match entry s.requests t.id with
        | none => s.requests ++ [t]
        | some _ => s.requests
      channel := s.channel ++ [⟨t, timed⟩] }
  else s

/-- The server reads the next request.  A duplicate is ignored; a ping is
answered at once, any other request is given to the pool. -/
def arrive (s : Transport) (t : Ticket) : Transport :=
  match entry s.served t.id with
  | some _ => s
  | none =>
      let s := { s with served := s.served ++ [t] }
      match t.req with
      | .ping num =>
          { s with
            answers := s.answers ++ [⟨t, .success (.ping num)⟩]
            computed := s.computed ++ [⟨t, .success (.ping num)⟩] }
      | _ => { s with handlers := s.handlers ++ [t] }

/-- `send_response` takes an answer; `sent` tells whether it could be
written. -/
def sendResponse (s : Transport) (a : Answer) (sent : Bool) : Transport :=
  match entry s.served a.ticket.id with
  | none => s
  | some _ =>
      { s with
        served := without s.served a.ticket.id
        toClient := if sent then s.toClient ++ [a] else s.toClient }

/-- The callback of the timer, and the end of `send` after it. -/
def timedOut (s : Transport) (t : Ticket) : Transport :=
  let s := s.failOne t.id Errc.timedOut
  { s with
    returned := s.returned ++
      [(t, (s.future t).getD (.error Errc.timedOut))] }

def step (s : Transport) : Event → Option Transport
  | .start =>
      match s.receiver with
      | .idle => some { s with
          running := true, sender := .receiving, receiver := .header }
      | _ => none
  | .send req timed => some (s.send req timed)
  | .take =>
      match s.sender, s.channel with
      | .receiving, p :: rest => some { s with
          sender := .writing p.ticket
          channel := rest
          waiting := s.waiting ++ [p] }
      | _, _ => none
  | .wrote =>
      match s.sender with
      | .writing t => some { s with
          sender := s.nextSend, toServer := s.toServer ++ [t] }
      | _ => none
  | .writeFailed err =>
      match s.sender with
      | .writing t =>
          some { s.failOne t.id err with sender := s.nextSend }
      | _ => none
  | .arrive =>
      match s.toServer with
      | t :: rest => some ({ s with toServer := rest }.arrive t)
      | [] => none
  | .finish i response =>
      (s.handlers[i]?).map fun t => { s with
        handlers := s.handlers.eraseIdx i
        answers := s.answers ++ [⟨t, response⟩]
        computed := s.computed ++ [⟨t, response⟩] }
  | .answer =>
      match s.answers with
      | a :: rest => some ({ s with answers := rest }.sendResponse a true)
      | [] => none
  | .answerLost =>
      match s.answers with
      | a :: rest => some ({ s with answers := rest }.sendResponse a false)
      | [] => none
  | .serverFailed => some { s with
      answers := []
      served := s.answers.foldl (fun served a => without served a.ticket.id)
        s.served }
  | .header =>
      match s.receiver, s.toClient with
      | .header, a :: rest =>
          match entry s.requests a.ticket.id with
          | none => some { s with
              toClient := rest, receiver := s.nextReceive }
          | some t => some { s with
              toClient := rest
              requests := without s.requests a.ticket.id
              receiver := .payload t a }
      | _, _ => none
  | .headerFailed =>
      match s.receiver with
      | .header => some { s with receiver := .ended }
      | _ => none
  | .payload =>
      match s.receiver with
      | .payload t a => some { s with
          values := s.values ++ [(t, received t.req a.response)]
          receiver := s.nextReceive }
      | _ => none
  | .payloadFailed err =>
      match s.receiver with
      | .payload t _ => some { s with
          values := s.values ++ [(t, .error err)]
          receiver := s.nextReceive }
      | _ => none
  | .completed =>
      match s.receiver with
      | .ended => some { (s.failAll Errc.operationCanceled).cancelChannel with
          running := false, receiver := .finished }
      | _ => none
  | .timeout i =>
      match s.waiting[i]? with
      | some ⟨t, true⟩ =>
          some ({ s with waiting := s.waiting.eraseIdx i }.timedOut t)
      | _ => none
  | .resume i =>
      match s.waiting[i]? with
      | some ⟨t, _⟩ =>
          (s.future t).map fun result => { s with
            waiting := s.waiting.eraseIdx i
            returned := s.returned ++ [(t, result)] }
      | none => none
  | .stop status =>
      if s.running then
        some { (s.failAll status).cancelChannel with running := false }
      else some s

/-- Everything that an id is used for: its promise, and the request and the
response on their way. -/
def outstanding (s : Transport) : List Ticket :=
  s.requests ++ s.channel.map Pending.ticket ++ s.sender.tickets ++
    s.toServer ++ s.served ++ s.handlers ++ s.answers.map Answer.ticket ++
    s.toClient.map Answer.ticket ++ s.receiver.tickets ++
    s.receiver.answers.map Answer.ticket

end Transport

/-- What a handler answers with: its own procedure, an errno on failure, and a
response that fits into a message and into the span of a `read`. -/
def Answers (req : Request) (response : FallibleResponse) : Prop :=
  response.proc = req.proc ∧
    match response with
    | .failed _ status => 0 < status.code ∧ status.code < 256
    | .success resp =>
        resp.Fits req ∧ (responsePayload resp).length ≤ maxSize

/-- What is assumed about a step: the counter does not come round to an id
that is outstanding, and handlers answer the request they are given. -/
def Transport.Assumed (s : Transport) : Event → Transport → Prop
  | .send _ _, _ =>
      s.running = true → ∀ t ∈ s.outstanding, t.id ≠ ⟨s.counter + 1⟩
  | .finish i response, _ =>
      ∀ t, s.handlers[i]? = some t → Answers t.req response
  | _, _ => True

end Rpc

end Madbfs
