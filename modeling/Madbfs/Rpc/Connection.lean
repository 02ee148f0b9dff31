/-
The connection: a transport that is replaced when the watchdog reconnects or
finds a better one, and the calls of `send_req` that run over it.  A call is
repeated on the new transport when the old one was stopped under it.  The
transports that were replaced stay in the state, since their servers may still
be working.
-/
import Madbfs.Rpc.Transport

namespace Madbfs

namespace Rpc

/-- A request of a call that reached a transport. -/
structure Attempt where
  transport : Nat
  ticket : Ticket
deriving Repr, DecidableEq

/-- Where a call of `send_req` is suspended, or what it returned.  A call that
waits for a reconnection holds the future of that one. -/
inductive Stage where
  | start
  | sending (attempt : Attempt)
  | reconnecting (future : Nat)
  | returned (result : Result)
deriving Repr, DecidableEq

/-- A call of `send_req`.  `count` is the variable `attempt`, and `attempts`
lists what the call has sent. -/
structure SendReq where
  req : Request
  count : Nat
  attempts : List Attempt
  stage : Stage
deriving Repr, DecidableEq

def SendReq.create (req : Request) : SendReq :=
  ⟨req, 0, [], .start⟩

/-- `Connection`.  The last transport is `m_transport`; `reconnecting` tells
whether `m_reconnection` is set and `reconnections` how many of its promises
are. -/
structure Connection where
  transports : List Transport
  reconnecting : Bool
  reconnections : Nat
  calls : List SendReq

namespace Connection

def create : Connection where
  transports := [.create]
  reconnecting := false
  reconnections := 0
  calls := []

inductive Event where
  | transport (k : Nat) (event : Transport.Event)
  | ping (num : UInt64) (timed : Bool)
  | call (req : Request)
  | resume (i : Nat)
  | start
  | reconnect
  | reconnected
  | optimize
deriving Repr, DecidableEq

def maxAttempts : Nat := 5

/-- The index of `m_transport`. -/
def current (s : Connection) : Nat :=
  s.transports.length - 1

def setStage (s : Connection) (i : Nat) (call : SendReq) (stage : Stage) :
    Connection :=
  { s with calls := s.calls.set i { call with stage := stage } }

/-- `send_req` after an error, with `check_reconnection`. -/
def failed (s : Connection) (i : Nat) (call : SendReq) (err : Errc) :
    Connection :=
  if err = Errc.resourceUnavailableTryAgain ∧ s.reconnecting then
    s.setStage i call (.reconnecting s.reconnections)
  else s.setStage i call (.returned (.error err))

/-- One round of the loop of `send_req`. -/
def round (s : Connection) (i : Nat) (call : SendReq) : Connection :=
  if call.count < maxAttempts then
    let call := { call with count := call.count + 1 }
    match s.transports[s.current]? with
    | none => s
    | some t =>
        if t.running then
          let attempt := ⟨s.current, ⟨t.serials, ⟨t.counter + 1⟩, call.req⟩⟩
          { s with
            transports := s.transports.set s.current (t.send call.req false)
            calls := s.calls.set i { call with
              attempts := call.attempts ++ [attempt]
              stage := .sending attempt } }
        else s.failed i call Errc.resourceUnavailableTryAgain
  else s.setStage i call (.returned (.error Errc.timedOut))

/-- `Transport::send_req` on what `send` returned. -/
def respond (s : Connection) (i : Nat) (call : SendReq) :
    Result → Connection
  | .ok resp =>
      if resp.proc = call.req.proc then
        s.setStage i call (.returned (.ok resp))
      else s.failed i call Errc.badMessage
  | .error err => s.failed i call err

/-- What a call of `send` has returned. -/
def returnedOf (s : Connection) (a : Attempt) : Option Result :=
  (s.transports[a.transport]?).bind fun t =>
    (t.returned.find? fun v => v.1 == a.ticket).map Prod.snd

/-- A step of a transport. -/
def onTransport (s : Connection) (k : Nat) (event : Transport.Event) :
    Option Connection :=
  (s.transports[k]?).bind fun t =>
    (t.step event).map fun t => { s with transports := s.transports.set k t }

/-- The steps a transport takes by itself. -/
def internal : Transport.Event → Bool
  | .start => false
  | .send _ _ => false
  | .stop _ => false
  | _ => true

def step (s : Connection) : Event → Option Connection
  | .transport k event => if internal event then s.onTransport k event else none
  | .ping num timed => s.onTransport s.current (.send (.ping num) timed)
  | .call req =>
      some (round { s with calls := s.calls ++ [.create req] }
        s.calls.length (.create req))
  | .resume i =>
      (s.calls[i]?).bind fun call =>
        match call.stage with
        | .sending a => (s.returnedOf a).map (s.respond i call)
        | .reconnecting future =>
            if future < s.reconnections then some (s.round i call) else none
        | _ => none
  | .start => s.onTransport s.current .start
  | .reconnect =>
      if s.reconnecting then some s
      else (s.onTransport s.current
        (.stop Errc.resourceUnavailableTryAgain)).map fun s =>
          { s with reconnecting := true }
  | .reconnected =>
      if s.reconnecting then some { s with
        transports := s.transports ++ [.create]
        reconnecting := false
        reconnections := s.reconnections + 1 }
      else none
  | .optimize =>
      if s.reconnecting then some s
      else (s.onTransport s.current
        (.stop Errc.resourceUnavailableTryAgain)).map fun s => { s with
          transports := s.transports ++ [.create]
          reconnections := s.reconnections + 1 }

/-- How often the devices have executed the request of a call. -/
def executions (s : Connection) (call : SendReq) : Nat :=
  (call.attempts.map fun a =>
    match s.transports[a.transport]? with
    | none => 0
    | some t => (t.computed.map Answer.ticket).count a.ticket).sum

end Connection

end Rpc

end Madbfs
