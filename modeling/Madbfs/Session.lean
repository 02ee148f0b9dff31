/-
The cache and the filesystem over a connection whose transport is replaced.
Every request is made through `send_req`, which repeats it on the new
transport when the old one was stopped under it.  A descriptor stands here for
the `open` that returned it, not for its number: descriptors of two transports
are never the same, whatever their numbers on the wire are.
-/
import Madbfs.Cache.Closing
import Madbfs.FileHandleStore
import Madbfs.Run

namespace Madbfs

/-- The descriptor a request carries. -/
def Request.fds : Request → List Fd
  | .open _ _ => []
  | .close fd => [fd]
  | .read fd _ _ => [fd]
  | .write fd _ _ => [fd]

/-- The answer to a request that failed. -/
def Request.fail (err : Errc) : Request → Reply
  | .open _ _ => .opened (.error err)
  | .close _ => .closed (.error err)
  | .read _ _ _ => .fetched (.error err)
  | .write _ _ _ => .written (.error err)

/-- The answers a device can give to a request. -/
def Request.answeredBy : Request → Reply → Bool
  | .open _ _, .opened _ => true
  | .close _, .closed _ => true
  | .read _ _ _, .fetched _ => true
  | .write _ _ _, .written _ => true
  | _, _ => false

/-- The answer is `resource_unavailable_try_again`. -/
def Reply.isAgain : Reply → Bool
  | .opened (.error err) => err == Errc.resourceUnavailableTryAgain
  | .closed (.error err) => err == Errc.resourceUnavailableTryAgain
  | .fetched (.error err) => err == Errc.resourceUnavailableTryAgain
  | .written (.error err) => err == Errc.resourceUnavailableTryAgain
  | _ => false

/-- Who made a request: a task of the cache, or an operation of the filesystem
without a cache.  The latter keeps what it needs for the handle it stores. -/
inductive Owner where
  | task (i : Nat)
  | opener (node : Id) (mode : OpenMode)
  | client
deriving Repr, DecidableEq

/-- Where a call of `send_req` is suspended: in `send` of the transport with
this number, before it takes an answer, or for a reconnection. -/
inductive Transit where
  | sending (transport : Nat)
  | answered (reply : Reply)
  | waiting (future : Nat)
deriving Repr

/-- A call of `send_req`.  `count` is its variable `attempt`. -/
structure Flight where
  owner : Owner
  request : Request
  count : Nat
  transit : Transit
deriving Repr

def Flight.answer (flight : Flight) (reply : Reply) : Flight :=
  { flight with transit := .answered reply }

/-- Where `watchdog` is: between two rounds, with the old transport stopped,
with the new one in place, and after `invalidate_fds`. -/
inductive Watchdog where
  | idle
  | stopped
  | replaced
  | invalidated
deriving Repr, DecidableEq

/-- `current` counts the transports, and `running` tells whether the last one
is started.  `abandoned` holds the requests that a transport has taken and
nobody waits for; its server may still execute them.  `issued` is the
transport that a descriptor was opened on, and `executed` what the transports
have executed. -/
structure Session where
  cached : Bool
  pool : Pool
  handles : FileHandleStore
  flights : List Flight
  current : Nat
  running : Bool
  reconnecting : Bool
  reconnections : Nat
  watchdog : Watchdog
  abandoned : List (Nat × Request)
  issued : Fd → Option Nat
  executed : List (Nat × Request)

/-- The operations of the filesystem on a file when there is no cache. -/
inductive FileOp where
  | open (node : Id) (path : Path) (mode : OpenMode)
  | read (fd len offset : Nat)
  | write (fd : Nat) (input : List Byte) (offset : Nat)
  | release (fd : Nat)
deriving Repr

namespace Session

inductive Event where
  | call (call : Call)
  | wake (i : Nat)
  | file (op : FileOp)
  | serve (j : Nat) (reply : Reply)
  | fail (j : Nat) (err : Errc)
  | late (j : Nat) (reply : Reply)
  | resume (j : Nat)
  | reconnect
  | reconnected
  | optimize
  | invalidateFds
  | start

/-- Before the first transport is started. -/
def create (cached : Bool) (pageSize maxPages : Nat) : Session where
  cached := cached
  pool := ⟨Cache.create pageSize maxPages, [], []⟩
  handles := []
  flights := []
  current := 0
  running := false
  reconnecting := false
  reconnections := 0
  watchdog := .invalidated
  abandoned := []
  issued := fun _ => none
  executed := []

def maxAttempts : Nat := 5

/-- `send_req` after `resource_unavailable_try_again`: it waits for the
reconnection if there is one, else it has this error to return. -/
def again (s : Session) (flight : Flight) : Flight :=
  if s.reconnecting then { flight with transit := .waiting s.reconnections }
  else flight.answer (flight.request.fail Errc.resourceUnavailableTryAgain)

/-- One round of the loop of `send_req`. -/
def round (s : Session) (flight : Flight) : Flight :=
  if flight.count < maxAttempts then
    let flight := { flight with count := flight.count + 1 }
    if s.running then { flight with transit := .sending s.current }
    else s.again flight
  else flight.answer (flight.request.fail Errc.timedOut)

def send (s : Session) (owner : Owner) (request : Request) : Session :=
  { s with flights := s.flights ++
    [s.round ⟨owner, request, 0, .answered (request.fail ⟨0⟩)⟩] }

/-- A task of the cache is resumed, and makes the request it suspends for. -/
def resumeTask (s : Session) (i : Nat) (reply : Reply) : Option Session :=
  (s.pool.resume i reply).map fun pool =>
    match (pool.tasks[i]?).bind (Task.request pool.cache) with
    | none => { s with pool := pool }
    | some request => send { s with pool := pool } (.task i) request

/-- What the caller of `send_req` does with the answer. -/
def finish (s : Session) (owner : Owner) (reply : Reply) : Option Session :=
  match owner, reply with
  | .task i, reply => s.resumeTask i reply
  | .opener node mode, .opened (.ok fd) =>
      some { s with handles := (s.handles.store ⟨some node, mode, fd⟩).2 }
  | _, _ => some s

/-- The operations of `Filesystem` without a cache, up to their request.  The
release of an empty seat uses a null node. -/
def fileOp (s : Session) : FileOp → Option Session
  | .open node path mode => some (s.send (.opener node mode) (.open path mode))
  | .read fd len offset =>
      match s.handles.findMode fd .read with
      | none => some s
      | some handle => some (s.send .client (.read handle.realFd len offset))
  | .write fd input offset =>
      match s.handles.findMode fd .write with
      | none => some s
      | some handle => some (s.send .client (.write handle.realFd input offset))
  | .release fd =>
      match s.handles.release fd with
      | (none, _) => some s
      | (some handle, handles) =>
          if handle.node.isSome then some
            (send { s with handles := handles } .client (.close handle.realFd))
          else none

/-- A transport executes a request.  The descriptor an `open` returns is a new
one. -/
def execute (s : Session) (transport : Nat) (request : Request)
    (reply : Reply) : Option Session :=
  if request.answeredBy reply ∧ ∀ fd ∈ reply.fds, s.issued fd = none then
    some { s with
      executed := s.executed ++ [(transport, request)]
      issued := fun fd =>
        if fd ∈ reply.fds then some transport else s.issued fd }
  else none

/-- `Transport::stop` with `resource_unavailable_try_again`: the requests that
wait for an answer get this error. -/
def stop (s : Session) : Session :=
  { s with
    running := false
    flights := s.flights.map fun flight =>
      match flight.transit with
      | .sending _ => flight.answer
          (flight.request.fail Errc.resourceUnavailableTryAgain)
      | _ => flight
    abandoned := s.abandoned ++ s.flights.filterMap fun flight =>
      match flight.transit with
      | .sending transport => some (transport, flight.request)
      | _ => none }

/-- The new transport takes the place of the old one. -/
def replace (s : Session) : Session :=
  { s with
    current := s.current + 1
    reconnecting := false
    reconnections := s.reconnections + 1
    watchdog := .replaced }

/-- `invalidate_fds(false)`, if there is a cache. -/
def invalidateFds (s : Session) : Session :=
  { s with
    pool := if s.cached then { s.pool with cache := s.pool.cache.dropFds }
      else s.pool
    watchdog := .invalidated }

def step (s : Session) : Event → Option Session
  | .call call =>
      if s.cached then some { s with pool := s.pool.call call } else none
  | .wake i =>
      match (s.pool.tasks[i]?).bind (Task.request s.pool.cache) with
      | none => s.resumeTask i .go
      | some _ => none
  | .file op => if s.cached then none else s.fileOp op
  | .serve j reply =>
      (s.flights[j]?).bind fun flight =>
        match flight.transit with
        | .sending transport =>
            (s.execute transport flight.request reply).map fun s =>
              { s with flights := s.flights.set j (flight.answer reply) }
        | _ => none
  | .fail j err =>
      (s.flights[j]?).bind fun flight =>
        match flight.transit with
        | .sending transport => some { s with
            flights := s.flights.set j
              (flight.answer (flight.request.fail err))
            abandoned := s.abandoned ++ [(transport, flight.request)] }
        | _ => none
  | .late j reply =>
      (s.abandoned[j]?).bind fun attempt =>
        (s.execute attempt.1 attempt.2 reply).map fun s =>
          { s with abandoned := s.abandoned.eraseIdx j }
  | .resume j =>
      (s.flights[j]?).bind fun flight =>
        match flight.transit with
        | .sending _ => none
        | .answered reply =>
            if reply.isAgain ∧ s.reconnecting then
              some { s with flights := s.flights.set j (s.again flight) }
            else
              finish { s with flights := s.flights.eraseIdx j }
                flight.owner reply
        | .waiting future =>
            if future < s.reconnections then
              some { s with flights := s.flights.set j (s.round flight) }
            else none
  | .reconnect =>
      if s.watchdog = .idle then
        some { s.stop with reconnecting := true, watchdog := .stopped }
      else none
  | .reconnected => if s.watchdog = .stopped then some s.replace else none
  | .optimize => if s.watchdog = .idle then some s.stop.replace else none
  | .invalidateFds =>
      if s.watchdog = .replaced then some s.invalidateFds else none
  | .start =>
      if s.watchdog = .invalidated then
        some { s with running := true, watchdog := .idle }
      else none

end Session

end Madbfs
