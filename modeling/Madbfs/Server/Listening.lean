/-
The connection on the side of the server, on the bytes of its socket.  One
coroutine takes the requests from the stream; it answers a ping itself and
posts every other request to the pool, whose one thread handles them in turn.
Another coroutine writes the responses as they come.  So the response to a ping
may overtake those to requests before it, and no other response overtakes.
-/
import Mathlib.Data.List.Perm.Basic
import Madbfs.Run
import Madbfs.Server.Wire

namespace Madbfs

namespace Rpc

namespace Server

open NetBytes

variable {κ : Type}

/-- `Connection`.  `posted` has the requests that the pool has not handled yet
and `channel` the responses that are not written yet.  No two requests in
flight have the same id. -/
structure Connection (κ : Type) where
  listening : Bool
  stream : List Byte
  posted : List (Rpc.Id × Request)
  handler : RequestHandler κ
  channel : List (Rpc.Id × FallibleResponse)
  written : List Byte

namespace Connection

/-- Before the first request is received. -/
def create (stream : List Byte) (handler : RequestHandler κ) :
    Connection κ where
  listening := true
  stream := stream
  posted := []
  handler := handler
  channel := []
  written := []

inductive Event where
  | receive
  | handle
  | send
deriving DecidableEq

/-- `handle_request`, and `async_send` of its response. -/
def handleRequest (kernel : Kernel κ) (s : Connection κ) (id : Rpc.Id)
    (req : Request) : Option (Connection κ) :=
  (handleReq kernel req s.handler).map fun x => { s with
    handler := x.2
    channel := s.channel ++ [(id, x.1)] }

/-- A round of `run`, a request on the thread of the pool, or a round of
`send_response`. -/
def step (kernel : Kernel κ) (s : Connection κ) : Event → Option (Connection κ)
  | .receive =>
      if s.listening then
        match requestReceive s.stream with
        | none => none
        | some (.ended, stream) =>
            some { s with stream := stream, listening := false }
        | some (.request id req, stream) =>
            if req.proc = .ping then
              handleRequest kernel { s with stream := stream } id req
            else some { s with
              stream := stream
              posted := s.posted ++ [(id, req)] }
      else none
  | .handle =>
      match s.posted with
      | [] => none
      | (id, req) :: rest =>
          handleRequest kernel { s with posted := rest } id req
  | .send =>
      match s.channel with
      | [] => none
      | (id, response) :: rest => some { s with
          channel := rest
          written := s.written ++ buildResponse response id }

end Connection

/-- The handlers called one after the other, with what they answer. -/
abbrev Direct (kernel : Kernel κ) (s : RequestHandler κ)
    (served : List Served) (s' : RequestHandler κ) : Prop :=
  Runs (Server.step kernel) (fun _ _ _ => True) s
    (served.map fun x => (x.1.2, x.2)) s'

section

variable {kernel : Kernel κ} {s s' : RequestHandler κ}

theorem direct_of_serve {calls : List (Rpc.Id × Request)}
    {responses : List FallibleResponse}
    (hserve : serve (handleReq kernel) (calls.map Prod.snd) s =
      some (responses, s')) :
    (calls.zip responses).map Prod.fst = calls ∧
      Direct kernel s (calls.zip responses) s' := by
  induction calls generalizing s responses with
  | nil =>
      cases hserve
      exact ⟨rfl, .nil _⟩
  | cons c calls ih =>
      rw [List.map_cons, serve] at hserve
      obtain ⟨⟨response, s₁⟩, hreq, hserve⟩ :=
        Option.bind_eq_some_iff.mp hserve
      obtain ⟨⟨many, s₂⟩, hmany, hserve⟩ := Option.bind_eq_some_iff.mp hserve
      cases hserve
      obtain ⟨hcalls, hdirect⟩ := ih hmany
      rw [List.zip_cons_cons]
      exact ⟨congrArg _ hcalls, .cons (step_eq_some.mpr hreq) trivial hdirect⟩

/-- What the handlers answer is what the clients count on. -/
theorem Direct.answers (h : kernel.SetsErrno) {served : List Served}
    (hdirect : Direct kernel s served s')
    (hsized : ∀ x ∈ served, Sized x.2) :
    ∀ x ∈ served, Answers x.1.2 x.2 := by
  induction served generalizing s with
  | nil => exact fun x hx => absurd hx List.not_mem_nil
  | cons x served ih =>
      cases hdirect with
      | cons hstep hguard hrest =>
          intro y hy
          rcases List.mem_cons.mp hy with rfl | hy
          · exact handleReq_answers h (step_eq_some.mp hstep) (hsized _ hy)
          · exact ih hrest (fun z hz => hsized z (List.mem_cons_of_mem _ hz))
              y hy

/-- The handler of a ping leaves everything as it is, so it may run earlier. -/
theorem Direct.of_ping {left right : List Served} {x : Served}
    (hping : x.1.2.proc = .ping)
    (hdirect : Direct kernel s (left ++ x :: right) s') :
    handleReq kernel x.1.2 s = some (x.2, s) ∧
      Direct kernel s (left ++ right) s' := by
  rw [Direct, List.map_append, List.map_cons] at hdirect
  obtain ⟨t, hleft, hright⟩ := hdirect.split
  cases hright with
  | @cons _ t₁ _ _ _ hstep _ hrest =>
      have hreq := step_eq_some.mp hstep
      obtain ⟨⟨id, req⟩, response⟩ := x
      cases req with
      | ping num =>
          obtain ⟨hresponse, rfl⟩ := Prod.mk.inj (Option.some.inj hreq)
          refine ⟨congrArg (fun r => some (r, s)) hresponse, ?_⟩
          rw [Direct, List.map_append]
          exact hleft.append hrest
      | _ => cases hping

end

namespace Connection

/-- A request that the pool handles. -/
def plain (x : Served) : Bool :=
  x.1.2.proc != .ping

/-- What the client sends for its calls. -/
def sent (served : List Served) : List Byte :=
  served.flatMap fun x => buildRequest x.1.2 x.1.1

/-- Where the calls are: written, in the channel, posted, or still in the
stream.  The handlers called directly would go on with the last two. -/
structure Carries (kernel : Kernel κ) (s' : RequestHandler κ)
    (toServer : List Byte) (served : List Served) (s : Connection κ)
    (done waiting queued coming : List Served) : Prop where
  listening : s.listening = true
  stream : s.stream = sent coming ++ toServer
  posted : s.posted = queued.map fun x =>
    (x.1.1, x.1.2.received (requestPayload x.1.2))
  channel : s.channel = waiting.map fun x => (x.1.1, x.2)
  written : s.written = done.flatMap fun x => buildResponse x.2 x.1.1
  plain : ∀ x ∈ queued, plain x = true
  direct : Direct kernel s.handler (queued ++ coming) s'
  perm : (done ++ waiting ++ (queued ++ coming)).Perm served
  order : (done ++ waiting ++ (queued ++ coming)).filter Connection.plain =
    served.filter Connection.plain

/-- The listener takes what the client has written for its calls, and nothing
behind it. -/
def Within (toServer : List Byte) (s : Connection κ) (event : Event)
    (_ : Connection κ) : Prop :=
  event = .receive → toServer.length < s.stream.length

/-- All that the client has written is received, handled and answered. -/
structure Over (toServer : List Byte) (s : Connection κ) : Prop where
  stream : s.stream = toServer
  posted : s.posted = []
  channel : s.channel = []

section

variable {kernel : Kernel κ} {s t : Connection κ} {s' : RequestHandler κ}
  {toServer : List Byte} {served done waiting queued coming : List Served}

theorem proc_received (buf : List Byte) (req : Request) :
    (req.received buf).proc = req.proc := by
  cases req <;> rfl

theorem sent_length_pos (x : Served) (coming : List Served) :
    0 < (sent (x :: coming)).length := by
  rw [sent, List.flatMap_cons, buildRequest_eq]
  simp only [List.length_append]
  have hid : 0 < (toNetBytes x.1.1.inner).length := Nat.zero_lt_succ _
  omega

theorem carries_create (toServer : List Byte) {handler : RequestHandler κ}
    (hdirect : Direct kernel handler served s') :
    Carries kernel s' toServer served
      (create (sent served ++ toServer) handler) [] [] [] served where
  listening := rfl
  stream := rfl
  posted := rfl
  channel := rfl
  written := rfl
  plain _ hx := absurd hx List.not_mem_nil
  direct := hdirect
  perm := List.Perm.refl _
  order := rfl

theorem Carries.requestReceive {x : Served}
    (hfits : (buildRequest x.1.2 x.1.1).length ≤ maxSize ∧ x.1.2.OutFits)
    (h : Carries kernel s' toServer served s done waiting queued
      (x :: coming)) :
    Server.requestReceive s.stream = some (.request x.1.1
      (x.1.2.received (requestPayload x.1.2)), sent coming ++ toServer) := by
  rw [h.stream, sent, List.flatMap_cons, List.append_assoc]
  exact requestReceive_message hfits.1 hfits.2 _

theorem Carries.within {x : Served}
    (h : Carries kernel s' toServer served s done waiting queued
      (x :: coming)) : s.Within toServer .receive t := by
  intro _
  have hpos := sent_length_pos x coming
  rw [h.stream, List.length_append]
  omega

/-- A request is received and posted to the pool. -/
theorem Carries.receive {x : Served} (hplain : Connection.plain x = true)
    (hfits : (buildRequest x.1.2 x.1.1).length ≤ maxSize ∧ x.1.2.OutFits)
    (h : Carries kernel s' toServer served s done waiting queued
      (x :: coming)) :
    ∃ t, s.step kernel .receive = some t ∧
      Carries kernel s' toServer served t done waiting (queued ++ [x])
        coming := by
  have hne : x.1.2.proc ≠ .ping := bne_iff_ne.mp hplain
  simp only [Connection.step, h.listening, ↓reduceIte,
    h.requestReceive hfits, proc_received, if_neg hne]
  refine ⟨_, rfl, ?_⟩
  exact {
    listening := rfl
    stream := rfl
    posted := by
      rw [List.map_append, ← h.posted]
      rfl
    channel := h.channel
    written := h.written
    plain := by
      intro y hy
      rcases List.mem_append.mp hy with hold | hnew
      · exact h.plain y hold
      · rw [List.mem_singleton.mp hnew]
        exact hplain
    direct := by
      rw [List.append_assoc]
      exact h.direct
    perm := by
      rw [List.append_assoc queued]
      exact h.perm
    order := by
      rw [List.append_assoc queued]
      exact h.order }

/-- A ping is received and answered. -/
theorem Carries.receive_ping {x : Served} (hping : x.1.2.proc = .ping)
    (hfits : (buildRequest x.1.2 x.1.1).length ≤ maxSize ∧ x.1.2.OutFits)
    (h : Carries kernel s' toServer served s done waiting queued
      (x :: coming)) :
    ∃ t, s.step kernel .receive = some t ∧
      Carries kernel s' toServer served t done (waiting ++ [x]) queued
        coming := by
  obtain ⟨hreq, hdirect⟩ := Direct.of_ping hping h.direct
  have hmove : done ++ (waiting ++ [x]) ++ (queued ++ coming) =
      done ++ waiting ++ (x :: (queued ++ coming)) := by
    simp only [List.append_assoc, List.cons_append, List.nil_append]
  have hnot : Connection.plain x = false := by simp [Connection.plain, hping]
  simp only [Connection.step, h.listening, ↓reduceIte,
    h.requestReceive hfits, proc_received, if_pos hping]
  rw [handleRequest, handleReq_received, hreq]
  refine ⟨_, rfl, ?_⟩
  exact {
    listening := rfl
    stream := rfl
    posted := h.posted
    channel := by
      rw [List.map_append, ← h.channel]
      rfl
    written := h.written
    plain := h.plain
    direct := hdirect
    perm := by
      rw [hmove]
      exact (List.perm_middle.symm.append_left _).trans h.perm
    order := by
      rw [hmove, ← h.order]
      simp only [List.filter_append, List.filter_cons, hnot,
        Bool.false_eq_true, ↓reduceIte] }

/-- The pool handles the oldest of its requests. -/
theorem Carries.handle {x : Served}
    (h : Carries kernel s' toServer served s done waiting (x :: queued)
      coming) :
    ∃ t, s.step kernel .handle = some t ∧
      Carries kernel s' toServer served t done (waiting ++ [x]) queued
        coming := by
  have hdirect := h.direct
  rw [Direct, List.cons_append, List.map_cons] at hdirect
  cases hdirect with
  | @cons _ handler _ _ _ hstep _ hrest =>
      have hreq := step_eq_some.mp hstep
      simp only [step, h.posted, List.map_cons]
      rw [handleRequest, handleReq_received, hreq]
      refine ⟨_, rfl, ?_⟩
      have hmove : done ++ (waiting ++ [x]) ++ (queued ++ coming) =
          done ++ waiting ++ (x :: queued ++ coming) := by
        simp only [List.append_assoc, List.cons_append, List.nil_append]
      exact {
        listening := h.listening
        stream := h.stream
        posted := rfl
        channel := by
          rw [List.map_append, ← h.channel]
          rfl
        written := h.written
        plain := fun y hy => h.plain y (List.mem_cons_of_mem _ hy)
        direct := hrest
        perm := hmove ▸ h.perm
        order := hmove ▸ h.order }

/-- The oldest response is written. -/
theorem Carries.send {x : Served}
    (h : Carries kernel s' toServer served s done (x :: waiting) queued
      coming) :
    ∃ t, s.step kernel .send = some t ∧
      Carries kernel s' toServer served t (done ++ [x]) waiting queued
        coming := by
  simp only [step, h.channel, List.map_cons]
  refine ⟨_, rfl, ?_⟩
  have hmove : done ++ [x] ++ waiting ++ (queued ++ coming) =
      done ++ (x :: waiting) ++ (queued ++ coming) := by
    simp only [List.append_assoc, List.cons_append, List.nil_append]
  exact {
    listening := h.listening
    stream := h.stream
    posted := h.posted
    channel := rfl
    written := by
      rw [List.flatMap_append, ← h.written]
      simp
    plain := h.plain
    direct := h.direct
    perm := hmove ▸ h.perm
    order := hmove ▸ h.order }

/-- A step moves a call on. -/
theorem Carries.step {event : Event}
    (hfits : ∀ x ∈ served, (buildRequest x.1.2 x.1.1).length ≤ maxSize ∧
      x.1.2.OutFits)
    (hstep : s.step kernel event = some t) (hwithin : s.Within toServer event t)
    (h : Carries kernel s' toServer served s done waiting queued coming) :
    ∃ done' waiting' queued' coming',
      Carries kernel s' toServer served t done' waiting' queued' coming' ∧
      3 * coming'.length + 2 * queued'.length + waiting'.length <
        3 * coming.length + 2 * queued.length + waiting.length := by
  cases event with
  | receive =>
      cases coming with
      | nil =>
          have hlt := hwithin rfl
          rw [h.stream] at hlt
          exact absurd hlt (Nat.lt_irrefl _)
      | cons x coming =>
          have hmem : x ∈ served := h.perm.subset
            (List.mem_append_right _ (List.mem_append_right _
              List.mem_cons_self))
          by_cases hping : x.1.2.proc = .ping
          · obtain ⟨t', ht', hanswered⟩ := h.receive_ping hping (hfits x hmem)
            obtain rfl := Option.some.inj (hstep.symm.trans ht')
            refine ⟨_, _, _, _, hanswered, ?_⟩
            simp only [List.length_append, List.length_cons, List.length_nil]
            omega
          · obtain ⟨t', ht', hposted⟩ :=
              h.receive (bne_iff_ne.mpr hping) (hfits x hmem)
            obtain rfl := Option.some.inj (hstep.symm.trans ht')
            refine ⟨_, _, _, _, hposted, ?_⟩
            simp only [List.length_append, List.length_cons, List.length_nil]
            omega
  | handle =>
      cases queued with
      | nil => simp [Connection.step, h.posted] at hstep
      | cons x queued =>
          obtain ⟨t', ht', hcarries⟩ := h.handle
          obtain rfl := Option.some.inj (hstep.symm.trans ht')
          refine ⟨_, _, _, _, hcarries, ?_⟩
          simp only [List.length_append, List.length_cons, List.length_nil]
          omega
  | send =>
      cases waiting with
      | nil => simp [Connection.step, h.channel] at hstep
      | cons x waiting =>
          obtain ⟨t', ht', hcarries⟩ := h.send
          obtain rfl := Option.some.inj (hstep.symm.trans ht')
          refine ⟨_, _, _, _, hcarries, ?_⟩
          simp only [List.length_cons]
          omega

theorem Carries.runs {events : List Event}
    (hfits : ∀ x ∈ served, (buildRequest x.1.2 x.1.1).length ≤ maxSize ∧
      x.1.2.OutFits)
    (hruns : Runs (Connection.step kernel) (Within toServer) s events t)
    (h : Carries kernel s' toServer served s done waiting queued coming) :
    (∃ done' waiting' queued' coming',
      Carries kernel s' toServer served t done' waiting' queued' coming') ∧
    events.length ≤
      3 * coming.length + 2 * queued.length + waiting.length := by
  induction hruns generalizing done waiting queued coming with
  | nil s => exact ⟨⟨_, _, _, _, h⟩, Nat.zero_le _⟩
  | cons hstep hwithin hrest ih =>
      obtain ⟨_, _, _, _, hnext, hless⟩ := h.step hfits hstep hwithin
      obtain ⟨hend, hlength⟩ := ih hnext
      refine ⟨hend, ?_⟩
      rw [List.length_cons]
      omega

/-- Until all is over, some coroutine can go on. -/
theorem Carries.enabled
    (hfits : ∀ x ∈ served, (buildRequest x.1.2 x.1.1).length ≤ maxSize ∧
      x.1.2.OutFits)
    (h : Carries kernel s' toServer served s done waiting queued coming)
    (hover : ¬ s.Over toServer) :
    ∃ event t, s.step kernel event = some t ∧ s.Within toServer event t := by
  cases waiting with
  | cons x waiting =>
      obtain ⟨t, ht, -⟩ := h.send
      exact ⟨.send, t, ht, nofun⟩
  | nil =>
      cases queued with
      | cons x queued =>
          obtain ⟨t, ht, -⟩ := h.handle
          exact ⟨.handle, t, ht, nofun⟩
      | nil =>
          cases coming with
          | nil => exact absurd ⟨h.stream, h.posted, h.channel⟩ hover
          | cons x coming =>
              have hmem : x ∈ served := h.perm.subset
                (List.mem_append_right _ List.mem_cons_self)
              have hreceives : ∃ t, s.step kernel .receive = some t := by
                by_cases hping : x.1.2.proc = .ping
                · obtain ⟨t, ht, -⟩ := h.receive_ping hping (hfits x hmem)
                  exact ⟨t, ht⟩
                · obtain ⟨t, ht, -⟩ :=
                    h.receive (bne_iff_ne.mpr hping) (hfits x hmem)
                  exact ⟨t, ht⟩
              obtain ⟨t, ht⟩ := hreceives
              exact ⟨.receive, t, ht, h.within⟩

/-- When all is over, every call has its response. -/
theorem Carries.over
    (h : Carries kernel s' toServer served s done waiting queued coming)
    (hover : s.Over toServer) :
    waiting ++ (queued ++ coming) = [] ∧ s.handler = s' := by
  have hwaiting : waiting = [] :=
    List.map_eq_nil_iff.mp (h.channel.symm.trans hover.channel)
  have hqueued : queued = [] :=
    List.map_eq_nil_iff.mp (h.posted.symm.trans hover.posted)
  have hcoming : coming = [] := by
    cases coming with
    | nil => rfl
    | cons x coming =>
        have hpos := sent_length_pos x coming
        have hlength := congrArg List.length (h.stream.symm.trans hover.stream)
        rw [List.length_append] at hlength
        omega
  subst hwaiting hqueued hcoming
  have hdirect := h.direct
  cases hdirect
  exact ⟨rfl, rfl⟩

end

end Connection

section

variable {kernel : Kernel κ} {s s' : RequestHandler κ}

/-- A session over the sockets is transparent.  In every state of the
connection, what is written so far are responses to some of the calls, and the
client takes just these bytes and hands each of these calls the result that its
handler gives when the handlers are called directly, one call after the other.
The responses come in the order of the calls, but for those to pings.  The
connection goes on until every call has its response and nothing behind the
calls is read, and then the server is left as the direct calls leave it. -/
theorem session_transparent (h : kernel.SetsErrno)
    {calls : List (Rpc.Id × Request)} {responses : List FallibleResponse}
    (hids : (calls.map Prod.fst).Nodup)
    (hcalls : ∀ c ∈ calls, (buildRequest c.2 c.1).length ≤ maxSize ∧
      c.2.OutFits)
    (hserve : serve (handleReq kernel) (calls.map Prod.snd) s =
      some (responses, s'))
    (hsized : ∀ response ∈ responses, Sized response)
    (toServer toClient : List Byte) {events : List Connection.Event}
    {t : Connection κ}
    (hruns : Runs (Connection.step kernel) (Connection.Within toServer)
      (.create (calls.flatMap (fun c => buildRequest c.2 c.1) ++ toServer) s)
      events t) :
    ∃ done rest, (done ++ rest).Perm (calls.zip responses) ∧
      (done ++ rest).filter Connection.plain =
        (calls.zip responses).filter Connection.plain ∧
      (∃ handled,
        receiveResponses (fun id => calls.lookup id) done.length
          (t.written ++ toClient) = some (handled, toClient) ∧
        handled.map result =
          done.map fun x => some (x.1.1, resultOf x.2)) ∧
      (t.Over toServer → rest = [] ∧ t.handler = s') ∧
      (¬ t.Over toServer → ∃ event t', t.step kernel event = some t' ∧
        t.Within toServer event t') ∧
      events.length ≤ 3 * calls.length := by
  obtain ⟨hfst, hdirect⟩ := direct_of_serve hserve
  have hmem : ∀ x ∈ calls.zip responses, x.1 ∈ calls := fun x hx =>
    hfst ▸ List.mem_map_of_mem hx
  have hanswers := hdirect.answers h fun x hx =>
    hsized x.2 (List.of_mem_zip hx).2
  have hfits : ∀ x ∈ calls.zip responses,
      (buildRequest x.1.2 x.1.1).length ≤ maxSize ∧ x.1.2.OutFits :=
    fun x hx => hcalls x.1 (hmem x hx)
  have hsent : calls.flatMap (fun c => buildRequest c.2 c.1) =
      Connection.sent (calls.zip responses) := by
    rw [Connection.sent, ← List.flatMap_map Prod.fst
      fun c : Rpc.Id × Request => buildRequest c.2 c.1, hfst]
  rw [hsent] at hruns
  obtain ⟨⟨done, waiting, queued, coming, hcarries⟩, hlength⟩ :=
    (Connection.carries_create toServer hdirect).runs hfits hruns
  have hperm := hcarries.perm
  have horder := hcarries.order
  rw [List.append_assoc] at hperm horder
  obtain ⟨handled, hreceive, hresults⟩ := receiveResponses_messages
    (fun id => calls.lookup id) done
    (fun x hx => by
      have hx := hperm.subset (List.mem_append_left _ hx)
      exact ⟨lookup_of_nodup hids (hmem x hx), hanswers x hx⟩) toClient
  refine ⟨done, waiting ++ (queued ++ coming), hperm, horder,
    ⟨handled, ?_, hresults⟩, hcarries.over, hcarries.enabled hfits, ?_⟩
  · rw [hcarries.written]
    exact hreceive
  · have hzip : (calls.zip responses).length ≤ calls.length := by
      rw [List.length_zip]
      omega
    simp only [List.length_nil] at hlength
    omega

namespace OneFile

/-- The file is opened and written, a ping is sent, and the file is read past
its end and through a descriptor that there is not. -/
def calls : List (Rpc.Id × Request) :=
  [(⟨1⟩, .open path ⟨2⟩), (⟨2⟩, .write 3 1 [9, 9]), (⟨3⟩, .ping 5),
    (⟨4⟩, .read 3 0 [0, 0, 0, 0]), (⟨5⟩, .read 4 0 [0])]

theorem calls_sized : ∀ c ∈ calls,
    (buildRequest c.2 c.1).length ≤ maxSize ∧ c.2.OutFits := by
  intro c hc
  rcases List.mem_cons.mp hc with rfl | hc
  · exact ⟨by decide +kernel, trivial⟩
  rcases List.mem_cons.mp hc with rfl | hc
  · exact ⟨by decide +kernel, trivial⟩
  rcases List.mem_cons.mp hc with rfl | hc
  · exact ⟨by decide +kernel, trivial⟩
  rcases List.mem_cons.mp hc with rfl | hc
  · exact ⟨by decide +kernel, (by decide : (4 : Nat) ≤ maxSize)⟩
  rcases List.mem_singleton.mp hc with rfl
  exact ⟨by decide +kernel, (by decide : (1 : Nat) ≤ maxSize)⟩

def responses : List FallibleResponse :=
  [.success (.open 3), .success (.write 2), .success (.ping 5),
    .success (.read [7, 9, 9]), .failed .read Errc.badFileDescriptor]

theorem responses_sized : ∀ response ∈ responses, Sized response := by
  intro response hmem
  rcases List.mem_cons.mp hmem with rfl | hmem
  · exact (by decide : (8 : Nat) ≤ maxSize)
  rcases List.mem_cons.mp hmem with rfl | hmem
  · exact (by decide : (8 : Nat) ≤ maxSize)
  rcases List.mem_cons.mp hmem with rfl | hmem
  · exact (by decide : (8 : Nat) ≤ maxSize)
  rcases List.mem_cons.mp hmem with rfl | hmem
  · exact (by decide : (11 : Nat) ≤ maxSize)
  rcases List.mem_singleton.mp hmem with rfl
  exact (by decide : (0 : Nat) ≤ maxSize)

theorem serve_calls : serve (handleReq OneFile.kernel)
    (calls.map Prod.snd) (.create ⟨[7, 8], none⟩) =
      some (responses, .create ⟨[7, 9, 9], some 3⟩) := by
  rfl

/-- Three requests are received before the first one is handled. -/
def pinged : List Connection.Event :=
  [.receive, .receive, .receive, .send, .handle, .send, .handle, .send,
    .receive, .handle, .send, .receive, .handle, .send]

/-- The response to the ping is the first one that is written. -/
theorem runs_pinged :
    ∃ t, Runs (Connection.step OneFile.kernel) (Connection.Within [])
        (.create (calls.flatMap (fun c => buildRequest c.2 c.1) ++ [])
          (.create ⟨[7, 8], none⟩)) pinged t ∧
      t.Over [] ∧
      t.written = buildResponse (.success (.ping 5)) ⟨3⟩ ++
        buildResponse (.success (.open 3)) ⟨1⟩ ++
        buildResponse (.success (.write 2)) ⟨2⟩ ++
        buildResponse (.success (.read [7, 9, 9])) ⟨4⟩ ++
        buildResponse (.failed .read Errc.badFileDescriptor) ⟨5⟩ := by
  have hfits := calls_sized
  simp only [calls, List.forall_mem_cons] at hfits
  obtain ⟨hopen, hwrite, hping, hread, hfail, -⟩ := hfits
  have h₀ := Connection.carries_create [] (direct_of_serve serve_calls).2
  obtain ⟨t₁, hs₁, h₁⟩ := h₀.receive rfl hopen
  obtain ⟨t₂, hs₂, h₂⟩ := h₁.receive rfl hwrite
  obtain ⟨t₃, hs₃, h₃⟩ := h₂.receive_ping rfl hping
  obtain ⟨t₄, hs₄, h₄⟩ := h₃.send
  obtain ⟨t₅, hs₅, h₅⟩ := h₄.handle
  obtain ⟨t₆, hs₆, h₆⟩ := h₅.send
  obtain ⟨t₇, hs₇, h₇⟩ := h₆.handle
  obtain ⟨t₈, hs₈, h₈⟩ := h₇.send
  obtain ⟨t₉, hs₉, h₉⟩ := h₈.receive rfl hread
  obtain ⟨t₁₀, hs₁₀, h₁₀⟩ := h₉.handle
  obtain ⟨t₁₁, hs₁₁, h₁₁⟩ := h₁₀.send
  obtain ⟨t₁₂, hs₁₂, h₁₂⟩ := h₁₁.receive rfl hfail
  obtain ⟨t₁₃, hs₁₃, h₁₃⟩ := h₁₂.handle
  obtain ⟨t₁₄, hs₁₄, h₁₄⟩ := h₁₃.send
  refine ⟨t₁₄, .cons hs₁ h₀.within (.cons hs₂ h₁.within
    (.cons hs₃ h₂.within (.cons hs₄ nofun (.cons hs₅ nofun
    (.cons hs₆ nofun (.cons hs₇ nofun (.cons hs₈ nofun
    (.cons hs₉ h₈.within (.cons hs₁₀ nofun (.cons hs₁₁ nofun
    (.cons hs₁₂ h₁₁.within (.cons hs₁₃ nofun (.cons hs₁₄ nofun
    (.nil _)))))))))))))), ⟨h₁₄.stream, h₁₄.posted, h₁₄.channel⟩, ?_⟩
  rw [h₁₄.written]
  simp

theorem session_transparent_pinged :
    ∃ t handled, Runs (Connection.step OneFile.kernel) (Connection.Within [])
        (.create (calls.flatMap (fun c => buildRequest c.2 c.1) ++ [])
          (.create ⟨[7, 8], none⟩)) pinged t ∧
      t.handler = .create ⟨[7, 9, 9], some 3⟩ ∧
      receiveResponses (fun id => calls.lookup id) 5 (t.written ++ []) =
        some (handled, []) ∧
      (handled.map result).Perm [some (⟨1⟩, .ok (.open 3)),
        some (⟨2⟩, .ok (.write 2)), some (⟨3⟩, .ok (.ping 5)),
        some (⟨4⟩, .ok (.read [7, 9, 9])),
        some (⟨5⟩, .error Errc.badFileDescriptor)] := by
  obtain ⟨t, hruns, hover, -⟩ := runs_pinged
  obtain ⟨done, rest, hperm, -, ⟨handled, hreceive, hresults⟩, hend, -⟩ :=
    session_transparent setsErrno (by decide) calls_sized serve_calls
      responses_sized [] [] hruns
  obtain ⟨rfl, hhandler⟩ := hend hover
  rw [List.append_nil] at hperm
  refine ⟨t, handled, hruns, hhandler, ?_, ?_⟩
  · rw [hperm.length_eq] at hreceive
    exact hreceive
  · rw [hresults]
    exact hperm.map _

end OneFile

end

end Server

end Rpc

end Madbfs
