/-
The proxy transport, the socket and the server as one object that clients call.
The handlers of the server run one at a time, so they are a sequential run; a
request takes place when its handler does.
-/
import Madbfs.Linear
import Madbfs.Rpc.Pipeline
import Madbfs.Server.Wire

namespace Madbfs

namespace Rpc

namespace Server

open Program Linear

variable {κ : Type}

abbrev Seen : Type :=
  Action Ticket Request Result

/-- Both ends of a connection.  `trace` lists what happened to the calls of
`send` in the order of time. -/
structure System (κ : Type) where
  transport : Transport
  handlers : RequestHandler κ
  trace : List Seen

def System.create (k : κ) : System κ where
  transport := .create
  handlers := .create k
  trace := []

/-- A request takes place with the result of its handler. -/
def commit (a : Answer) : Seen :=
  .commit a.ticket a.ticket.req (resultOf a.response)

def ret (r : Ticket × Result) : Seen :=
  .ret r.1 r.2

/-- What a step does to the calls. -/
def actions (event : Transport.Event) (s s' : Transport) : List Seen :=
  (match event with
    | .send req _ =>
        if s.running then
          [.call ⟨s.serials, ⟨s.counter + 1⟩, req⟩ req]
        else []
    | _ => []) ++
  (s'.computed.drop s.computed.length).map commit ++
    (s'.returned.drop s.returned.length).map ret

/-- The pool has one thread, which takes the requests in their order. -/
def System.handle (kernel : Kernel κ) (s : System κ) :
    Transport.Event → Option (RequestHandler κ)
  | .finish 0 response =>
      match s.transport.handlers with
      | t :: _ => step kernel s.handlers (t.req, response)
      | [] => none
  | .finish _ _ => none
  | _ => some s.handlers

def System.step (kernel : Kernel κ) (s : System κ)
    (event : Transport.Event) : Option (System κ) := do
  let handlers ← s.handle kernel event
  let transport ← s.transport.step event
  return ⟨transport, handlers,
    s.trace ++ actions event s.transport transport⟩

/-- What is assumed about a step: the counter does not come round to an id that
is outstanding, and a response fits into a vector. -/
def System.Assumed (s : System κ) (event : Transport.Event) (_ : System κ) :
    Prop :=
  match event with
  | .send _ _ => s.transport.running = true →
      ∀ t ∈ s.transport.outstanding, t.id ≠ ⟨s.transport.counter + 1⟩
  | .finish _ response => Sized response
  | _ => True

/-- The errors that the transport gives of its own accord. -/
def transportErrors : Transport.Event → List Errc
  | .writeFailed err => [err]
  | .payloadFailed err => [err]
  | .stop status => [status]
  | _ => []

/-- The errors that do not tell whether a request took place. -/
def lost (events : List Transport.Event) : List Errc :=
  [Errc.timedOut, Errc.brokenPipe, Errc.operationCanceled] ++
    events.flatMap transportErrors

def Definite (errors : List Errc) (result : Result) : Prop :=
  ∀ err, result = .error err → err ∉ errors

/-- A promise is set to what the handler has answered, or to an error of the
transport. -/
def Accounted (errors : List Errc) (computed : List Answer)
    (v : Ticket × Result) : Prop :=
  (∃ response, ⟨v.1, response⟩ ∈ computed ∧ v.2 = resultOf response) ∨
    ∃ err ∈ errors, v.2 = .error err

/-- A response is received as it was computed. -/
theorem received_eq {req : Request} {response : FallibleResponse}
    (hanswers : Answers req response) :
    Transport.received req response = resultOf response := by
  obtain ⟨hproc, hbody⟩ := hanswers
  rw [Transport.received]
  cases response with
  | failed proc status =>
      obtain ⟨hpos, hlt⟩ := hbody
      have hstatus : narrowStatus status = status := by
        rw [narrowStatus_eq, Int.emod_eq_of_lt (Int.le_of_lt hpos) hlt]
      change (if narrowStatus status ≠ ⟨0⟩ then _ else _) = _
      rw [if_pos (Transport.narrowStatus_errno hpos hlt)]
      exact congrArg Except.error hstatus
  | success value =>
      obtain ⟨hfits, hsize⟩ := hbody
      have hparse : (parseResponse (responsePayload value) req).1 =
          .ok (value.received req) :=
        (Takes.responseOf hproc hfits).on_create
          (Nat.lt_of_le_of_lt hsize (by decide))
      have hstatus : narrowStatus (FallibleResponse.success value).status =
          ⟨0⟩ :=
        rfl
      rw [if_neg (not_not_intro hstatus), if_neg (not_not_intro hproc)]
      simp only [FallibleResponse.payload, hparse]
      rw [Response.view_received hfits]
      rfl

/-- What a step does that sends no new request: requests move on, those of
`new` are computed and those of `rets` return. -/
structure Goes (errors : List Errc) (s s' : Transport) (new : List Answer)
    (rets : List (Ticket × Result)) : Prop where
  serials : s'.serials = s.serials
  pipeline : ∀ t, s'.pipeline.count t ≤ s.pipeline.count t
  computed : s'.computed = s.computed ++ new
  returned : s'.returned = s.returned ++ rets
  values : ∀ v ∈ s'.values, v ∈ s.values ∨ Accounted errors s.computed v
  rets : ∀ v ∈ rets, v ∈ s.values ∨ Accounted errors s.computed v

section Goes

variable {errors : List Errc} {s s' s'' : Transport} {new : List Answer}
  {rets rets' : List (Ticket × Result)}

theorem Goes.of_eq (hserials : s'.serials = s.serials)
    (hpipeline : ∀ t, s'.pipeline.count t ≤ s.pipeline.count t)
    (hcomputed : s'.computed = s.computed)
    (hreturned : s'.returned = s.returned) (hvalues : s'.values = s.values) :
    Goes errors s s' [] [] where
  serials := hserials
  pipeline := hpipeline
  computed := hcomputed.trans (List.append_nil _).symm
  returned := hreturned.trans (List.append_nil _).symm
  values := fun _ hv => .inl (hvalues ▸ hv)
  rets := List.forall_mem_nil _

theorem Goes.trans (h : Goes errors s s' [] rets)
    (h' : Goes errors s' s'' new rets') :
    Goes errors s s'' new (rets ++ rets') := by
  have hcomputed : s'.computed = s.computed :=
    h.computed.trans (List.append_nil _)
  have hback : ∀ v, v ∈ s'.values ∨ Accounted errors s'.computed v →
      v ∈ s.values ∨ Accounted errors s.computed v := by
    rintro v (hv | hv)
    · exact h.values v hv
    · exact .inr (hcomputed ▸ hv)
  constructor
  case serials => exact h'.serials.trans h.serials
  case pipeline => exact fun t => (h'.pipeline t).trans (h.pipeline t)
  case computed => rw [h'.computed, hcomputed]
  case returned => rw [h'.returned, h.returned, List.append_assoc]
  case values => exact fun v hv => hback v (h'.values v hv)
  case rets =>
    intro v hv
    rcases List.mem_append.mp hv with hv | hv
    · exact h.rets v hv
    · exact hback v (h'.rets v hv)

theorem goes_refl : Goes errors s s [] [] :=
  .of_eq rfl (fun _ => Nat.le_refl _) rfl rfl rfl

/-- The fields that are not on the way of a request to its execution. -/
theorem aside_goes (s : Transport) (running : Bool) (receiver : Receiver)
    (toClient answers : List Answer) (served : List Ticket)
    (requests : List Ticket) (waiting : List Pending) :
    Goes errors s { s with
      running := running
      receiver := receiver
      toClient := toClient
      answers := answers
      served := served
      requests := requests
      waiting := waiting } [] [] :=
  .of_eq rfl (fun _ => Nat.le_refl _) rfl rfl rfl

theorem sender_goes (s : Transport) {next : Sender}
    (hnext : next.tickets = []) :
    Goes errors s { s with sender := next } [] [] :=
  .of_eq rfl (Transport.sender_flows s hnext).pipeline rfl rfl rfl

/-- Promises that are set to accounted results. -/
theorem values_goes (s : Transport) (requests : List Ticket)
    (receiver : Receiver) {vs : List (Ticket × Result)}
    (hvs : ∀ v ∈ vs, Accounted errors s.computed v) :
    Goes errors s { s with
      values := s.values ++ vs
      requests := requests
      receiver := receiver } [] [] where
  serials := rfl
  pipeline := fun _ => Nat.le_refl _
  computed := (List.append_nil _).symm
  returned := (List.append_nil _).symm
  values := fun v hv => (List.mem_append.mp hv).imp_right (hvs v)
  rets := List.forall_mem_nil _

theorem failOne_goes (s : Transport) (id : Id) {err : Errc}
    (herr : err ∈ errors) : Goes errors s (s.failOne id err) [] [] := by
  rw [Transport.failOne]
  cases Transport.entry s.requests id with
  | none => exact goes_refl
  | some t =>
      apply values_goes s _ s.receiver
      intro v hv
      rw [List.mem_singleton.mp hv]
      exact .inr ⟨err, herr, rfl⟩

theorem failAll_goes (s : Transport) {err : Errc} (herr : err ∈ errors) :
    Goes errors s (s.failAll err) [] [] := by
  apply values_goes s _ s.receiver
  intro v hv
  obtain ⟨t, -, rfl⟩ := List.mem_map.mp hv
  exact .inr ⟨err, herr, rfl⟩

theorem cancelChannel_goes (s : Transport) (herr : Errc.brokenPipe ∈ errors) :
    Goes errors s s.cancelChannel []
      (s.channel.map fun p => (p.ticket, .error Errc.brokenPipe)) where
  serials := rfl
  pipeline := (Transport.cancelChannel_flows s).pipeline
  computed := (List.append_nil _).symm
  returned := rfl
  values := fun _ hv => .inl hv
  rets := fun v hv => by
    obtain ⟨p, -, rfl⟩ := List.mem_map.mp hv
    exact .inr (.inr ⟨Errc.brokenPipe, herr, rfl⟩)

theorem return_goes (s : Transport) (waiting : List Pending) {t : Ticket}
    {result : Result}
    (hresult : (t, result) ∈ s.values ∨
      Accounted errors s.computed (t, result)) :
    Goes errors s { s with
      waiting := waiting, returned := s.returned ++ [(t, result)] } []
        [(t, result)] where
  serials := rfl
  pipeline := fun _ => Nat.le_refl _
  computed := (List.append_nil _).symm
  returned := rfl
  values := fun _ hv => .inl hv
  rets := fun _ hv => List.mem_singleton.mp hv ▸ hresult

theorem sendResponse_goes (s : Transport) (a : Answer) (rest : List Answer)
    (sent : Bool) :
    Goes errors s ({ s with answers := rest }.sendResponse a sent) [] [] := by
  rw [Transport.sendResponse]
  cases Transport.entry s.served a.ticket.id with
  | none =>
      exact aside_goes s s.running s.receiver _ _ _ s.requests s.waiting
  | some old =>
      exact aside_goes s s.running s.receiver _ _ _ s.requests s.waiting

theorem timedOut_goes (s : Transport) (t : Ticket)
    (herr : Errc.timedOut ∈ errors) :
    ∃ result, Goes errors s (s.timedOut t) [] [(t, result)] := by
  refine ⟨_, (failOne_goes s t.id herr).trans
    (return_goes (s.failOne t.id Errc.timedOut) _ ?_)⟩
  cases hfuture : (s.failOne t.id Errc.timedOut).future t with
  | none => exact .inr (.inr ⟨Errc.timedOut, herr, rfl⟩)
  | some result => exact .inl (Transport.future_mem hfuture)

/-- A handler of the pool ends. -/
def finishes : Transport.Event → Bool
  | .finish _ _ => true
  | _ => false

/-- The answers that a step computes: a ping is answered when it arrives, and
a handler of the pool ends. -/
inductive Computes (s : Transport) : Transport.Event → List Answer → Prop
  | nothing {event : Transport.Event} (hevent : finishes event = false) :
      Computes s event []
  | ping {t : Ticket} {num : UInt64} (ht : t.req = .ping num) :
      Computes s .arrive [⟨t, .success (.ping num)⟩]
  | finish {i : Nat} {t : Ticket} {response : FallibleResponse}
      (ht : s.handlers[i]? = some t) :
      Computes s (.finish i response) [⟨t, response⟩]

theorem arrive_goes {t : Ticket} {rest : List Ticket}
    (hserver : s.toServer = t :: rest) :
    ∃ new, Goes errors s ({ s with toServer := rest }.arrive t) new [] ∧
      Computes s .arrive new := by
  have hpipeline := (Transport.arrive_flows hserver).pipeline
  rw [Transport.arrive] at hpipeline ⊢
  cases hentry : Transport.entry s.served t.id with
  | some old =>
      simp only [hentry] at hpipeline ⊢
      exact ⟨[], .of_eq rfl hpipeline rfl rfl rfl, .nothing rfl⟩
  | none =>
      simp only [hentry] at hpipeline ⊢
      split
      next num hreq =>
        simp only [hreq] at hpipeline
        exact ⟨_, ⟨rfl, hpipeline, rfl, (List.append_nil _).symm,
          fun _ hv => .inl hv, List.forall_mem_nil _⟩, .ping hreq⟩
      next hreq =>
        refine ⟨[], .of_eq rfl (fun u => ?_) rfl rfl rfl, .nothing rfl⟩
        simp only [Transport.pipeline, hserver, List.count_append,
          List.count_cons, List.count_nil]
        omega

theorem finish_goes {i : Nat} {t : Ticket} (response : FallibleResponse)
    (ht : s.handlers[i]? = some t) :
    Goes errors s { s with
      handlers := s.handlers.eraseIdx i
      answers := s.answers ++ [⟨t, response⟩]
      computed := s.computed ++ [⟨t, response⟩] } [⟨t, response⟩] [] where
  serials := rfl
  pipeline := fun u => by
    obtain ⟨hi, rfl⟩ := List.getElem?_eq_some_iff.mp ht
    have hperm := (List.getElem_cons_eraseIdx_perm hi).count_eq u
    rw [List.count_cons] at hperm
    simp only [Transport.pipeline, List.map_append, List.map_cons,
      List.map_nil, List.count_append, List.count_cons, List.count_nil]
    omega
  computed := rfl
  returned := (List.append_nil _).symm
  values := fun _ hv => .inl hv
  rets := List.forall_mem_nil _

theorem take_goes {p : Pending} {rest : List Pending}
    (hsender : s.sender = .receiving) (hchannel : s.channel = p :: rest) :
    Goes errors s { s with
      sender := .writing p.ticket
      channel := rest
      waiting := s.waiting ++ [p] } [] [] := by
  refine .of_eq rfl (fun u => ?_) rfl rfl rfl
  simp only [Transport.pipeline, hchannel, hsender, Sender.tickets,
    List.map_cons, List.count_append, List.count_cons, List.count_nil]
  omega

theorem wrote_goes {t : Ticket} (hsender : s.sender = .writing t) :
    Goes errors s { s with
      sender := s.nextSend, toServer := s.toServer ++ [t] } [] [] := by
  have hwriting : s.sender.tickets = [t] := by
    rw [hsender]
    rfl
  refine .of_eq rfl (fun u => ?_) rfl rfl rfl
  simp only [Transport.pipeline, Transport.nextSend_empty, hwriting,
    List.count_append, List.count_nil]
  omega

theorem header_goes (hstep : s.step .header = some s') :
    Goes errors s s' [] [] := by
  simp only [Transport.step] at hstep
  split at hstep
  next a rest hreceiver hclient =>
    split at hstep <;> cases hstep
    next =>
      exact aside_goes s s.running s.nextReceive rest s.answers s.served
        s.requests s.waiting
    next t hentry =>
      exact aside_goes s s.running (.payload t a) rest s.answers s.served _
        s.waiting
  next => cases hstep

/-- The result that a promise is set to is the one that was computed. -/
theorem payload_goes (hm : s.Matched) {t : Ticket} {a : Answer}
    (hreceiver : s.receiver = .payload t a) :
    Goes errors s { s with
      values := s.values ++ [(t, Transport.received t.req a.response)]
      receiver := s.nextReceive } [] [] := by
  apply values_goes s s.requests s.nextReceive
  intro v hv
  rw [List.mem_singleton.mp hv]
  have hflight : a ∈ s.inFlight := by
    simp [Transport.inFlight, hreceiver, Receiver.answers]
  have hcomputed := hm.in_flight a hflight
  have hanswers := hm.answered a hcomputed
  have hticket := hm.paired t a hreceiver
  rw [hticket] at hanswers
  refine .inl ⟨a.response, ?_, received_eq hanswers⟩
  rw [← hticket]
  exact hcomputed

/-- All promises are set to an error, and the channel is closed. -/
theorem shut_goes (s : Transport) (receiver : Receiver) {err : Errc}
    (herr : err ∈ errors) (hpipe : Errc.brokenPipe ∈ errors) :
    ∃ rets, Goes errors s { (s.failAll err).cancelChannel with
      running := false, receiver := receiver } [] rets :=
  ⟨_, ((failAll_goes s herr).trans (cancelChannel_goes _ hpipe)).trans
    (aside_goes _ false receiver s.toClient s.answers s.served [] s.waiting)⟩

theorem timeout_goes {i : Nat} (hstep : s.step (.timeout i) = some s')
    (herr : Errc.timedOut ∈ errors) : ∃ rets, Goes errors s s' [] rets := by
  simp only [Transport.step] at hstep
  split at hstep <;> cases hstep
  next t hi =>
    obtain ⟨result, hgoes⟩ := timedOut_goes
      { s with waiting := s.waiting.eraseIdx i } t herr
    exact ⟨_, (aside_goes s s.running s.receiver s.toClient s.answers s.served
      s.requests _).trans hgoes⟩

theorem resume_goes {i : Nat} (hstep : s.step (.resume i) = some s') :
    ∃ rets, Goes errors s s' [] rets := by
  simp only [Transport.step] at hstep
  split at hstep
  next t timed hi =>
    obtain ⟨result, hfuture, rfl⟩ := Option.map_eq_some_iff.mp hstep
    exact ⟨_, return_goes s _ (.inl (Transport.future_mem hfuture))⟩
  next => cases hstep

theorem goes_of_step (hm : s.Matched) (hown : ∀ err ∈ lost [], err ∈ errors)
    {event : Transport.Event} (herrors : ∀ err ∈ transportErrors event,
      err ∈ errors)
    (hstep : s.step event = some s')
    (hsend : ∀ req timed, event ≠ .send req timed) :
    ∃ new rets, Goes errors s s' new rets ∧ Computes s event new := by
  have hpipe : Errc.brokenPipe ∈ errors := hown _ (by decide)
  -- most steps compute nothing
  suffices h : (∃ rets, Goes errors s s' [] rets) ∧ finishes event = false ∨
      ∃ new rets, Goes errors s s' new rets ∧ Computes s event new by
    rcases h with ⟨⟨rets, hgoes⟩, hevent⟩ | h
    · exact ⟨[], rets, hgoes, .nothing hevent⟩
    · exact h
  cases event
  case send req timed => exact absurd rfl (hsend req timed)
  case header => exact .inl ⟨⟨[], header_goes hstep⟩, rfl⟩
  case timeout i =>
    exact .inl ⟨timeout_goes hstep (hown _ (by decide)), rfl⟩
  case resume i => exact .inl ⟨resume_goes hstep, rfl⟩
  all_goals simp only [Transport.step] at hstep
  case start =>
    split at hstep <;> cases hstep
    exact .inl ⟨⟨[], .of_eq rfl (Transport.sender_flows s rfl).pipeline rfl rfl
      rfl⟩, rfl⟩
  case take =>
    split at hstep <;> cases hstep
    next p rest hsender hchannel =>
      exact .inl ⟨⟨[], take_goes hsender hchannel⟩, rfl⟩
  case wrote =>
    split at hstep <;> cases hstep
    next t hsender => exact .inl ⟨⟨[], wrote_goes hsender⟩, rfl⟩
  case writeFailed err =>
    split at hstep <;> cases hstep
    next t hsender =>
      have herr := herrors err List.mem_cons_self
      exact .inl ⟨⟨[], (failOne_goes s t.id herr).trans
        (sender_goes _ s.nextSend_empty)⟩, rfl⟩
  case arrive =>
    split at hstep <;> cases hstep
    next t rest hserver =>
      obtain ⟨new, hgoes, hcomputes⟩ := arrive_goes hserver
      exact .inr ⟨new, [], hgoes, hcomputes⟩
  case finish i response =>
    obtain ⟨t, ht, rfl⟩ := Option.map_eq_some_iff.mp hstep
    exact .inr ⟨_, [], finish_goes response ht, .finish ht⟩
  case answer =>
    split at hstep <;> cases hstep
    next a rest hanswers =>
      exact .inl ⟨⟨[], sendResponse_goes s a rest true⟩, rfl⟩
  case answerLost =>
    split at hstep <;> cases hstep
    next a rest hanswers =>
      exact .inl ⟨⟨[], sendResponse_goes s a rest false⟩, rfl⟩
  case serverFailed =>
    cases hstep
    exact .inl ⟨⟨[], aside_goes s s.running s.receiver s.toClient [] _
      s.requests s.waiting⟩, rfl⟩
  case headerFailed =>
    split at hstep <;> cases hstep
    exact .inl ⟨⟨[], aside_goes s s.running .ended s.toClient s.answers
      s.served s.requests s.waiting⟩, rfl⟩
  case payload =>
    split at hstep <;> cases hstep
    next t a hreceiver => exact .inl ⟨⟨[], payload_goes hm hreceiver⟩, rfl⟩
  case payloadFailed err =>
    split at hstep <;> cases hstep
    next t a hreceiver =>
      refine .inl ⟨⟨[], values_goes s s.requests s.nextReceive ?_⟩, rfl⟩
      intro v hv
      rw [List.mem_singleton.mp hv]
      exact .inr ⟨err, herrors err List.mem_cons_self, rfl⟩
  case completed =>
    split at hstep <;> cases hstep
    exact .inl ⟨shut_goes s .finished (hown _ (by decide)) hpipe, rfl⟩
  case stop status =>
    split at hstep <;> cases hstep
    · exact .inl ⟨shut_goes s s.receiver (herrors status List.mem_cons_self)
        hpipe, rfl⟩
    · exact .inl ⟨⟨[], goes_refl⟩, rfl⟩

end Goes

section Steps

variable {kernel : Kernel κ} {k : κ} {errors : List Errc} {s s' : System κ}

theorem step_eq {event : Transport.Event}
    (hstep : s.step kernel event = some s') :
    s.handle kernel event = some s'.handlers ∧
      s.transport.step event = some s'.transport ∧
      s'.trace = s.trace ++ actions event s.transport s'.transport := by
  obtain ⟨handlers, hhandle, hstep⟩ := Option.bind_eq_some_iff.mp hstep
  obtain ⟨transport, htransport, hstep⟩ := Option.bind_eq_some_iff.mp hstep
  cases hstep
  exact ⟨hhandle, htransport, rfl⟩

theorem actions_goes {s s' : Transport} {event : Transport.Event}
    {new : List Answer} {rets : List (Ticket × Result)}
    (hsend : ∀ req timed, event ≠ .send req timed)
    (hgoes : Goes errors s s' new rets) :
    actions event s s' = new.map commit ++ rets.map ret := by
  unfold actions
  split
  next req timed => exact absurd rfl (hsend req timed)
  next => rw [hgoes.computed, hgoes.returned, List.drop_left, List.drop_left,
    List.nil_append]

/-- A request that was computed, for the handlers. -/
def Answer.exchange (a : Answer) : Exchange :=
  (a.ticket.req, a.response)

/-- What a step computes is the next part of the run of the handlers. -/
theorem runs_computes {event : Transport.Event} {new : List Answer}
    {handlers : RequestHandler κ} (hcomputes : Computes s.transport event new)
    (hhandle : s.handle kernel event = some handlers) :
    Runs (step kernel) (fun _ _ _ => True) s.handlers
      (new.map Answer.exchange) handlers := by
  cases hcomputes with
  | nothing hevent =>
      have hsame : s.handle kernel event = some s.handlers := by
        cases event with
        | finish i response => cases hevent
        | _ => rfl
      cases hsame.symm.trans hhandle
      exact .nil _
  | @ping t num ht =>
      cases hhandle
      refine .cons ?_ trivial (.nil _)
      rw [Answer.exchange, ht]
      exact step_eq_some.mpr rfl
  | @finish i t response ht =>
      cases i with
      | zero =>
          rw [System.handle] at hhandle
          split at hhandle
          next t' rest hhandlers =>
            rw [hhandlers] at ht
            cases ht
            exact .cons hhandle trivial (.nil _)
          next => cases hhandle
      | succ i => cases hhandle

/-- The handlers answer what the transport counts on. -/
theorem assumed_step (h : kernel.SetsErrno) {event : Transport.Event}
    (hstep : s.step kernel event = some s')
    (hassumed : s.Assumed event s') :
    s.transport.Assumed event s'.transport := by
  obtain ⟨hhandle, -, -⟩ := step_eq hstep
  cases event with
  | send req timed => exact hassumed
  | finish i response =>
      intro t ht
      have hruns := runs_computes (.finish ht) hhandle
      cases hruns with
      | cons hreq _ _ =>
          exact handleReq_answers h (step_eq_some.mp hreq) hassumed
  | _ => trivial

/-- The invariant. -/
structure System.Sound (kernel : Kernel κ) (k : κ) (errors : List Errc)
    (s : System κ) : Prop where
  matched : s.transport.Matched
  once : ∀ t, s.transport.pipeline.count t ≤ 1
  called : ∀ t ∈ s.transport.pipeline, .call t t.req ∈ s.trace
  below : ∀ t op, .call t op ∈ s.trace → t.serial < s.transport.serials
  timed : Timed (Definite errors) s.trace
  committed : commits s.trace = s.transport.computed.map fun a =>
    (a.ticket, a.ticket.req, resultOf a.response)
  values : ∀ v ∈ s.transport.values,
    Accounted errors s.transport.computed v
  handled : Runs (Server.step kernel) (fun _ _ _ => True)
    (RequestHandler.create k) (s.transport.computed.map Answer.exchange)
    s.handlers

theorem Accounted.mono {computed : List Answer} {v : Ticket × Result}
    (h : Accounted errors computed v) (new : List Answer) :
    Accounted errors (computed ++ new) v := by
  rcases h with ⟨response, hmem, hv⟩ | herr
  · exact .inl ⟨response, List.mem_append_left _ hmem, hv⟩
  · exact .inr herr

/-- A definite result that is accounted for is that of an operation which has
taken place. -/
theorem Accounted.commits (h : s.Sound kernel k errors)
    {v : Ticket × Result} (hv : Accounted errors s.transport.computed v)
    (hdefinite : Definite errors v.2) :
    ∃ op, (v.1, op, v.2) ∈ commits s.trace := by
  rcases hv with ⟨response, hmem, heq⟩ | ⟨err, herr, heq⟩
  · refine ⟨v.1.req, ?_⟩
    rw [h.committed, heq]
    exact List.mem_map_of_mem hmem
  · exact absurd herr (hdefinite err heq)

theorem commits_map (new : List Answer) :
    commits (new.map commit) = new.map fun a =>
      (a.ticket, a.ticket.req, resultOf a.response) := by
  rw [commits, List.filterMap_map]
  exact congrFun List.filterMap_eq_map new

theorem commits_rets (rets : List (Ticket × Result)) :
    commits (rets.map ret) = [] := by
  rw [commits, List.filterMap_map]
  exact List.filterMap_eq_nil_iff.mpr fun _ _ => rfl

theorem call_mem_actions {t : Ticket} {op : Request} {new : List Answer}
    {rets : List (Ticket × Result)} :
    .call t op ∉ new.map commit ++ rets.map ret := by
  intro hmem
  rcases List.mem_append.mp hmem with hnew | hrets
  · obtain ⟨a, -, ha⟩ := List.mem_map.mp hnew
    cases ha
  · obtain ⟨r, -, hr⟩ := List.mem_map.mp hrets
    cases hr

theorem count_computed (s : Transport) (t : Ticket) :
    (s.computed.map Answer.ticket).count t ≤ s.pipeline.count t := by
  rw [Transport.pipeline, List.count_append]
  exact Nat.le_add_left _ _

/-- A request takes place after its call, and only once: until then it is in
the pipeline in front of the handlers. -/
theorem System.Sound.timed_commit (h : s.Sound kernel k errors) {a : Answer}
    {t : Transport} {rets : List (Ticket × Result)}
    (hgoes : Goes errors s.transport t [a] rets) :
    Timed (Definite errors) (s.trace ++ [commit a]) := by
  have hthere := count_computed t a.ticket
  rw [hgoes.computed, List.map_append, List.count_append, List.map_singleton,
    List.count_singleton_self] at hthere
  have hpipeline := hgoes.pipeline a.ticket
  have honce := h.once a.ticket
  refine h.timed.commit (h.called a.ticket ?_) ?_
  · exact List.count_pos_iff.mp (by omega)
  · intro hmem
    rw [h.committed, List.map_map] at hmem
    have hpos := List.count_pos_iff.mpr hmem
    change 0 < (s.transport.computed.map Answer.ticket).count a.ticket at hpos
    omega

/-- What a step computes and returns comes at its time. -/
theorem System.Sound.timed_goes (h : s.Sound kernel k errors)
    {event : Transport.Event} {t : Transport} {new : List Answer}
    {rets : List (Ticket × Result)}
    (hgoes : Goes errors s.transport t new rets)
    (hcomputes : Computes s.transport event new) :
    Timed (Definite errors) (s.trace ++ (new.map commit ++ rets.map ret)) := by
  have hcommit : Timed (Definite errors) (s.trace ++ new.map commit) := by
    cases hcomputes with
    | nothing => exact (List.append_nil s.trace).symm ▸ h.timed
    | ping => exact h.timed_commit hgoes
    | finish => exact h.timed_commit hgoes
  rw [← List.append_assoc]
  apply hcommit.returns
  intro r hr hdefinite
  have hold : Accounted errors s.transport.computed r :=
    (hgoes.rets r hr).elim (h.values r) id
  exact mem_commits_append (hold.commits h hdefinite) _

theorem System.Sound.goes (h : s.Sound kernel k errors)
    {event : Transport.Event} {new : List Answer}
    {rets : List (Ticket × Result)}
    (hmatched : s'.transport.Matched)
    (hhandle : s.handle kernel event = some s'.handlers)
    (htrace : s'.trace = s.trace ++ (new.map commit ++ rets.map ret))
    (hgoes : Goes errors s.transport s'.transport new rets)
    (hcomputes : Computes s.transport event new) :
    s'.Sound kernel k errors where
  matched := hmatched
  once := fun t => (hgoes.pipeline t).trans (h.once t)
  called := fun t ht => by
    have hpos := List.count_pos_iff.mpr ht
    rw [htrace]
    apply List.mem_append_left
    apply h.called
    exact List.count_pos_iff.mp (Nat.lt_of_lt_of_le hpos (hgoes.pipeline t))
  below := fun t op hcall => by
    rw [hgoes.serials]
    rw [htrace] at hcall
    rcases List.mem_append.mp hcall with hold | hnew
    · exact h.below t op hold
    · exact absurd hnew call_mem_actions
  timed := htrace ▸ h.timed_goes hgoes hcomputes
  committed := by
    rw [htrace, commits_append, commits_append, commits_map, commits_rets,
      List.append_nil, hgoes.computed, List.map_append, h.committed]
  values := fun v hv => by
    rw [hgoes.computed]
    rcases hgoes.values v hv with hold | hnew
    · exact (h.values v hold).mono new
    · exact hnew.mono new
  handled := by
    rw [hgoes.computed, List.map_append]
    exact h.handled.append (runs_computes hcomputes hhandle)

/-- A new ticket is at no place of the pipeline. -/
theorem System.Sound.call (h : s.Sound kernel k errors) {new : Ticket}
    {counter : UInt32} {requests : List Ticket} {timed : Bool}
    {trace : List Seen}
    (hmatched : Transport.Matched { s.transport with
      counter := counter
      serials := s.transport.serials + 1
      requests := requests
      channel := s.transport.channel ++ [⟨new, timed⟩] })
    (hserial : new.serial = s.transport.serials)
    (htrace : trace = s.trace ++ [.call new new.req]) :
    System.Sound kernel k errors ⟨{ s.transport with
      counter := counter
      serials := s.transport.serials + 1
      requests := requests
      channel := s.transport.channel ++ [⟨new, timed⟩] },
      s.handlers, trace⟩ := by
  have hnew : ∀ op, .call new op ∉ s.trace := fun op hmem =>
    Nat.lt_irrefl _ (hserial ▸ h.below new op hmem)
  have hcount : ∀ t, (s.transport.pipeline ++ [new]).count t ≤ 1 := by
    intro t
    have hold := h.once t
    rw [List.count_append, List.count_singleton]
    split_ifs with heq
    · rw [beq_iff_eq] at heq
      subst heq
      have hzero : new ∉ s.transport.pipeline := fun hmem =>
        hnew _ (h.called new hmem)
      rw [List.count_eq_zero_of_not_mem hzero]
    · exact hold
  have hpipeline : ∀ t, (Transport.pipeline { s.transport with
      counter := counter
      serials := s.transport.serials + 1
      requests := requests
      channel := s.transport.channel ++ [⟨new, timed⟩] }).count t =
        (s.transport.pipeline ++ [new]).count t := by
    intro t
    simp only [Transport.pipeline, List.map_append, List.map_cons,
      List.map_nil, List.count_append]
    omega
  subst htrace
  constructor
  case matched => exact hmatched
  case once =>
    intro t
    rw [hpipeline]
    exact hcount t
  case called =>
    intro t ht
    have hpos := List.count_pos_iff.mpr ht
    rw [hpipeline] at hpos
    rcases List.mem_append.mp (List.count_pos_iff.mp hpos) with hold | hlast
    · exact List.mem_append_left _ (h.called t hold)
    · rw [List.mem_singleton.mp hlast]
      exact List.mem_append_right _ (List.mem_singleton_self _)
  case below =>
    intro t op hcall
    rcases List.mem_append.mp hcall with hold | hlast
    · exact Nat.lt_succ_of_lt (h.below t op hold)
    · cases List.mem_singleton.mp hlast
      exact Nat.lt_succ_of_le (Nat.le_of_eq hserial)
  case timed => exact h.timed.call hnew
  case committed =>
    rw [commits_append, h.committed]
    exact List.append_nil _
  case values => exact h.values
  case handled => exact h.handled

/-- What a call of `send` puts into the channel is new. -/
theorem System.Sound.send (h : s.Sound kernel k errors) {req : Request}
    {timed : Bool} (hmatched : s'.transport.Matched)
    (hstep : s.step kernel (.send req timed) = some s') :
    s'.Sound kernel k errors := by
  obtain ⟨transport, handlers, trace⟩ := s'
  obtain ⟨hhandle, htransport, htrace⟩ := step_eq hstep
  have hsent : s.transport.send req timed = transport :=
    Option.some.inj htransport
  cases hhandle
  by_cases hrunning : s.transport.running = true
  · set new : Ticket := ⟨s.transport.serials, ⟨s.transport.counter + 1⟩, req⟩
    have hsend : ∃ requests, s.transport.send req timed = { s.transport with
        counter := s.transport.counter + 1
        serials := s.transport.serials + 1
        requests := requests
        channel := s.transport.channel ++ [⟨new, timed⟩] } :=
      ⟨_, if_pos hrunning⟩
    obtain ⟨requests, hsend⟩ := hsend
    rw [hsend] at hsent
    subst hsent
    have htrace' : trace = s.trace ++ [.call new req] := by
      rw [show trace = _ from htrace, actions]
      simp only [hrunning, if_true, List.drop_length, List.map_nil,
        List.append_nil]
      rfl
    exact h.call hmatched rfl htrace'
  · have hsend : s.transport.send req timed = s.transport :=
      if_neg hrunning
    rw [hsend] at hsent
    subst hsent
    have htrace' : trace = s.trace := by
      rw [show trace = _ from htrace, actions]
      simp only [hrunning, List.drop_length, List.map_nil, List.append_nil]
      exact List.append_nil _
    rw [htrace']
    exact h

theorem System.Sound.step (h : s.Sound kernel k errors)
    (hset : kernel.SetsErrno) (hown : ∀ err ∈ lost [], err ∈ errors)
    {event : Transport.Event}
    (herrors : ∀ err ∈ transportErrors event, err ∈ errors)
    (hstep : s.step kernel event = some s') (hassumed : s.Assumed event s') :
    s'.Sound kernel k errors := by
  obtain ⟨hhandle, htransport, htrace⟩ := step_eq hstep
  have hmatched : s'.transport.Matched :=
    h.matched.step htransport (assumed_step hset hstep hassumed)
  by_cases hsend : ∃ req timed, event = .send req timed
  · obtain ⟨req, timed, rfl⟩ := hsend
    exact h.send hmatched hstep
  · have hsend : ∀ req timed, event ≠ .send req timed :=
      fun req timed heq => hsend ⟨req, timed, heq⟩
    obtain ⟨new, rets, hgoes, hcomputes⟩ :=
      goes_of_step h.matched hown herrors htransport hsend
    rw [actions_goes hsend hgoes] at htrace
    exact h.goes hmatched hhandle htrace hgoes hcomputes

end Steps

namespace OneFile

def opening : Ticket :=
  ⟨0, ⟨1⟩, .open path ⟨2⟩⟩

def writing : Ticket :=
  ⟨1, ⟨2⟩, .write 3 1 [9, 9]⟩

def reading : Ticket :=
  ⟨3, ⟨4⟩, .read 3 0 [0]⟩

end OneFile

end Server

end Rpc

end Madbfs
