/-
The way of a request through a transport.  A ticket goes from the channel over
the socket to the handlers and is there at one place at a time, so a server
executes it at most once.  The second part follows the error that makes
`send_req` repeat a request: only `stop` sets it, on the requests that have
left the channel.
-/
import Mathlib.Data.List.Perm.Basic
import Madbfs.Rpc.Matching

namespace Madbfs

namespace Rpc

/-- The requests that must not be executed twice. -/
def Request.mutates (req : Request) : Bool :=
  match req.proc with
  | .mknod => true
  | .mkdir => true
  | .unlink => true
  | .rmdir => true
  | .rename => true
  | _ => false

namespace Transport

/-- The result that makes `send_req` repeat a request. -/
def again (t : Ticket) : Ticket × Result :=
  (t, .error Errc.resourceUnavailableTryAgain)

/-- A request from the channel to its execution. -/
def pipeline (s : Transport) : List Ticket :=
  s.channel.map Pending.ticket ++ s.sender.tickets ++ s.toServer ++
    s.handlers ++ s.computed.map Answer.ticket

/-- The requests of the calls of `send` that have not returned. -/
def suspended (s : Transport) : List Ticket :=
  s.channel.map Pending.ticket ++ s.waiting.map Pending.ticket

/-- What is asked of a step: the assumptions on ids and answers, no failure of
the socket or the device that looks like a stopped transport, and no stop for
a reconnection while a request that mutates has left the channel and waits for
its response. -/
def Guarded (s : Transport) (event : Event) (s' : Transport) : Prop :=
  s.Assumed event s' ∧
    match event with
    | .writeFailed err => err ≠ Errc.resourceUnavailableTryAgain
    | .payloadFailed err => err ≠ Errc.resourceUnavailableTryAgain
    | .finish i response => ∀ t, s.handlers[i]? = some t →
        t.req.mutates = true →
        narrowStatus response.status ≠ Errc.resourceUnavailableTryAgain
    | .stop _ => ∀ p ∈ s.waiting, p.ticket ∈ s.requests →
        p.ticket.req.mutates = false
    | _ => True

/-- The invariant. -/
structure Steady (s : Transport) : Prop where
  matched : s.Matched
  once : ∀ t, s.pipeline.count t ≤ 1
  below : ∀ t ∈ s.pipeline, t.serial < s.serials
  suspended : ∀ t, t.req.mutates = true → again t ∈ s.values →
    t ∉ s.suspended
  returned : ∀ t, t.req.mutates = true → again t ∉ s.returned
  answered : ∀ a ∈ s.computed, a.ticket.req.mutates = true →
    narrowStatus a.response.status ≠ Errc.resourceUnavailableTryAgain

/-- What a step does to the pipeline and to that error, if it sends no new
request. -/
structure Flows (s s' : Transport) : Prop where
  serials : s'.serials = s.serials
  pipeline : ∀ t, s'.pipeline.count t ≤ s.pipeline.count t
  suspended : s'.suspended ⊆ s.suspended
  values : ∀ t, t.req.mutates = true → again t ∈ s'.values →
    again t ∈ s.values ∨ t ∉ s'.suspended
  returned : ∀ t, t.req.mutates = true → again t ∈ s'.returned →
    again t ∈ s.returned ∨ again t ∈ s.values ∧ t ∈ s.suspended
  computed : ∀ a ∈ s'.computed, a ∈ s.computed ∨
    (a.ticket.req.mutates = true →
      narrowStatus a.response.status ≠ Errc.resourceUnavailableTryAgain)

variable {s s' s'' : Transport}

theorem Flows.trans (hf : Flows s s') (hf' : Flows s' s'') : Flows s s'' where
  serials := hf'.serials.trans hf.serials
  pipeline := fun t => Nat.le_trans (hf'.pipeline t) (hf.pipeline t)
  suspended := fun _ ht => hf.suspended (hf'.suspended ht)
  values := fun t hmutates hv => by
    rcases hf'.values t hmutates hv with hold | hnew
    · rcases hf.values t hmutates hold with hold | hnew
      · exact .inl hold
      · exact .inr fun ht => hnew (hf'.suspended ht)
    · exact .inr hnew
  returned := fun t hmutates hr => by
    rcases hf'.returned t hmutates hr with hold | ⟨hv, ht⟩
    · exact hf.returned t hmutates hold
    · rcases hf.values t hmutates hv with hold | hnew
      · exact .inr ⟨hold, hf.suspended ht⟩
      · exact absurd ht hnew
  computed := fun a ha => (hf'.computed a ha).elim (hf.computed a) .inr

theorem Steady.of_flows (h : Steady s) (hmatched : s'.Matched)
    (hf : Flows s s') : Steady s' where
  matched := hmatched
  once := fun t => Nat.le_trans (hf.pipeline t) (h.once t)
  below := fun t ht => by
    rw [hf.serials]
    apply h.below
    have hpos := List.count_pos_iff.mpr ht
    exact List.count_pos_iff.mp (Nat.lt_of_lt_of_le hpos (hf.pipeline t))
  suspended := fun t hmutates hv ht => by
    rcases hf.values t hmutates hv with hold | hnew
    · exact h.suspended t hmutates hold (hf.suspended ht)
    · exact hnew ht
  returned := fun t hmutates hr => by
    rcases hf.returned t hmutates hr with hold | ⟨hv, ht⟩
    · exact h.returned t hmutates hold
    · exact h.suspended t hmutates hv ht
  answered := fun a ha => (hf.computed a ha).elim (h.answered a) id

/-- A step that leaves what is set, returned and computed. -/
theorem Flows.of_eq (hserials : s'.serials = s.serials)
    (hpipeline : ∀ t, s'.pipeline.count t ≤ s.pipeline.count t)
    (hsuspended : s'.suspended ⊆ s.suspended) (hvalues : s'.values = s.values)
    (hreturned : s'.returned = s.returned)
    (hcomputed : s'.computed = s.computed) : Flows s s' where
  serials := hserials
  pipeline := hpipeline
  suspended := hsuspended
  values := fun _ _ hv => .inl (hvalues ▸ hv)
  returned := fun _ _ hr => .inl (hreturned ▸ hr)
  computed := fun _ ha => .inl (hcomputed ▸ ha)

theorem Flows.refl : Flows s s :=
  .of_eq rfl (fun _ => Nat.le_refl _) (fun _ ht => ht) rfl rfl rfl

/-- A step that only sets promises. -/
theorem Flows.of_values (s : Transport) (requests : List Ticket)
    (receiver : Receiver) {new : List (Ticket × Result)}
    (hnew : ∀ t, t.req.mutates = true → again t ∈ new → t ∉ s.suspended) :
    Flows s { s with
      values := s.values ++ new
      requests := requests
      receiver := receiver } where
  serials := rfl
  pipeline := fun _ => Nat.le_refl _
  suspended := fun _ ht => ht
  values := fun t hmutates hv =>
    (List.mem_append.mp hv).imp id (hnew t hmutates)
  returned := fun _ _ hr => .inl hr
  computed := fun _ ha => .inl ha

/-- A result that is not the error of a stopped transport. -/
theorem not_again_singleton {u : Ticket} {result : Result} (s : Transport)
    (hresult : u.req.mutates = true →
      result ≠ .error Errc.resourceUnavailableTryAgain) :
    ∀ t, t.req.mutates = true → again t ∈ [(u, result)] →
      t ∉ s.suspended := by
  intro t hmutates hmem
  obtain ⟨rfl, hagain⟩ := Prod.mk.inj (List.mem_singleton.mp hmem)
  exact absurd hagain.symm (hresult hmutates)

theorem failOne_flows (s : Transport) (id : Id) {err : Errc}
    (herr : err ≠ Errc.resourceUnavailableTryAgain) :
    Flows s (s.failOne id err) := by
  rw [failOne]
  cases entry s.requests id with
  | none => exact Flows.refl
  | some u =>
      apply Flows.of_values s _ s.receiver
      apply not_again_singleton s
      intro _ hagain
      exact herr (Except.error.inj hagain)

theorem failAll_flows (s : Transport) {status : Errc}
    (hstatus : status = Errc.resourceUnavailableTryAgain →
      ∀ t ∈ s.requests, t.req.mutates = true → t ∉ s.suspended) :
    Flows s (s.failAll status) := by
  apply Flows.of_values s [] s.receiver
  intro t hmutates hmem
  obtain ⟨u, hu, heq⟩ := List.mem_map.mp hmem
  obtain ⟨rfl, hagain⟩ := Prod.mk.inj heq
  exact hstatus (Except.error.inj hagain) u hu hmutates

theorem cancelChannel_flows (s : Transport) : Flows s s.cancelChannel where
  serials := rfl
  pipeline := fun t => by
    have hsender : s.cancelChannel.sender.tickets = s.sender.tickets := by
      simp only [cancelChannel]
      cases s.sender <;> rfl
    simp only [pipeline, hsender, List.count_append]
    simp only [cancelChannel, List.map_nil, List.count_nil]
    omega
  suspended := fun t ht => List.mem_append_right _ ht
  values := fun _ _ hv => .inl hv
  returned := fun t _ hr => by
    rcases List.mem_append.mp hr with hold | hnew
    · exact .inl hold
    · obtain ⟨p, -, hp⟩ := List.mem_map.mp hnew
      have herr := (Prod.mk.inj hp).2
      exact absurd (Except.error.inj herr) (by decide)
  computed := fun _ ha => .inl ha

/-- The response to a request that mutates is not that error. -/
theorem received_ne_again {req : Request} {response : FallibleResponse}
    (hstatus : narrowStatus response.status ≠
      Errc.resourceUnavailableTryAgain) :
    received req response ≠ .error Errc.resourceUnavailableTryAgain := by
  rw [received]
  split_ifs
  · intro heq
    exact hstatus (Except.error.inj heq)
  · decide
  · split <;> intro heq <;> cases heq

theorem arrive_flows {t : Ticket} {rest : List Ticket}
    (hserver : s.toServer = t :: rest) :
    Flows s ({ s with toServer := rest }.arrive t) := by
  have hcount : ∀ u, s.toServer.count u = rest.count u + [t].count u := by
    intro u
    rw [hserver, List.count_cons, List.count_singleton]
  rw [arrive]
  cases entry s.served t.id with
  | some old =>
      refine Flows.of_eq rfl (fun u => ?_) (fun _ ht => ht) rfl rfl rfl
      simp only [pipeline, List.count_append, hcount]
      omega
  | none =>
      dsimp only
      split
      next num hreq =>
        refine ⟨rfl, fun u => ?_, fun _ ht => ht, fun _ _ hv => .inl hv,
          fun _ _ hr => .inl hr, fun a ha => ?_⟩
        · simp only [pipeline, List.map_append, List.map_cons, List.map_nil,
            List.count_append, hcount]
          omega
        · rcases List.mem_append.mp ha with hold | hnew
          · exact .inl hold
          · rw [List.mem_singleton.mp hnew]
            refine .inr fun hmutates => ?_
            rw [Request.mutates, hreq] at hmutates
            cases hmutates
      next =>
        refine Flows.of_eq rfl (fun u => ?_) (fun _ ht => ht) rfl rfl rfl
        simp only [pipeline, List.count_append, hcount]
        omega

theorem finish_flows {i : Nat} {t : Ticket} {response : FallibleResponse}
    (ht : s.handlers[i]? = some t)
    (hstatus : t.req.mutates = true →
      narrowStatus response.status ≠ Errc.resourceUnavailableTryAgain) :
    Flows s { s with
      handlers := s.handlers.eraseIdx i
      answers := s.answers ++ [⟨t, response⟩]
      computed := s.computed ++ [⟨t, response⟩] } := by
  have hcount : ∀ u, s.handlers.count u =
      (s.handlers.eraseIdx i).count u + [t].count u := by
    intro u
    obtain ⟨hi, rfl⟩ := List.getElem?_eq_some_iff.mp ht
    have hperm := List.getElem_cons_eraseIdx_perm hi
    rw [← hperm.count_eq u, List.count_cons, List.count_singleton]
  refine ⟨rfl, fun u => ?_, fun _ ht => ht, fun _ _ hv => .inl hv,
    fun _ _ hr => .inl hr, fun a ha => ?_⟩
  · simp only [pipeline, List.map_append, List.map_cons, List.map_nil,
      List.count_append, hcount]
    omega
  · rcases List.mem_append.mp ha with hold | hnew
    · exact .inl hold
    · rw [List.mem_singleton.mp hnew]
      exact .inr hstatus

/-- A call of `send` returns the value of its promise, or another error. -/
theorem returned_flows (s : Transport) (i : Nat) {t : Ticket}
    {result : Result} (ht : t ∈ s.suspended)
    (hresult : again t = (t, result) → again t ∈ s.values) :
    Flows s { s with
      waiting := s.waiting.eraseIdx i
      returned := s.returned ++ [(t, result)] } where
  serials := rfl
  pipeline := fun _ => Nat.le_refl _
  suspended := fun u hu => by
    rcases List.mem_append.mp hu with hchannel | hwaiting
    · exact List.mem_append_left _ hchannel
    · obtain ⟨p, hp, rfl⟩ := List.mem_map.mp hwaiting
      exact List.mem_append_right _
        (List.mem_map_of_mem (List.mem_of_mem_eraseIdx hp))
  values := fun _ _ hv => .inl hv
  returned := fun u _ hr => by
    rcases List.mem_append.mp hr with hold | hnew
    · exact .inl hold
    · have heq := List.mem_singleton.mp hnew
      obtain rfl : u = t := (Prod.mk.inj heq).1
      exact .inr ⟨hresult heq, ht⟩
  computed := fun _ ha => .inl ha

/-- The fields that are not on the way of a request to its execution. -/
theorem aside_flows (s : Transport) (running : Bool) (receiver : Receiver)
    (toClient answers : List Answer) (served : List Ticket)
    (requests : List Ticket) :
    Flows s { s with
      running := running
      receiver := receiver
      toClient := toClient
      answers := answers
      served := served
      requests := requests } :=
  .of_eq rfl (fun _ => Nat.le_refl _) (fun _ ht => ht) rfl rfl rfl

theorem sendResponse_flows (s : Transport) (a : Answer) (rest : List Answer)
    (sent : Bool) : Flows s ({ s with answers := rest }.sendResponse a sent) := by
  rw [sendResponse]
  cases entry s.served a.ticket.id with
  | none =>
      exact aside_flows s s.running s.receiver s.toClient rest s.served
        s.requests
  | some old => exact aside_flows s s.running s.receiver _ rest _ s.requests

theorem sender_flows (s : Transport) {next : Sender}
    (hnext : next.tickets = []) : Flows s { s with sender := next } := by
  refine Flows.of_eq rfl (fun t => ?_) (fun _ ht => ht) rfl rfl rfl
  simp only [pipeline, hnext, List.count_append, List.append_nil]
  omega

/-- The promise that a `send` waits for is not set to that error, unless it
was before. -/
theorem again_future {t : Ticket} {result : Result}
    (hfuture : s.future t = some result) (hagain : again t = (t, result)) :
    again t ∈ s.values := by
  rw [hagain]
  exact future_mem hfuture

theorem failOne_waiting (s : Transport) (id : Id) (err : Errc)
    (waiting : List Pending) :
    ({ s with waiting := waiting } : Transport).failOne id err =
      { s.failOne id err with waiting := waiting } := by
  rw [failOne, failOne]
  cases entry s.requests id <;> rfl

theorem failOne_fields (s : Transport) (id : Id) (err : Errc) :
    (s.failOne id err).channel = s.channel ∧
      (s.failOne id err).waiting = s.waiting := by
  rw [failOne]
  cases entry s.requests id <;> exact ⟨rfl, rfl⟩

theorem timedOut_flows (s : Transport) (i : Nat) {t : Ticket}
    (ht : t ∈ s.suspended) :
    Flows s ({ s with waiting := s.waiting.eraseIdx i }.timedOut t) := by
  obtain ⟨hchannel, hwaiting⟩ := failOne_fields s t.id Errc.timedOut
  rw [timedOut, failOne_waiting, ← hwaiting]
  apply (failOne_flows s t.id (by decide : Errc.timedOut ≠ _)).trans
  apply returned_flows
  · rwa [suspended, hchannel, hwaiting]
  · intro hagain
    change again t = (t, ((s.failOne t.id Errc.timedOut).future t).getD _)
      at hagain
    cases hfuture : (s.failOne t.id Errc.timedOut).future t with
    | none =>
        rw [hfuture] at hagain
        have herr := (Prod.mk.inj hagain).2
        exact absurd (Except.error.inj herr) (by decide)
    | some result =>
        rw [hfuture] at hagain
        exact again_future hfuture hagain

theorem flows_of_step {event : Event} (h : Steady s)
    (hstep : s.step event = some s') (hguarded : s.Guarded event s')
    (hsend : ∀ req timed, event ≠ .send req timed) : Flows s s' := by
  obtain ⟨-, hguarded⟩ := hguarded
  cases event <;> simp only [step] at hstep
  case start =>
    split at hstep <;> cases hstep
    exact (aside_flows s true .header s.toClient s.answers s.served
      s.requests).trans (sender_flows _ rfl)
  case send req timed => exact absurd rfl (hsend req timed)
  case take =>
    split at hstep <;> cases hstep
    next p rest hsender hchannel =>
      refine Flows.of_eq rfl (fun u => ?_) (fun u => ?_) rfl rfl rfl
      · simp only [pipeline, hchannel, hsender, Sender.tickets, List.map_cons,
          List.count_append, List.count_cons, List.count_nil]
        omega
      · simp only [suspended, hchannel, List.map_cons, List.map_append,
          List.map_nil, List.mem_append, List.mem_cons, List.not_mem_nil]
        grind
  case wrote =>
    split at hstep <;> cases hstep
    next t hsender =>
      have hwriting : s.sender.tickets = [t] := by
        rw [hsender]
        rfl
      refine Flows.of_eq rfl (fun u => ?_) (fun _ ht => ht) rfl rfl rfl
      simp only [pipeline, nextSend_empty, hwriting, List.count_append,
        List.count_nil]
      omega
  case writeFailed err =>
    split at hstep <;> cases hstep
    next t hsender =>
      exact (failOne_flows s t.id hguarded).trans
        (sender_flows _ s.nextSend_empty)
  case arrive =>
    split at hstep <;> cases hstep
    next t rest hserver => exact arrive_flows hserver
  case finish i response =>
    obtain ⟨t, ht, rfl⟩ := Option.map_eq_some_iff.mp hstep
    exact finish_flows ht (hguarded t ht)
  case answer =>
    split at hstep <;> cases hstep
    next a rest hanswers => exact sendResponse_flows s a rest true
  case answerLost =>
    split at hstep <;> cases hstep
    next a rest hanswers => exact sendResponse_flows s a rest false
  case serverFailed =>
    cases hstep
    exact aside_flows s s.running s.receiver s.toClient [] _ s.requests
  case header =>
    split at hstep
    next a rest hreceiver hclient =>
      split at hstep <;> cases hstep
      next =>
        exact aside_flows s s.running s.nextReceive rest s.answers s.served
          s.requests
      next t hentry =>
        exact aside_flows s s.running (.payload t a) rest s.answers s.served _
    next => cases hstep
  case headerFailed =>
    split at hstep <;> cases hstep
    exact aside_flows s s.running .ended s.toClient s.answers s.served
      s.requests
  case payload =>
    split at hstep <;> cases hstep
    next t a hreceiver =>
      apply Flows.of_values s s.requests s.nextReceive
      apply not_again_singleton s
      intro hmutates
      have hflight : a ∈ s.inFlight := by
        simp [inFlight, hreceiver, Receiver.answers]
      have hcomputed := h.matched.in_flight a hflight
      rw [← h.matched.paired t a hreceiver] at hmutates
      exact received_ne_again (h.answered a hcomputed hmutates)
  case payloadFailed err =>
    split at hstep <;> cases hstep
    next t a hreceiver =>
      apply Flows.of_values s s.requests s.nextReceive
      apply not_again_singleton s
      intro _ hagain
      exact hguarded (Except.error.inj hagain)
  case completed =>
    split at hstep <;> cases hstep
    refine ((cancelChannel_flows s).trans (failAll_flows _ ?_)).trans
      (aside_flows _ false .finished s.toClient s.answers s.served [])
    intro hstatus
    exact absurd hstatus (by decide)
  case timeout i =>
    split at hstep <;> cases hstep
    next t hi =>
      apply timedOut_flows s i
      exact List.mem_append_right _
        (List.mem_map_of_mem (List.mem_of_getElem? hi))
  case resume i =>
    split at hstep
    next t timed hi =>
      obtain ⟨result, hfuture, rfl⟩ := Option.map_eq_some_iff.mp hstep
      apply returned_flows s i
      · exact List.mem_append_right _
          (List.mem_map_of_mem (List.mem_of_getElem? hi))
      · exact again_future hfuture
    next => cases hstep
  case stop status =>
    split at hstep <;> cases hstep
    · refine ((cancelChannel_flows s).trans (failAll_flows _ ?_)).trans
        (aside_flows _ false s.receiver s.toClient s.answers s.served [])
      intro _ t ht hmutates hsuspended
      obtain ⟨p, hp, rfl⟩ := List.mem_map.mp hsuspended
      rw [hguarded p hp ht] at hmutates
      cases hmutates
    · exact Flows.refl

/-- A new ticket is in no place of the pipeline yet. -/
theorem Steady.add (h : Steady s) {new : Ticket} (counter : UInt32)
    (timed : Bool) (requests : List Ticket) (hserial : new.serial = s.serials)
    (hmatched : Matched { s with
      counter := counter
      serials := s.serials + 1
      requests := requests
      channel := s.channel ++ [⟨new, timed⟩] }) :
    Steady { s with
      counter := counter
      serials := s.serials + 1
      requests := requests
      channel := s.channel ++ [⟨new, timed⟩] } := by
  have hpipeline : new ∉ s.pipeline := fun hmem =>
    Nat.lt_irrefl _ (hserial ▸ h.below new hmem)
  have hvalues : again new ∉ s.values := fun hmem =>
    Nat.lt_irrefl _ (hserial ▸ h.matched.values_below _ hmem)
  constructor
  case matched => exact hmatched
  case once =>
    intro t
    have hold := h.once t
    simp only [pipeline, List.map_append, List.map_cons, List.map_nil,
      List.count_append] at hold ⊢
    by_cases heq : t = new
    · subst heq
      have hzero := List.count_eq_zero_of_not_mem hpipeline
      simp only [pipeline, List.count_append] at hzero
      rw [List.count_singleton_self]
      omega
    · rw [List.count_singleton, if_neg (by simpa using Ne.symm heq)]
      omega
  case below =>
    intro t ht
    have hcases : t ∈ s.pipeline ∨ t = new := by
      simp only [pipeline, List.map_append, List.map_cons, List.map_nil,
        List.mem_append, List.mem_singleton] at ht ⊢
      grind
    rcases hcases with hold | rfl
    · exact Nat.lt_succ_of_lt (h.below t hold)
    · exact Nat.lt_succ_of_le (Nat.le_of_eq hserial)
  case suspended =>
    intro t hmutates hv ht
    have hcases : t ∈ s.suspended ∨ t = new := by
      simp only [Transport.suspended, List.map_append, List.map_cons, List.map_nil,
        List.mem_append, List.mem_singleton] at ht ⊢
      grind
    rcases hcases with hold | rfl
    · exact h.suspended t hmutates hv hold
    · exact hvalues hv
  case returned => exact h.returned
  case answered => exact h.answered

theorem Steady.send (h : Steady s) (req : Request) (timed : Bool)
    (hmatched : (s.send req timed).Matched) : Steady (s.send req timed) := by
  rw [Transport.send] at hmatched ⊢
  split_ifs at hmatched ⊢ with hrunning
  · exact h.add _ timed _ rfl hmatched
  · exact h

theorem Steady.step {event : Event} (h : Steady s)
    (hstep : s.step event = some s') (hguarded : s.Guarded event s') :
    Steady s' := by
  have hmatched := h.matched.step hstep hguarded.1
  by_cases hsend : ∃ req timed, event = .send req timed
  · obtain ⟨req, timed, rfl⟩ := hsend
    cases hstep
    exact h.send req timed hmatched
  · apply h.of_flows hmatched
    apply flows_of_step h hstep hguarded
    intro req timed heq
    exact hsend ⟨req, timed, heq⟩

theorem steady_create : Steady create := by
  refine ⟨matched_create, fun t => ?_, fun t ht => ?_, fun t _ hv => ?_,
    fun t _ hr => ?_, fun a ha => ?_⟩
  · simp [create, pipeline, Sender.tickets]
  · simp [create, pipeline, Sender.tickets] at ht
  · simp [create] at hv
  · simp [create] at hr
  · simp [create] at ha

end Transport

end Rpc

end Madbfs
