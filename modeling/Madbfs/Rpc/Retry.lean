/-
Repeated requests.  A request is sent again when the transport was stopped
under it, also if the server had executed it by then.  If no reconnection
strikes while a request that mutates waits for its response, such a request
reaches a transport at most once and is executed at most once.
-/
import Madbfs.Rpc.Connection
import Madbfs.Rpc.Pipeline

namespace Madbfs

namespace Rpc

namespace Connection

/-- The next id of the current transport is not in use. -/
def Fresh (s : Connection) : Prop :=
  ∀ t, s.transports[s.current]? = some t → t.running = true →
    ∀ u ∈ t.outstanding, u.id ≠ ⟨t.counter + 1⟩

/-- No request that mutates waits for its response. -/
def Settled (s : Connection) : Prop :=
  ∀ t, s.transports[s.current]? = some t → ∀ p ∈ t.waiting,
    p.ticket ∈ t.requests → p.ticket.req.mutates = false

/-- The steps that are allowed: those the protocol assumes, and reconnections
only while no request that mutates waits for its response. -/
def Guarded (s : Connection) : Event → Connection → Prop
  | .transport k event, _ => ∀ t t', s.transports[k]? = some t →
      t.step event = some t' → t.Guarded event t'
  | .ping _ _, _ => s.Fresh
  | .call _, _ => s.Fresh
  | .resume _, _ => s.Fresh
  | .reconnect, _ => s.Settled
  | .optimize, _ => s.Settled
  | _, _ => True

/-- A call whose request mutates has sent it at most once, and it is over when
this attempt is. -/
def SentOnce (call : SendReq) : Prop :=
  call.req.mutates = true →
    (call.attempts = [] ∧ ∀ a, call.stage ≠ .sending a) ∨
    ∃ a, call.attempts = [a] ∧ a.ticket.req = call.req ∧
      (call.stage = .sending a ∨ ∃ result, call.stage = .returned result)

/-- The invariant. -/
structure Safe (s : Connection) : Prop where
  steady : ∀ t ∈ s.transports, t.Steady
  calls : ∀ call ∈ s.calls, SentOnce call

variable {s s' : Connection}

theorem safe_create : Safe create where
  steady := fun t ht => by
    rw [List.mem_singleton.mp ht]
    exact Transport.steady_create
  calls := nofun

/-- The requests that a safe call has had executed. -/
theorem Safe.executions_le (h : Safe s) {call : SendReq}
    (hcall : call ∈ s.calls) (hmutates : call.req.mutates = true) :
    s.executions call ≤ 1 := by
  rcases h.calls call hcall hmutates with ⟨hnone, -⟩ | ⟨a, hone, -⟩
  · simp [executions, hnone]
  · simp only [executions, hone, List.map_cons, List.map_nil, List.sum_cons,
      List.sum_nil, Nat.add_zero]
    cases ht : s.transports[a.transport]? with
    | none => exact Nat.zero_le _
    | some t =>
        have honce := (h.steady t (List.mem_of_getElem? ht)).once a.ticket
        simp only [Transport.pipeline, List.count_append] at honce
        dsimp only
        omega

/-- Replace one transport by what a guarded step makes of it. -/
theorem Safe.onTransport (h : Safe s) {k : Nat} {event : Transport.Event}
    (hstep : s.onTransport k event = some s')
    (hguarded : ∀ t t', s.transports[k]? = some t → t.step event = some t' →
      t.Guarded event t') : Safe s' := by
  obtain ⟨t, ht, hmap⟩ := Option.bind_eq_some_iff.mp hstep
  obtain ⟨t', ht', rfl⟩ := Option.map_eq_some_iff.mp hmap
  refine ⟨fun u hu => ?_, h.calls⟩
  rcases List.mem_or_eq_of_mem_set hu with hold | rfl
  · exact h.steady u hold
  · exact (h.steady t (List.mem_of_getElem? ht)).step ht' (hguarded t u ht ht')

theorem Safe.setCall (h : Safe s) (i : Nat) {call : SendReq}
    (hcall : SentOnce call) : Safe { s with calls := s.calls.set i call } := by
  refine ⟨h.steady, fun other hother => ?_⟩
  rcases List.mem_or_eq_of_mem_set hother with hold | rfl
  · exact h.calls other hold
  · exact hcall

/-- An error that does not make the call repeat its request. -/
theorem Safe.failed (h : Safe s) (i : Nat) {call : SendReq} (err : Errc)
    (hcall : call.req.mutates = true → call.attempts = [] ∨
      err ≠ Errc.resourceUnavailableTryAgain ∧
        ∃ a, call.attempts = [a] ∧ a.ticket.req = call.req) :
    Safe (s.failed i call err) := by
  rw [Connection.failed]
  split_ifs with hagain
  · apply h.setCall
    intro hmutates
    rcases hcall hmutates with hnone | ⟨hne, -⟩
    · exact .inl ⟨hnone, nofun⟩
    · exact absurd hagain.1 hne
  · apply h.setCall
    intro hmutates
    rcases hcall hmutates with hnone | ⟨-, a, hone, hreq⟩
    · exact .inl ⟨hnone, nofun⟩
    · exact .inr ⟨a, hone, hreq, .inr ⟨_, rfl⟩⟩

/-- A round of a call that has sent nothing yet, if its request mutates. -/
theorem Safe.round (h : Safe s) (hfresh : s.Fresh) (i : Nat) {call : SendReq}
    (hcall : call.req.mutates = true → call.attempts = []) :
    Safe (s.round i call) := by
  rw [Connection.round]
  split_ifs with hcount
  · dsimp only
    cases ht : s.transports[s.current]? with
    | none => exact h
    | some t =>
        dsimp only
        split_ifs with hrunning
        · have hsteady := h.steady t (List.mem_of_getElem? ht)
          have hsent : (t.send call.req false).Steady :=
            hsteady.send _ _ (hsteady.matched.send _ _ (hfresh t ht))
          constructor
          · intro u hu
            rcases List.mem_or_eq_of_mem_set hu with hold | rfl
            · exact h.steady u hold
            · exact hsent
          · intro other hother
            rcases List.mem_or_eq_of_mem_set hother with hold | rfl
            · exact h.calls other hold
            · intro hmutates
              refine .inr ⟨_, ?_, rfl, .inl rfl⟩
              rw [hcall hmutates]
              rfl
        · exact h.failed i _ fun hmutates => .inl (hcall hmutates)
  · apply h.setCall
    intro hmutates
    exact .inl ⟨hcall hmutates, nofun⟩

theorem returnedOf_mem {a : Attempt} {result : Result}
    (hreturned : s.returnedOf a = some result) :
    ∃ t ∈ s.transports, (a.ticket, result) ∈ t.returned := by
  obtain ⟨t, ht, hmap⟩ := Option.bind_eq_some_iff.mp hreturned
  obtain ⟨v, hfind, rfl⟩ := Option.map_eq_some_iff.mp hmap
  refine ⟨t, List.mem_of_getElem? ht, ?_⟩
  have hticket := List.find?_some hfind
  rw [← beq_iff_eq.mp hticket]
  exact List.mem_of_find?_eq_some hfind

/-- A call whose attempt is over returns, if its request mutates. -/
theorem Safe.respond (h : Safe s) (i : Nat) {call : SendReq} {a : Attempt}
    {result : Result} (hcall : SentOnce call) (hstage : call.stage = .sending a)
    (hreturned : s.returnedOf a = some result) :
    Safe (s.respond i call result) := by
  have hone : call.req.mutates = true →
      call.attempts = [a] ∧ a.ticket.req = call.req := by
    intro hmutates
    rcases hcall hmutates with ⟨-, hnone⟩ | ⟨b, hone, hreq, hb⟩
    · exact absurd hstage (hnone a)
    · rcases hb with hb | ⟨other, hb⟩
      · rw [hstage] at hb
        cases hb
        exact ⟨hone, hreq⟩
      · rw [hstage] at hb
        cases hb
  cases result with
  | ok resp =>
      rw [Connection.respond]
      split_ifs
      · apply h.setCall
        intro hmutates
        obtain ⟨hattempts, hreq⟩ := hone hmutates
        exact .inr ⟨a, hattempts, hreq, .inr ⟨_, rfl⟩⟩
      · exact h.failed i _ fun hmutates =>
          .inr ⟨by decide, a, hone hmutates⟩
  | error err =>
      apply h.failed i err
      intro hmutates
      refine .inr ⟨?_, a, hone hmutates⟩
      rintro rfl
      obtain ⟨t, ht, hmem⟩ := returnedOf_mem hreturned
      apply (h.steady t ht).returned a.ticket _ hmem
      rw [(hone hmutates).2]
      exact hmutates

theorem Safe.resume (h : Safe s) (hfresh : s.Fresh) {i : Nat}
    (hstep : s.step (.resume i) = some s') : Safe s' := by
  obtain ⟨call, hcall, hstep⟩ := Option.bind_eq_some_iff.mp hstep
  have honce := h.calls call (List.mem_of_getElem? hcall)
  split at hstep
  next a hstage =>
    obtain ⟨result, hreturned, rfl⟩ := Option.map_eq_some_iff.mp hstep
    exact h.respond i honce hstage hreturned
  next future hstage =>
    split_ifs at hstep
    cases hstep
    apply h.round hfresh
    intro hmutates
    rcases honce hmutates with ⟨hnone, -⟩ | ⟨a, -, -, ha⟩
    · exact hnone
    · rw [hstage] at ha
      rcases ha with ha | ⟨result, ha⟩ <;> cases ha
  next => cases hstep

/-- The stop of the current transport for a reconnection. -/
theorem Safe.stop (h : Safe s) (hsettled : s.Settled)
    (hstep : s.onTransport s.current
      (.stop Errc.resourceUnavailableTryAgain) = some s') : Safe s' := by
  apply h.onTransport hstep
  intro t t' ht _
  exact ⟨trivial, hsettled t ht⟩

theorem Safe.addTransport (h : Safe s) :
    Safe { s with transports := s.transports ++ [.create] } := by
  refine ⟨fun t ht => ?_, h.calls⟩
  rcases List.mem_append.mp ht with hold | hnew
  · exact h.steady t hold
  · rw [List.mem_singleton.mp hnew]
    exact Transport.steady_create

theorem Safe.step {event : Event} (h : Safe s)
    (hstep : s.step event = some s') (hguarded : s.Guarded event s') :
    Safe s' := by
  cases event with
  | transport k event =>
      simp only [Connection.step] at hstep
      split_ifs at hstep
      exact h.onTransport hstep hguarded
  | ping num timed =>
      apply h.onTransport hstep
      intro t t' ht _
      exact ⟨hguarded t ht, trivial⟩
  | call req =>
      cases hstep
      have hadded : Safe { s with calls := s.calls ++ [.create req] } := by
        refine ⟨h.steady, fun call hcall => ?_⟩
        rcases List.mem_append.mp hcall with hold | hnew
        · exact h.calls call hold
        · rw [List.mem_singleton.mp hnew]
          exact fun _ => .inl ⟨rfl, nofun⟩
      exact hadded.round hguarded _ fun _ => rfl
  | resume i => exact h.resume hguarded hstep
  | start =>
      apply h.onTransport hstep
      exact fun _ _ _ _ => ⟨trivial, trivial⟩
  | reconnect =>
      simp only [Connection.step] at hstep
      split_ifs at hstep
      · cases hstep
        exact h
      · obtain ⟨s₁, hstop, rfl⟩ := Option.map_eq_some_iff.mp hstep
        have hstopped := h.stop hguarded hstop
        exact ⟨hstopped.steady, hstopped.calls⟩
  | reconnected =>
      simp only [Connection.step] at hstep
      split_ifs at hstep
      cases hstep
      exact ⟨h.addTransport.steady, h.calls⟩
  | optimize =>
      simp only [Connection.step] at hstep
      split_ifs at hstep
      · cases hstep
        exact h
      · obtain ⟨s₁, hstop, rfl⟩ := Option.map_eq_some_iff.mp hstep
        have hstopped := h.stop hguarded hstop
        exact ⟨hstopped.addTransport.steady, hstopped.calls⟩

theorem executed_at_most_once {events : List Event} {s : Connection}
    (hruns : Runs step Guarded create events s) {call : SendReq}
    (hcall : call ∈ s.calls) (hmutates : call.req.mutates = true) :
    s.executions call ≤ 1 := by
  have h : Safe s := hruns.preserves
    (fun hstep hguarded h => h.step hstep hguarded) safe_create
  exact h.executions_le hcall hmutates

/-- The events of a `mkdir` that is executed and answered. -/
def mkdirEvents : List Event :=
  [.start, .call (.mkdir [97] 0), .transport 0 .take, .transport 0 .wrote,
    .transport 0 .arrive, .transport 0 (.finish 0 (.success .mkdir)),
    .transport 0 .answer, .transport 0 .header, .transport 0 .payload,
    .transport 0 (.resume 0), .resume 0, .reconnect]

theorem runs_mkdirEvents :
    ∃ s : Connection, Runs step Guarded create mkdirEvents s ∧
      ∃ call ∈ s.calls, call.req = .mkdir [97] 0 ∧ s.executions call = 1 := by
  have hanswers : Answers (.mkdir [97] 0) (.success .mkdir) :=
    ⟨rfl, trivial, by decide⟩
  refine ⟨_, .cons rfl trivial (.cons rfl ?call
    (.cons rfl (fun _ _ _ _ => ⟨trivial, trivial⟩)
    (.cons rfl (fun _ _ _ _ => ⟨trivial, trivial⟩)
    (.cons rfl (fun _ _ _ _ => ⟨trivial, trivial⟩)
    (.cons rfl ?finish
    (.cons rfl (fun _ _ _ _ => ⟨trivial, trivial⟩)
    (.cons rfl (fun _ _ _ _ => ⟨trivial, trivial⟩)
    (.cons rfl (fun _ _ _ _ => ⟨trivial, trivial⟩)
    (.cons rfl (fun _ _ _ _ => ⟨trivial, trivial⟩)
    (.cons rfl ?resume (.cons rfl ?reconnect (.nil _)))))))))))),
    _, List.mem_singleton_self _, rfl, rfl⟩
  case call =>
    intro t ht _ u hu
    cases ht
    cases hu
  case finish =>
    intro t t' ht _
    cases ht
    refine ⟨fun u hu => ?_, fun u hu _ => ?_⟩
    · cases hu
      exact hanswers
    · decide
  case resume =>
    intro t ht _ u hu
    cases ht
    cases hu
  case reconnect =>
    intro t ht p hp
    cases ht
    cases hp

theorem executed_at_most_once_mkdir :
    ∃ s : Connection, Runs step Guarded create mkdirEvents s ∧
      ∃ call ∈ s.calls, call.req.mutates = true ∧ s.executions call ≤ 1 := by
  obtain ⟨s, hruns, call, hcall, hreq, -⟩ := runs_mkdirEvents
  have hmutates : call.req.mutates = true := by
    rw [hreq]
    rfl
  exact ⟨s, hruns, call, hcall, hmutates,
    executed_at_most_once hruns hcall hmutates⟩

end Connection

namespace LostResponse

/-- A `mkdir` is executed, and the watchdog reconnects before the response is
sent.  The call repeats its request on the new transport. -/
def events : List Connection.Event :=
  [.start, .call (.mkdir [97] 0), .transport 0 .take, .transport 0 .wrote,
    .transport 0 .arrive, .transport 0 (.finish 0 (.success .mkdir)),
    .reconnect, .transport 0 (.resume 0), .resume 0, .reconnected, .start,
    .resume 0, .transport 1 .take, .transport 1 .wrote, .transport 1 .arrive,
    .transport 1 (.finish 0 (.failed .mkdir ⟨17⟩)), .transport 1 .answer,
    .transport 1 .header, .transport 1 .payload, .transport 1 (.resume 0),
    .resume 0]

/-- The second execution finds the directory that the first one made. -/
theorem not_executed_once :
    ∃ s : Connection, events.foldlM Connection.step .create = some s ∧
      ∃ call ∈ s.calls, call.req.mutates = true ∧
        call.stage = .returned (.error Errc.fileExists) ∧
        s.executions call = 2 := by
  exact ⟨_, rfl, _, List.mem_singleton_self _, rfl, rfl, rfl⟩

end LostResponse

end Rpc

end Madbfs
