/-
Requests and responses are matched.  An id that is in use names one call of
`send`, wherever it occurs, because every step only moves or drops tickets and
a new one has a fresh id.  So a promise is set at most once, and with the
response that the server computed for its own request.
-/
import Madbfs.Run
import Madbfs.Rpc.Transport

namespace Madbfs

namespace Rpc

namespace Transport

/-- The promises that are not set yet. -/
def promises (s : Transport) : List Ticket :=
  s.requests ++ s.receiver.tickets

/-- The answers on their way to the client. -/
def inFlight (s : Transport) : List Answer :=
  s.answers ++ s.toClient ++ s.receiver.answers

/-- The invariant of the protocol. -/
structure Matched (s : Transport) : Prop where
  agree : ∀ t ∈ s.outstanding, ∀ u ∈ s.outstanding, t.id = u.id → t = u
  below : ∀ t ∈ s.outstanding, t.serial < s.serials
  values_below : ∀ v ∈ s.values, v.1.serial < s.serials
  once : ∀ t, s.promises.count t + (s.values.map Prod.fst).count t ≤ 1
  paired : ∀ t a, s.receiver = .payload t a → a.ticket = t
  in_flight : ∀ a ∈ s.inFlight, a ∈ s.computed
  answered : ∀ a ∈ s.computed, Answers a.ticket.req a.response
  values_ok : ∀ t resp, (t, .ok resp) ∈ s.values →
    ⟨t, .success resp⟩ ∈ s.computed
  returned_ok : ∀ t resp, (t, .ok resp) ∈ s.returned →
    (t, .ok resp) ∈ s.values

theorem matched_create : Matched create := by
  constructor <;>
    simp [create, outstanding, promises, inFlight, Sender.tickets,
      Receiver.tickets, Receiver.answers]

/-- What every step does that sends no new request: tickets are moved or
dropped, and a promise that is set is not there any more. -/
structure Moves (s s' : Transport) : Prop where
  drops : s'.outstanding ⊆ s.outstanding
  serials : s'.serials = s.serials
  once : ∀ t, s'.promises.count t + (s'.values.map Prod.fst).count t ≤
    s.promises.count t + (s.values.map Prod.fst).count t
  values : ∀ v ∈ s'.values, v ∈ s.values ∨
    v.1 ∈ s.outstanding ∧
      ∀ resp, v.2 = .ok resp → ⟨v.1, .success resp⟩ ∈ s'.computed
  values_grow : s.values ⊆ s'.values
  paired : ∀ t a, s'.receiver = .payload t a →
    s.receiver = .payload t a ∨ a.ticket = t
  in_flight : ∀ a ∈ s'.inFlight, a ∈ s.inFlight ∨ a ∈ s'.computed
  computed_grow : s.computed ⊆ s'.computed
  computed : ∀ a ∈ s'.computed,
    a ∈ s.computed ∨ Answers a.ticket.req a.response
  returned : ∀ t resp, (t, .ok resp) ∈ s'.returned →
    (t, .ok resp) ∈ s.returned ∨ (t, .ok resp) ∈ s'.values

variable {s s' s'' : Transport}

theorem Matched.of_moves (h : Matched s) (hm : Moves s s') : Matched s' where
  agree := fun t ht u hu =>
    h.agree t (hm.drops ht) u (hm.drops hu)
  below := fun t ht => by
    rw [hm.serials]
    exact h.below t (hm.drops ht)
  values_below := fun v hv => by
    rw [hm.serials]
    rcases hm.values v hv with hold | ⟨hnew, -⟩
    · exact h.values_below v hold
    · exact h.below v.1 hnew
  once := fun t => Nat.le_trans (hm.once t) (h.once t)
  paired := fun t a hreceiver =>
    (hm.paired t a hreceiver).elim (h.paired t a) id
  in_flight := fun a ha =>
    (hm.in_flight a ha).elim (fun hold => hm.computed_grow (h.in_flight a hold))
      id
  answered := fun a ha => (hm.computed a ha).elim (h.answered a) id
  values_ok := fun t resp hv => by
    rcases hm.values _ hv with hold | ⟨-, hok⟩
    · exact hm.computed_grow (h.values_ok t resp hold)
    · exact hok resp rfl
  returned_ok := fun t resp hr =>
    (hm.returned t resp hr).elim
      (fun hold => hm.values_grow (h.returned_ok t resp hold)) id

theorem Moves.trans (hm : Moves s s') (hm' : Moves s' s'') :
    Moves s s'' where
  drops := fun _ ht => hm.drops (hm'.drops ht)
  serials := hm'.serials.trans hm.serials
  once := fun t => Nat.le_trans (hm'.once t) (hm.once t)
  values := fun v hv => by
    rcases hm'.values v hv with hold | ⟨hnew, hok⟩
    · rcases hm.values v hold with hold | ⟨hnew, hok⟩
      · exact .inl hold
      · exact .inr ⟨hnew, fun resp hresp => hm'.computed_grow (hok resp hresp)⟩
    · exact .inr ⟨hm.drops hnew, hok⟩
  values_grow := fun _ hv => hm'.values_grow (hm.values_grow hv)
  paired := fun t a hreceiver =>
    (hm'.paired t a hreceiver).elim (hm.paired t a) .inr
  in_flight := fun a ha => by
    rcases hm'.in_flight a ha with hold | hnew
    · exact (hm.in_flight a hold).imp id fun hnew => hm'.computed_grow hnew
    · exact .inr hnew
  computed_grow := fun _ ha => hm'.computed_grow (hm.computed_grow ha)
  computed := fun a ha => (hm'.computed a ha).elim (hm.computed a) .inr
  returned := fun t resp hr => by
    rcases hm'.returned t resp hr with hold | hnew
    · exact (hm.returned t resp hold).imp id fun hnew => hm'.values_grow hnew
    · exact .inr hnew

/-- A step that sets no promise and computes no answer. -/
theorem Moves.of_eq (houtstanding : s'.outstanding ⊆ s.outstanding)
    (hserials : s'.serials = s.serials)
    (hpromises : ∀ t, s'.promises.count t ≤ s.promises.count t)
    (hvalues : s'.values = s.values)
    (hpaired : ∀ t a, s'.receiver = .payload t a →
      s.receiver = .payload t a ∨ a.ticket = t)
    (hflight : s'.inFlight ⊆ s.inFlight) (hcomputed : s'.computed = s.computed)
    (hreturned : ∀ t resp, (t, .ok resp) ∈ s'.returned →
      (t, .ok resp) ∈ s.returned ∨ (t, .ok resp) ∈ s'.values) :
    Moves s s' where
  drops := houtstanding
  serials := hserials
  once := fun t => by
    rw [hvalues]
    exact Nat.add_le_add_right (hpromises t) _
  values := fun v hv => .inl (hvalues ▸ hv)
  values_grow := fun v hv => hvalues ▸ hv
  paired := hpaired
  in_flight := fun a ha => .inl (hflight ha)
  computed_grow := fun a ha => hcomputed ▸ ha
  computed := fun a ha => .inl (hcomputed ▸ ha)
  returned := hreturned

section Entries

variable {requests : List Ticket} {id : Id} {t : Ticket}

theorem entry_mem (hentry : entry requests id = some t) : t ∈ requests :=
  List.mem_of_find?_eq_some hentry

theorem entry_id (hentry : entry requests id = some t) : t.id = id := by
  have hfound := List.find?_some hentry
  exact beq_iff_eq.mp hfound

theorem without_subset (requests : List Ticket) (id : Id) :
    without requests id ⊆ requests :=
  List.filter_subset_self _

/-- Of what an extraction leaves, the extracted entry is no part. -/
theorem count_without (hentry : entry requests id = some t) (u : Ticket) :
    (without requests id).count u + [t].count u ≤ requests.count u := by
  by_cases heq : u = t
  · subst heq
    have hzero : (without requests id).count u = 0 := by
      apply List.count_eq_zero_of_not_mem
      intro hmem
      have hne := (List.mem_filter.mp hmem).2
      simp [entry_id hentry] at hne
    have hpos := List.count_pos_iff.mpr (entry_mem hentry)
    rw [hzero, List.count_singleton_self]
    omega
  · have hle : (without requests id).count u ≤ requests.count u :=
      List.filter_sublist.count_le u
    rw [List.count_singleton, if_neg (by simpa using Ne.symm heq)]
    omega

end Entries

/-- The fields that the invariant reads, for an update of the others. -/
theorem Moves.refl : Moves s s :=
  .of_eq (fun _ ht => ht) rfl (fun _ => Nat.le_refl _) rfl
    (fun _ _ => .inl) (fun _ ha => ha) rfl fun _ _ => .inl

theorem failAll_moves (s : Transport) (status : Errc) :
    Moves s (s.failAll status) where
  drops := by
    intro t
    simp only [outstanding, failAll, List.nil_append, List.mem_append]
    grind
  serials := rfl
  once := fun t => by
    have hmap : (s.requests.map fun t =>
        ((t, .error status) : Ticket × Result)).map Prod.fst = s.requests := by
      rw [List.map_map]
      exact List.map_id _
    simp only [promises, failAll, List.nil_append, List.map_append, hmap,
      List.count_append]
    omega
  values := fun v hv => by
    rcases List.mem_append.mp hv with hold | hnew
    · exact .inl hold
    · obtain ⟨t, ht, rfl⟩ := List.mem_map.mp hnew
      refine .inr ⟨?_, nofun⟩
      simp [outstanding, ht]
  values_grow := fun _ => List.mem_append_left _
  paired := fun _ _ => .inl
  in_flight := fun _ => .inl
  computed_grow := fun _ => id
  computed := fun _ => .inl
  returned := fun _ _ => .inl

theorem failOne_moves (s : Transport) (id : Id) (status : Errc) :
    Moves s (s.failOne id status) := by
  rw [failOne]
  cases hentry : entry s.requests id with
  | none => exact Moves.refl
  | some t =>
      constructor
      case drops =>
        intro u
        have hsubset : u ∈ without s.requests id → u ∈ s.requests :=
          fun hu => without_subset s.requests id hu
        simp only [outstanding, List.mem_append]
        grind
      case once =>
        intro u
        have hcount := count_without hentry u
        simp only [promises, List.map_append, List.map_cons, List.map_nil,
          List.count_append]
        omega
      case values =>
        intro v hv
        rcases List.mem_append.mp hv with hold | hnew
        · exact .inl hold
        · rw [List.mem_singleton.mp hnew]
          refine .inr ⟨?_, nofun⟩
          simp [outstanding, entry_mem hentry]
      case serials => rfl
      case values_grow => exact fun _ => List.mem_append_left _
      case paired => exact fun _ _ => .inl
      case in_flight => exact fun _ => .inl
      case computed_grow => exact fun _ ha => ha
      case computed => exact fun _ => .inl
      case returned => exact fun _ _ => .inl

theorem cancelChannel_moves (s : Transport) : Moves s s.cancelChannel := by
  apply Moves.of_eq
  · intro t
    have hsender : t ∈ s.cancelChannel.sender.tickets →
        t ∈ s.sender.tickets := by
      simp only [cancelChannel]
      cases s.sender <;> exact id
    simp only [outstanding, List.mem_append]
    simp only [cancelChannel] at hsender ⊢
    simp only [List.map_nil, List.not_mem_nil, or_false]
    grind
  · rfl
  · exact fun _ => Nat.le_refl _
  · rfl
  · exact fun _ _ => .inl
  · exact fun _ => id
  · rfl
  · intro t resp hr
    rcases List.mem_append.mp hr with hold | hnew
    · exact .inl hold
    · obtain ⟨p, -, hp⟩ := List.mem_map.mp hnew
      cases hp

/-- An errno survives the narrowing. -/
theorem narrowStatus_errno {status : Errc} (hpos : 0 < status.code)
    (hlt : status.code < 256) : narrowStatus status ≠ ⟨0⟩ := by
  rw [narrowStatus_eq]
  simp only [ne_eq, Errc.mk.injEq]
  omega

/-- A response that answers a request is received as it was computed. -/
theorem received_ok {req : Request} {response : FallibleResponse}
    (hanswers : Answers req response) {resp : Response (List Byte)}
    (hreceived : received req response = .ok resp) :
    response = .success resp := by
  obtain ⟨hproc, hbody⟩ := hanswers
  rw [received] at hreceived
  cases response with
  | failed proc status =>
      obtain ⟨hpos, hlt⟩ := hbody
      have hstatus : narrowStatus (FallibleResponse.failed proc status).status ≠
          ⟨0⟩ :=
        narrowStatus_errno hpos hlt
      rw [if_pos hstatus] at hreceived
      cases hreceived
  | success value =>
      obtain ⟨hfits, hsize⟩ := hbody
      have hparse : (parseResponse (responsePayload value) req).1 =
          .ok (value.received req) :=
        (Takes.responseOf hproc hfits).on_create
          (Nat.lt_of_le_of_lt hsize (by decide))
      have hstatus : narrowStatus (FallibleResponse.success value).status =
          ⟨0⟩ :=
        rfl
      rw [if_neg (not_not_intro hstatus), if_neg (not_not_intro hproc)]
        at hreceived
      simp only [FallibleResponse.payload, hparse] at hreceived
      rw [Response.view_received hfits] at hreceived
      cases hreceived
      rfl

theorem future_mem {t : Ticket} {result : Result}
    (hfuture : s.future t = some result) : (t, result) ∈ s.values := by
  obtain ⟨v, hfind, rfl⟩ := Option.map_eq_some_iff.mp hfuture
  have hmem := List.mem_of_find?_eq_some hfind
  have heq := List.find?_some hfind
  rw [← beq_iff_eq.mp heq]
  exact hmem

/-- A new answer to a request that is outstanding. -/
theorem Moves.of_computed {t : Ticket} {response : FallibleResponse}
    (hanswers : Answers t.req response)
    (houtstanding : s'.outstanding ⊆ s.outstanding)
    (hserials : s'.serials = s.serials) (hpromises : s'.promises = s.promises)
    (hvalues : s'.values = s.values) (hreceiver : s'.receiver = s.receiver)
    (hflight : ∀ a ∈ s'.inFlight, a ∈ s.inFlight ∨ a = ⟨t, response⟩)
    (hcomputed : s'.computed = s.computed ++ [⟨t, response⟩])
    (hreturned : s'.returned = s.returned) : Moves s s' where
  drops := houtstanding
  serials := hserials
  once := fun u => by rw [hvalues, hpromises]
  values := fun v hv => .inl (hvalues ▸ hv)
  values_grow := fun v hv => hvalues ▸ hv
  paired := fun u a hpayload => .inl (hreceiver ▸ hpayload)
  in_flight := fun a ha => by
    rcases hflight a ha with hold | rfl
    · exact .inl hold
    · rw [hcomputed]
      exact .inr (List.mem_append_right _ (List.mem_singleton_self _))
  computed_grow := fun a ha => by
    rw [hcomputed]
    exact List.mem_append_left _ ha
  computed := fun a ha => by
    rw [hcomputed] at ha
    rcases List.mem_append.mp ha with hold | hnew
    · exact .inl hold
    · rw [List.mem_singleton.mp hnew]
      exact .inr hanswers
  returned := fun u resp hr => .inl (hreturned ▸ hr)

/-- `response_receive` sets the promise of the entry that it holds. -/
theorem Moves.of_set {t : Ticket} {a : Answer} {result : Result}
    {next : Receiver} (hreceiver : s.receiver = .payload t a)
    (hnext : next.tickets = [] ∧ next.answers = [])
    (hresult : ∀ resp, result = .ok resp → ⟨t, .success resp⟩ ∈ s.computed) :
    Moves s { s with
      values := s.values ++ [(t, result)], receiver := next } where
  drops := by
    intro u
    simp only [outstanding, hnext, List.map_nil, List.append_nil,
      List.mem_append]
    grind
  serials := rfl
  once := fun u => by
    have hheld : s.receiver.tickets = [t] := by
      rw [hreceiver]
      rfl
    simp only [promises, hnext, hheld, List.map_append, List.map_cons,
      List.map_nil, List.count_append, List.count_nil]
    omega
  values := fun v hv => by
    rcases List.mem_append.mp hv with hold | hnew
    · exact .inl hold
    · rw [List.mem_singleton.mp hnew]
      refine .inr ⟨?_, hresult⟩
      simp [outstanding, hreceiver, Receiver.tickets]
  values_grow := fun _ => List.mem_append_left _
  paired := fun u b hpayload => by
    change next = _ at hpayload
    rw [hpayload] at hnext
    cases hnext.1
  in_flight := fun b hb => by
    simp only [inFlight, hnext, List.append_nil] at hb
    exact .inl (List.mem_append_left _ hb)
  computed_grow := fun _ hb => hb
  computed := fun _ => .inl
  returned := fun _ _ => .inl

theorem nextReceive_empty (s : Transport) :
    s.nextReceive.tickets = [] ∧ s.nextReceive.answers = [] := by
  rw [nextReceive]
  split <;> exact ⟨rfl, rfl⟩

theorem nextSend_empty (s : Transport) : s.nextSend.tickets = [] := by
  rw [nextSend]
  split <;> rfl

theorem arrive_moves (s : Transport) (t : Ticket) (rest : List Ticket)
    (hserver : s.toServer = t :: rest) :
    Moves s ({ s with toServer := rest }.arrive t) := by
  have hdrops : ∀ u, u ∈ rest → u ∈ s.toServer := fun u hu => by
    rw [hserver]
    exact List.mem_cons_of_mem t hu
  have hhead : t ∈ s.toServer := by
    rw [hserver]
    exact List.mem_cons_self
  rw [arrive]
  cases entry s.served t.id with
  | some old =>
      refine Moves.of_eq (fun u => ?_) rfl (fun _ => Nat.le_refl _) rfl
        (fun _ _ => .inl) (fun _ ha => ha) rfl fun _ _ => .inl
      have hrest := hdrops u
      simp only [outstanding, List.mem_append]
      grind
  | none =>
      dsimp only
      split
      next num hreq =>
        have hanswers : Answers t.req (.success (.ping num)) := by
          rw [hreq]
          exact ⟨rfl, trivial, by
            rw [responsePayload, NetBytes.length_toNetBytes]
            decide⟩
        refine Moves.of_computed hanswers ?_ rfl rfl rfl rfl ?_ rfl rfl
        · intro u
          have hrest := hdrops u
          simp only [outstanding, List.mem_append, List.map_append,
            List.map_cons, List.map_nil, List.mem_singleton]
          grind
        · intro a
          simp only [inFlight, List.mem_append, List.mem_singleton]
          grind
      next hreq =>
        refine Moves.of_eq (fun u => ?_) rfl (fun _ => Nat.le_refl _) rfl
          (fun _ _ => .inl) (fun _ ha => ha) rfl fun _ _ => .inl
        have hrest := hdrops u
        have hself : u = t → u ∈ s.toServer := by
          rintro rfl
          exact hhead
        simp only [outstanding, List.mem_append, List.mem_singleton]
        grind

theorem sendResponse_moves (s : Transport) (a : Answer) (rest : List Answer)
    (sent : Bool) (hanswers : s.answers = a :: rest) :
    Moves s ({ s with answers := rest }.sendResponse a sent) := by
  have hrest : ∀ b, b ∈ rest → b ∈ s.answers := fun b hb => by
    rw [hanswers]
    exact List.mem_cons_of_mem a hb
  have hhead : a ∈ s.answers := by
    rw [hanswers]
    exact List.mem_cons_self
  have htickets : ∀ u, u ∈ rest.map Answer.ticket →
      u ∈ s.answers.map Answer.ticket := fun u hu => by
    obtain ⟨b, hb, rfl⟩ := List.mem_map.mp hu
    exact List.mem_map_of_mem (hrest b hb)
  have hticket : a.ticket ∈ s.answers.map Answer.ticket :=
    List.mem_map_of_mem hhead
  rw [sendResponse]
  cases entry s.served a.ticket.id with
  | none =>
      refine Moves.of_eq (fun u => ?_) rfl (fun _ => Nat.le_refl _) rfl
        (fun _ _ => .inl) (fun b => ?_) rfl fun _ _ => .inl
      · have htickets := htickets u
        simp only [outstanding, List.mem_append]
        grind
      · have hrest := hrest b
        simp only [inFlight, List.mem_append]
        grind
  | some old =>
      refine Moves.of_eq (fun u => ?_) rfl (fun _ => Nat.le_refl _) rfl
        (fun _ _ => .inl) (fun b => ?_) rfl fun _ _ => .inl
      · have htickets := htickets u
        have hserved : u ∈ without s.served a.ticket.id → u ∈ s.served :=
          fun hu => without_subset s.served a.ticket.id hu
        have hself : u = a.ticket → u ∈ s.answers.map Answer.ticket := by
          rintro rfl
          exact hticket
        cases sent <;>
          simp only [outstanding, List.mem_append, if_true, Bool.false_eq_true,
            if_false, List.map_append, List.map_cons, List.map_nil,
            List.mem_singleton] <;>
          grind
      · have hrest := hrest b
        have hself : b = a → b ∈ s.answers := by
          rintro rfl
          exact hhead
        cases sent <;>
          simp only [inFlight, List.mem_append, if_true, Bool.false_eq_true,
            if_false, List.mem_singleton] <;>
          grind

theorem served_subset (answers : List Answer) (served : List Ticket) :
    answers.foldl (fun served a => without served a.ticket.id) served ⊆
      served := by
  induction answers generalizing served with
  | nil => exact fun _ ht => ht
  | cons a rest ih =>
      intro t ht
      exact without_subset served a.ticket.id (ih _ ht)

/-- `response_receive` waits for something that is not a payload. -/
theorem receiver_moves (s : Transport) {next : Receiver}
    (hnext : next.tickets = [] ∧ next.answers = []) :
    Moves s { s with receiver := next } := by
  apply Moves.of_eq
  · intro u
    simp only [outstanding, hnext, List.map_nil, List.append_nil,
      List.mem_append]
    grind
  · rfl
  · intro u
    simp only [promises, hnext, List.append_nil, List.count_append]
    omega
  · rfl
  · intro t a hpayload
    change next = _ at hpayload
    rw [hpayload] at hnext
    cases hnext.1
  · intro a
    simp only [inFlight, hnext, List.append_nil, List.mem_append]
    grind
  · rfl
  · exact fun _ _ => .inl

/-- The invariant does not depend on the flag and on the suspended calls. -/
theorem unread_moves (s : Transport) (running : Bool)
    (waiting : List Pending) :
    Moves s { s with running := running, waiting := waiting } :=
  .of_eq (fun _ ht => ht) rfl (fun _ => Nat.le_refl _) rfl (fun _ _ => .inl)
    (fun _ ha => ha) rfl fun _ _ => .inl

/-- `request_send` waits for something that is not a write. -/
theorem sender_moves (s : Transport) {next : Sender}
    (hnext : next.tickets = []) : Moves s { s with sender := next } := by
  refine Moves.of_eq (fun u => ?_) rfl (fun _ => Nat.le_refl _) rfl
    (fun _ _ => .inl) (fun _ ha => ha) rfl fun _ _ => .inl
  simp only [outstanding, hnext, List.append_nil, List.mem_append]
  grind

theorem take_moves {p : Pending} {rest : List Pending}
    (hchannel : s.channel = p :: rest) :
    Moves s { s with
      sender := .writing p.ticket
      channel := rest
      waiting := s.waiting ++ [p] } := by
  refine Moves.of_eq (fun u => ?_) rfl (fun _ => Nat.le_refl _) rfl
    (fun _ _ => .inl) (fun _ ha => ha) rfl fun _ _ => .inl
  simp only [outstanding, hchannel, Sender.tickets, List.map_cons,
    List.mem_append, List.mem_cons]
  grind

theorem wrote_moves {t : Ticket} (hsender : s.sender = .writing t) :
    Moves s { s with sender := s.nextSend, toServer := s.toServer ++ [t] } := by
  refine Moves.of_eq (fun u => ?_) rfl (fun _ => Nat.le_refl _) rfl
    (fun _ _ => .inl) (fun _ ha => ha) rfl fun _ _ => .inl
  have hwriting : s.sender.tickets = [t] := by
    rw [hsender]
    rfl
  simp only [outstanding, nextSend_empty, hwriting, List.append_nil,
    List.mem_append]
  grind

theorem finish_moves {i : Nat} {t : Ticket} {response : FallibleResponse}
    (ht : s.handlers[i]? = some t) (hanswers : Answers t.req response) :
    Moves s { s with
      handlers := s.handlers.eraseIdx i
      answers := s.answers ++ [⟨t, response⟩]
      computed := s.computed ++ [⟨t, response⟩] } := by
  have hmem := List.mem_of_getElem? ht
  refine Moves.of_computed hanswers (fun u => ?_) rfl rfl rfl rfl
    (fun a => ?_) rfl rfl
  · have hrest : u ∈ s.handlers.eraseIdx i → u ∈ s.handlers :=
      fun hu => List.mem_of_mem_eraseIdx hu
    simp only [outstanding, List.map_append, List.map_cons, List.map_nil,
      List.mem_append, List.mem_singleton]
    grind
  · simp only [inFlight, List.mem_append, List.mem_singleton]
    grind

theorem serverFailed_moves (s : Transport) :
    Moves s { s with
      answers := []
      served := s.answers.foldl (fun served a => without served a.ticket.id)
        s.served } := by
  have hserved := served_subset s.answers s.served
  refine Moves.of_eq (fun u => ?_) rfl (fun _ => Nat.le_refl _) rfl
    (fun _ _ => .inl) (fun a => ?_) rfl fun _ _ => .inl
  · have hserved := hserved (a := u)
    simp only [outstanding, List.map_nil, List.append_nil, List.mem_append]
    grind
  · simp only [inFlight, List.nil_append, List.mem_append]
    grind

/-- The client drops a response that nobody waits for. -/
theorem drop_moves {a : Answer} {rest : List Answer}
    (hclient : s.toClient = a :: rest) :
    Moves s { s with toClient := rest } := by
  refine Moves.of_eq (fun u => ?_) rfl (fun _ => Nat.le_refl _) rfl
    (fun _ _ => .inl) (fun b => ?_) rfl fun _ _ => .inl
  · simp only [outstanding, hclient, List.map_cons, List.mem_append,
      List.mem_cons]
    grind
  · simp only [inFlight, hclient, List.mem_append, List.mem_cons]
    grind

/-- The client extracts the entry of a response.  It is the entry of the
request that the response is for. -/
theorem header_moves (h : Matched s) {t : Ticket} {a : Answer}
    {rest : List Answer} (hreceiver : s.receiver = .header)
    (hclient : s.toClient = a :: rest)
    (hentry : entry s.requests a.ticket.id = some t) :
    Moves s { s with
      toClient := rest
      requests := without s.requests a.ticket.id
      receiver := .payload t a } := by
  have hmem := entry_mem hentry
  have hpaired : a.ticket = t := by
    apply h.agree
    · simp [outstanding, hclient]
    · simp [outstanding, hmem]
    · exact (entry_id hentry).symm
  apply Moves.of_eq
  · intro u
    have hrest : u ∈ without s.requests a.ticket.id → u ∈ s.requests :=
      fun hu => without_subset s.requests a.ticket.id hu
    simp only [outstanding, hclient, hreceiver, Receiver.tickets,
      Receiver.answers, List.map_cons, List.map_nil, List.append_nil,
      List.mem_append, List.mem_cons]
    grind
  · rfl
  · intro u
    have hcount := count_without hentry u
    simp only [promises, hreceiver, Receiver.tickets, List.append_nil,
      List.count_append]
    omega
  · rfl
  · intro u b hpayload
    cases hpayload
    exact .inr hpaired
  · intro b
    simp only [inFlight, hclient, hreceiver, Receiver.answers, List.append_nil,
      List.mem_append, List.mem_cons]
    grind
  · rfl
  · exact fun _ _ => .inl

/-- A call of `send` returns what its promise was set to, or an error. -/
theorem returned_moves (s : Transport) (waiting : List Pending) {t : Ticket}
    {result : Result}
    (hresult : ∀ resp, result = .ok resp → (t, result) ∈ s.values) :
    Moves s { s with
      waiting := waiting, returned := s.returned ++ [(t, result)] } := by
  refine Moves.of_eq (fun _ hu => hu) rfl (fun _ => Nat.le_refl _) rfl
    (fun _ _ => .inl) (fun _ ha => ha) rfl fun u resp hr => ?_
  rcases List.mem_append.mp hr with hold | hnew
  · exact .inl hold
  · cases List.mem_singleton.mp hnew
    exact .inr (hresult resp rfl)

theorem timedOut_moves (s : Transport) (t : Ticket) :
    Moves s (s.timedOut t) := by
  refine (failOne_moves s t.id Errc.timedOut).trans ?_
  apply returned_moves (s.failOne t.id Errc.timedOut) _
  intro resp hresp
  cases hfuture : (s.failOne t.id Errc.timedOut).future t with
  | none =>
      rw [hfuture] at hresp
      cases hresp
  | some result => exact future_mem hfuture

/-- A step that sends no new request moves or drops tickets. -/
theorem moves_of_step {event : Event} (h : Matched s)
    (hstep : s.step event = some s') (hassumed : s.Assumed event s')
    (hsend : ∀ req timed, event ≠ .send req timed) : Moves s s' := by
  cases event <;> simp only [step] at hstep
  case start =>
    split at hstep <;> cases hstep
    exact ((unread_moves s true s.waiting).trans (sender_moves _ rfl)).trans
      (receiver_moves _ ⟨rfl, rfl⟩)
  case send req timed => exact absurd rfl (hsend req timed)
  case take =>
    split at hstep <;> cases hstep
    next p rest hsender hchannel => exact take_moves hchannel
  case wrote =>
    split at hstep <;> cases hstep
    next t hsender => exact wrote_moves hsender
  case writeFailed err =>
    split at hstep <;> cases hstep
    next t hsender =>
      exact (failOne_moves s t.id err).trans
        (sender_moves _ s.nextSend_empty)
  case arrive =>
    split at hstep <;> cases hstep
    next t rest hserver => exact arrive_moves s t rest hserver
  case finish i response =>
    obtain ⟨t, ht, rfl⟩ := Option.map_eq_some_iff.mp hstep
    exact finish_moves ht (hassumed t ht)
  case answer =>
    split at hstep <;> cases hstep
    next a rest hanswers => exact sendResponse_moves s a rest true hanswers
  case answerLost =>
    split at hstep <;> cases hstep
    next a rest hanswers => exact sendResponse_moves s a rest false hanswers
  case serverFailed =>
    cases hstep
    exact serverFailed_moves s
  case header =>
    split at hstep
    next a rest hreceiver hclient =>
      split at hstep <;> cases hstep
      next =>
        exact (drop_moves hclient).trans
          (receiver_moves _ s.nextReceive_empty)
      next t hentry => exact header_moves h hreceiver hclient hentry
    next => cases hstep
  case headerFailed =>
    split at hstep <;> cases hstep
    exact receiver_moves s ⟨rfl, rfl⟩
  case payload =>
    split at hstep <;> cases hstep
    next t a hreceiver =>
      apply Moves.of_set hreceiver s.nextReceive_empty
      intro resp hresp
      have hflight : a ∈ s.inFlight := by
        simp [inFlight, hreceiver, Receiver.answers]
      have hcomputed := h.in_flight a hflight
      have hanswers := h.answered a hcomputed
      have hticket := h.paired t a hreceiver
      rw [hticket] at hanswers
      rw [← hticket, ← received_ok hanswers hresp]
      exact hcomputed
  case payloadFailed err =>
    split at hstep <;> cases hstep
    next t a hreceiver =>
      exact Moves.of_set hreceiver s.nextReceive_empty nofun
  case completed =>
    split at hstep <;> cases hstep
    exact ((failAll_moves s _).trans (cancelChannel_moves _)).trans
      ((unread_moves _ false s.waiting).trans (receiver_moves _ ⟨rfl, rfl⟩))
  case timeout i =>
    split at hstep <;> cases hstep
    next t _ =>
      exact (unread_moves s s.running (s.waiting.eraseIdx i)).trans
        (timedOut_moves _ t)
  case resume i =>
    split at hstep
    next t timed _ =>
      obtain ⟨result, hfuture, rfl⟩ := Option.map_eq_some_iff.mp hstep
      exact returned_moves s _ fun _ _ => future_mem hfuture
    next => cases hstep
  case stop status =>
    split at hstep <;> cases hstep
    · exact ((failAll_moves s _).trans (cancelChannel_moves _)).trans
        (unread_moves _ false s.waiting)
    · exact Moves.refl

/-- A new ticket with an id that is not in use. -/
theorem Matched.add (h : Matched s) {new : Ticket} (counter : UInt32)
    (timed : Bool) (hserial : new.serial = s.serials)
    (hfresh : ∀ t ∈ s.outstanding, t.id ≠ new.id) :
    Matched { s with
      counter := counter
      serials := s.serials + 1
      requests := s.requests ++ [new]
      channel := s.channel ++ [⟨new, timed⟩] } := by
  have hadds : ∀ u, u ∈ ({ s with
      counter := counter
      serials := s.serials + 1
      requests := s.requests ++ [new]
      channel := s.channel ++ [⟨new, timed⟩] } : Transport).outstanding →
      u ∈ s.outstanding ∨ u = new := by
    intro u
    simp only [outstanding, List.map_append, List.map_cons, List.map_nil,
      List.mem_append, List.mem_singleton]
    grind
  have hnew : new ∉ s.outstanding := fun hmem => hfresh new hmem rfl
  constructor
  case agree =>
    intro t ht u hu hid
    rcases hadds t ht with hold | hnew <;>
      rcases hadds u hu with hold' | hnew'
    · exact h.agree t hold u hold' hid
    · exact absurd (hnew' ▸ hid) (hfresh t hold)
    · exact absurd (hnew ▸ hid.symm) (hfresh u hold')
    · rw [hnew, hnew']
  case below =>
    intro t ht
    rcases hadds t ht with ht | rfl
    · exact Nat.lt_succ_of_lt (h.below t ht)
    · exact Nat.lt_succ_of_le (Nat.le_of_eq hserial)
  case values_below =>
    exact fun v hv => Nat.lt_succ_of_lt (h.values_below v hv)
  case once =>
    intro t
    have hold := h.once t
    simp only [promises, List.count_append] at hold ⊢
    by_cases heq : t = new
    · subst heq
      have hpromises : t ∉ s.promises := by
        intro hmem
        apply hnew
        simp only [promises, outstanding, List.mem_append] at hmem ⊢
        grind
      have hvalues : t ∉ s.values.map Prod.fst := by
        intro hmem
        obtain ⟨v, hv, rfl⟩ := List.mem_map.mp hmem
        exact Nat.lt_irrefl _ (hserial ▸ h.values_below v hv)
      have hzero := List.count_eq_zero_of_not_mem hpromises
      have hzero' := List.count_eq_zero_of_not_mem hvalues
      simp only [promises, List.count_append] at hzero
      rw [List.count_singleton_self]
      omega
    · rw [List.count_singleton, if_neg (by simpa using Ne.symm heq)]
      omega
  case paired => exact h.paired
  case in_flight => exact h.in_flight
  case answered => exact h.answered
  case values_ok => exact h.values_ok
  case returned_ok => exact h.returned_ok

theorem Matched.send (h : Matched s) (req : Request) (timed : Bool)
    (hfresh : s.running = true →
      ∀ t ∈ s.outstanding, t.id ≠ ⟨s.counter + 1⟩) :
    Matched (s.send req timed) := by
  rw [Transport.send]
  split_ifs with hrunning
  · have hfresh := hfresh hrunning
    have hentry : entry s.requests ⟨s.counter + 1⟩ = none := by
      apply List.find?_eq_none.mpr
      intro t ht
      simpa using hfresh t (by simp [outstanding, ht])
    dsimp only
    rw [hentry]
    exact h.add _ timed rfl hfresh
  · exact h

theorem Matched.step {event : Event} (h : Matched s)
    (hstep : s.step event = some s') (hassumed : s.Assumed event s') :
    Matched s' := by
  by_cases hsend : ∃ req timed, event = .send req timed
  · obtain ⟨req, timed, rfl⟩ := hsend
    cases hstep
    exact h.send req timed hassumed
  · apply h.of_moves
    apply moves_of_step h hstep hassumed
    intro req timed heq
    exact hsend ⟨req, timed, heq⟩

theorem promises_matched {events : List Event} {s : Transport}
    (hruns : Runs step Assumed create events s) :
    (s.values.map Prod.fst).Nodup ∧
    ∀ t resp, (t, .ok resp) ∈ s.returned →
      ⟨t, .success resp⟩ ∈ s.computed := by
  have h : Matched s := hruns.preserves
    (fun hstep hassumed h => h.step hstep hassumed) matched_create
  constructor
  · apply List.nodup_iff_count_le_one.mpr
    intro t
    have honce := h.once t
    omega
  · intro t resp hreturned
    exact h.values_ok t resp (h.returned_ok t resp hreturned)

/-- The events of an `open` that is answered. -/
def openEvents : List Event :=
  [.start, .send (.open [47] ⟨0⟩) false, .take, .wrote, .arrive,
    .finish 0 (.success (.open 3)), .answer, .header, .payload, .resume 0]

theorem runs_openEvents :
    ∃ s : Transport, Runs step Assumed create openEvents s ∧
      s.returned = [(⟨0, ⟨1⟩, .open [47] ⟨0⟩⟩, .ok (.open 3))] := by
  have hanswers : Answers (.open [47] ⟨0⟩) (.success (.open 3)) :=
    ⟨rfl, trivial, by decide⟩
  refine ⟨_, .cons rfl trivial (.cons rfl (fun _ => nofun)
    (.cons rfl trivial (.cons rfl trivial (.cons rfl trivial
    (.cons rfl (fun t ht => ?_) (.cons rfl trivial (.cons rfl trivial
    (.cons rfl trivial (.cons rfl trivial (.nil _)))))))))), ?_⟩
  · cases ht
    exact hanswers
  · decide +kernel

theorem promises_matched_open :
    ∃ s : Transport, Runs step Assumed create openEvents s ∧
      s.returned = [(⟨0, ⟨1⟩, .open [47] ⟨0⟩⟩, .ok (.open 3))] ∧
      (s.values.map Prod.fst).Nodup ∧
      ⟨⟨0, ⟨1⟩, .open [47] ⟨0⟩⟩, .success (.open 3)⟩ ∈ s.computed := by
  obtain ⟨s, hruns, hreturned⟩ := runs_openEvents
  obtain ⟨hnodup, hcomputed⟩ := promises_matched hruns
  refine ⟨s, hruns, hreturned, hnodup, hcomputed _ _ ?_⟩
  rw [hreturned]
  exact List.mem_singleton_self _

end Transport

end Rpc

end Madbfs
