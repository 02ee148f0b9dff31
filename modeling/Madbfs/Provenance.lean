/-
Descriptors and the transports that issued them.  A request is executed by a
transport that did not issue its descriptor when the descriptor outlives the
transport: in the hand of a suspended operation, in a request that is
repeated, in an answer that is delivered too late, or in a handle.  If nothing
holds a descriptor while the transport is replaced, every descriptor is used
on its own transport only.
-/
import Madbfs.Session

namespace Madbfs

theorem Task.request_fds {c : Cache} {task : Task} {request : Request}
    (hrequest : task.request c = some request) :
    ∀ fd ∈ request.fds, fd ∈ task.fds := by
  have hflushAt : ∀ addr fd pc request,
      flushAtRequest c addr fd pc = some request → request.fds = [fd] := by
    intro addr fd pc request hsome
    cases pc <;> cases hsome
    rfl
  have hevict : ∀ pc request, evictRequest c pc = some request →
      ∀ fd ∈ request.fds, fd ∈ EvictPc.fds pc := by
    intro pc request hsome
    cases pc with
    | opening addr rest =>
        obtain ⟨entry, -, rfl⟩ := Option.map_eq_some_iff.mp hsome
        nofun
    | flushing addr fd rest pc =>
        rw [hflushAt addr fd pc request hsome]
        exact fun _ h => h
  have hflush : ∀ id pc request, flushRequest c id pc = some request →
      ∀ fd ∈ request.fds, fd ∈ FlushPc.fds pc := by
    intro id pc request hsome
    cases pc with
    | start => cases hsome
    | opening =>
        obtain ⟨entry, -, rfl⟩ := Option.map_eq_some_iff.mp hsome
        nofun
    | flushing index addr fd pc =>
        change (if _ then _ else _) = _ at hsome
        split_ifs at hsome
        rw [hflushAt addr fd pc request hsome]
        exact fun _ h => h
  cases task with
  | readAt r pc =>
      cases pc with
      | start => cases hrequest
      | queued fut => cases hrequest
      | opening =>
          obtain ⟨entry, -, rfl⟩ := Option.map_eq_some_iff.mp hrequest
          nofun
      | fetching fd fut =>
          cases hrequest
          exact fun _ h => h
      | evicting addr pc => exact hevict pc request hrequest
  | writeAt r input pc =>
      cases pc with
      | start => cases hrequest
      | queued fut => cases hrequest
      | evicting addr pc => exact hevict pc request hrequest
  | flush id pc => exact hflush id pc request hrequest
  | truncate id oldSize newSize pc =>
      cases pc with
      | start => cases hrequest
      | evicting first pc => exact hevict pc request hrequest
  | invalidateOne id shouldFlush pc => exact hflush id pc request hrequest
  | shutdown after pc =>
      cases pc with
      | start => cases hrequest
      | flushing id rest pc => exact hflush id pc request hrequest
      | closing fd rest =>
          cases hrequest
          intro fd' hfd'
          rw [List.mem_singleton.mp hfd']
          exact List.mem_cons_self
  | cleanStaleFds pc =>
      cases pc with
      | start => cases hrequest
      | closing fd rest =>
          cases hrequest
          intro fd' hfd'
          rw [List.mem_singleton.mp hfd']
          exact List.mem_cons_self
  | _ => cases hrequest

/-- A call of `send_req` that has no descriptor, neither in its request nor in
its answer. -/
def Flight.Quiet (flight : Flight) : Prop :=
  flight.request.fds = [] ∧
    ∀ fd, flight.transit ≠ .answered (.opened (.ok fd))

namespace Session

/-- The transport is being replaced: from its stop to `invalidate_fds`. -/
def Replacing (s : Session) : Prop :=
  s.watchdog = .stopped ∨ s.watchdog = .replaced

/-- Nothing but the table holds a descriptor: no suspended task, no handle and
no call of `send_req`. -/
@[reducible] def Clear (s : Session) : Prop :=
  (∀ task ∈ s.pool.tasks, task.fds = []) ∧
  (∀ handle ∈ s.handles, handle.node = none) ∧
  ∀ flight ∈ s.flights, flight.Quiet

/-- A transport is stopped only while nothing but the table holds a
descriptor, and no operation takes one from the table until the table is
cleared. -/
def Careful (s : Session) : Event → Session → Prop
  | .reconnect, _ => s.Clear
  | .optimize, _ => s.Clear
  | .wake _, s' => s.Replacing → ∀ task ∈ s'.pool.tasks, task.fds = []
  | .resume _, s' => s.Replacing → ∀ task ∈ s'.pool.tasks, task.fds = []
  | _, _ => True

/-- The requests that were executed by the transport that issued their
descriptor. -/
def OnOwnTransport (s : Session) (executed : List (Nat × Request)) : Prop :=
  ∀ e ∈ executed, ∀ fd ∈ e.2.fds, s.issued fd = some e.1

/-- A call of `send_req` that may be repeated on the current transport. -/
@[reducible] def Fitting (s : Session) (flight : Flight) : Prop :=
  (∀ fd ∈ flight.request.fds, s.issued fd = some s.current) ∧
  (∀ fd, flight.transit = .answered (.opened (.ok fd)) →
    s.issued fd = some s.current) ∧
  ∀ k, flight.transit = .sending k → k = s.current ∧ s.running = true

/-- The invariant. -/
structure Native (s : Session) : Prop where
  executed : s.OnOwnTransport s.executed
  abandoned : s.OnOwnTransport s.abandoned
  flights : ∀ flight ∈ s.flights, s.Fitting flight
  tasks : ∀ task ∈ s.pool.tasks, ∀ fd ∈ task.fds,
    s.issued fd = some s.current
  handles : ∀ handle ∈ s.handles, handle.node.isSome →
    s.issued handle.realFd = some s.current
  slots : ¬ s.Replacing → ∀ fd ∈ s.pool.cache.held,
    s.issued fd = some s.current
  clear : s.Replacing → s.Clear ∧ s.running = false
  uncached : s.cached = false → s.pool.tasks = [] ∧ s.pool.cache.held = 0

variable {s s' : Session}

theorem Clear.tasks (h : s.Clear) : ∀ task ∈ s.pool.tasks, task.fds = [] :=
  h.1

theorem Clear.handles (h : s.Clear) :
    ∀ handle ∈ s.handles, handle.node = none :=
  h.2.1

theorem Clear.flights (h : s.Clear) : ∀ flight ∈ s.flights, flight.Quiet :=
  h.2.2

theorem native_create (cached : Bool) (pageSize maxPages : Nat) :
    (create cached pageSize maxPages).Native where
  executed := nofun
  abandoned := nofun
  flights := nofun
  tasks := nofun
  handles := nofun
  slots := fun _ => nofun
  clear := fun h => by rcases h with h | h <;> cases h
  uncached := fun _ => ⟨rfl, rfl⟩

theorem fail_ne_opened (request : Request) (err : Errc) (fd : Fd) :
    request.fail err ≠ .opened (.ok fd) := by
  cases request <;> exact fun h => by cases h

/-- Where a call of `send_req` is after a round, or after an error: it has made
its request again, it waits for a reconnection, or it has an error to
return. -/
inductive Repeats (s : Session) (flight : Flight) : Flight → Prop
  | sending (count : Nat) (hrunning : s.running = true) :
      Repeats s flight ⟨flight.owner, flight.request, count, .sending s.current⟩
  | waiting (count future : Nat) :
      Repeats s flight ⟨flight.owner, flight.request, count, .waiting future⟩
  | failed (count : Nat) (err : Errc) :
      Repeats s flight ⟨flight.owner, flight.request, count,
        .answered (flight.request.fail err)⟩

theorem repeats_again (s : Session) (flight : Flight) :
    s.Repeats flight (s.again flight) := by
  unfold again
  split_ifs
  · exact .waiting flight.count _
  · exact .failed flight.count _

theorem repeats_round (s : Session) (flight : Flight) :
    s.Repeats flight (s.round flight) := by
  unfold round again
  dsimp only
  split_ifs with _ hrunning
  · exact .sending _ hrunning
  · exact .waiting _ _
  · exact .failed _ _
  · exact .failed _ _

theorem Repeats.fitting {flight flight' : Flight}
    (hrepeats : s.Repeats flight flight')
    (hrequest : ∀ fd ∈ flight.request.fds, s.issued fd = some s.current) :
    s.Fitting flight' := by
  cases hrepeats with
  | sending count hrunning =>
      refine ⟨hrequest, fun _ h => (by cases h), fun k hk => ?_⟩
      cases hk
      exact ⟨rfl, hrunning⟩
  | waiting count future =>
      exact ⟨hrequest, fun _ h => (by cases h), fun _ h => (by cases h)⟩
  | failed count err =>
      refine ⟨hrequest, fun fd h => ?_, fun _ h => (by cases h)⟩
      exact absurd (Transit.answered.inj h) (fail_ne_opened _ err fd)

theorem Repeats.quiet {flight flight' : Flight}
    (hrepeats : s.Repeats flight flight') (hrequest : flight.request.fds = []) :
    flight'.Quiet := by
  cases hrepeats with
  | sending count hrunning => exact ⟨hrequest, fun _ h => by cases h⟩
  | waiting count future => exact ⟨hrequest, fun _ h => by cases h⟩
  | failed count err =>
      refine ⟨hrequest, fun fd h => ?_⟩
      exact absurd (Transit.answered.inj h) (fail_ne_opened _ err fd)

theorem OnOwnTransport.append {left right : List (Nat × Request)}
    (hleft : s.OnOwnTransport left) (hright : s.OnOwnTransport right) :
    s.OnOwnTransport (left ++ right) := by
  intro e he
  rcases List.mem_append.mp he with h | h
  · exact hleft e h
  · exact hright e h

/-- Replace the calls of `send_req`. -/
theorem Native.setFlights (h : s.Native) {flights : List Flight}
    (hfitting : ∀ flight ∈ flights, s.Fitting flight)
    (hquiet : s.Replacing → ∀ flight ∈ flights, flight.Quiet) :
    Native { s with flights := flights } where
  executed := h.executed
  abandoned := h.abandoned
  flights := hfitting
  tasks := h.tasks
  handles := h.handles
  slots := h.slots
  clear := fun hreplacing => by
    obtain ⟨hclear, hrunning⟩ := h.clear hreplacing
    exact ⟨⟨hclear.tasks, hclear.handles, hquiet hreplacing⟩, hrunning⟩
  uncached := h.uncached

/-- A call of `send_req` goes on. -/
theorem Native.setFlight (h : s.Native) (j : Nat) {flight : Flight}
    (hfitting : s.Fitting flight) (hquiet : s.Replacing → flight.Quiet) :
    Native { s with flights := s.flights.set j flight } := by
  apply h.setFlights
  · intro other hother
    rcases List.mem_or_eq_of_mem_set hother with hold | rfl
    · exact h.flights other hold
    · exact hfitting
  · intro hreplacing other hother
    rcases List.mem_or_eq_of_mem_set hother with hold | rfl
    · exact (h.clear hreplacing).1.flights other hold
    · exact hquiet hreplacing

theorem Native.eraseFlight (h : s.Native) (j : Nat) :
    Native { s with flights := s.flights.eraseIdx j } := by
  apply h.setFlights
  · intro flight hmem
    exact h.flights flight (List.mem_of_mem_eraseIdx hmem)
  · intro hreplacing flight hmem
    exact (h.clear hreplacing).1.flights flight (List.mem_of_mem_eraseIdx hmem)

/-- A request whose descriptor is one of the current transport. -/
theorem Native.send (h : s.Native) (owner : Owner) {request : Request}
    (hfds : ∀ fd ∈ request.fds, s.issued fd = some s.current)
    (hquiet : s.Replacing → request.fds = []) :
    (s.send owner request).Native := by
  have hround := s.repeats_round ⟨owner, request, 0,
    .answered (request.fail ⟨0⟩)⟩
  apply h.setFlights
  · intro flight hmem
    rcases List.mem_append.mp hmem with hold | hnew
    · exact h.flights flight hold
    · rw [List.mem_singleton.mp hnew]
      exact hround.fitting hfds
  · intro hreplacing flight hmem
    rcases List.mem_append.mp hmem with hold | hnew
    · exact (h.clear hreplacing).1.flights flight hold
    · rw [List.mem_singleton.mp hnew]
      exact hround.quiet (hquiet hreplacing)

/-- A task that crashes holds no descriptor. -/
theorem Native.crash (h : s.Native) {i : Nat}
    (hclear : s.Replacing → ∀ task ∈ s.pool.tasks.set i .crashed,
      task.fds = []) :
    Native { s with pool :=
      ⟨s.pool.cache, s.pool.tasks.set i .crashed, s.pool.stale⟩ } := by
  refine ⟨h.executed, h.abandoned, h.flights, ?_, h.handles, h.slots,
    fun hreplacing => ?_, fun hcached => ?_⟩
  · intro task htask fd hfd
    rcases List.mem_or_eq_of_mem_set htask with hold | rfl
    · exact h.tasks task hold fd hfd
    · exact absurd hfd List.not_mem_nil
  · obtain ⟨hold, hrunning⟩ := h.clear hreplacing
    exact ⟨⟨hclear hreplacing, hold.handles, hold.flights⟩, hrunning⟩
  · obtain ⟨hnone, hheld⟩ := h.uncached hcached
    refine ⟨?_, hheld⟩
    change s.pool.tasks.set i .crashed = []
    rw [hnone]
    rfl

/-- A task of the cache is resumed. -/
theorem Native.resumePool (h : s.Native) {i : Nat} {reply : Reply} {p : Pool}
    (hresume : s.pool.resume i reply = some p)
    (hreply : ∀ fd ∈ reply.fds, s.issued fd = some s.current)
    (hclear : s.Replacing → ∀ task ∈ p.tasks, task.fds = []) :
    Native { s with pool := p } := by
  obtain ⟨task, c', task', htask, hstep, ⟨-, rfl⟩ | ⟨-, -, rfl⟩⟩ :=
    Pool.resume_cases hresume
  case inr => exact h.crash hclear
  have hmem := List.mem_of_getElem? htask
  have hpasses := Task.resume_passes hstep
  have hstored : ¬ s.Replacing →
      ∀ fd ∈ (s.pool.cache.store (task.target s.pool.cache) reply).held,
        s.issued fd = some s.current := by
    intro hreplacing fd hfd
    rcases Cache.mem_held_store hfd with hold | hnew
    · exact h.slots hreplacing fd hold
    · exact hreply fd hnew
  refine ⟨h.executed, h.abandoned, h.flights, ?_, h.handles, ?_,
    fun hreplacing => ?_, fun hcached => ?_⟩
  · intro other hother fd hfd
    rcases List.mem_or_eq_of_mem_set hother with hold | rfl
    · exact h.tasks other hold fd hfd
    · by_cases hreplacing : s.Replacing
      · rw [hclear hreplacing other hother] at hfd
        exact absurd hfd List.not_mem_nil
      · rcases hpasses.hand fd hfd with hhand | hheld
        · rcases List.mem_append.mp hhand with hown | hnew
          · exact h.tasks task hmem fd hown
          · exact hreply fd hnew
        · exact hstored hreplacing fd hheld
  · intro hreplacing fd hfd
    obtain ⟨dropped, hheld, -⟩ := hpasses.held
    have hin : fd ∈ c'.held + (task'.closes : Multiset Fd) + dropped := by
      rw [Multiset.mem_add, Multiset.mem_add]
      exact .inl (.inl hfd)
    rw [hheld, Multiset.mem_add] at hin
    rcases hin with hin | hin
    · exact hstored hreplacing fd hin
    · exact h.tasks task hmem fd (task.pending_subset_fds hin)
  · obtain ⟨hold, hrunning⟩ := h.clear hreplacing
    exact ⟨⟨hclear hreplacing, hold.handles, hold.flights⟩, hrunning⟩
  · rw [(h.uncached hcached).1] at hmem
    exact absurd hmem List.not_mem_nil

theorem Native.resumeTask (h : s.Native) {i : Nat} {reply : Reply}
    (hresume : s.resumeTask i reply = some s')
    (hreply : ∀ fd ∈ reply.fds, s.issued fd = some s.current)
    (hclear : s.Replacing → ∀ task ∈ s'.pool.tasks, task.fds = []) :
    s'.Native := by
  obtain ⟨p, hp, rfl⟩ := Option.map_eq_some_iff.mp hresume
  have hpool : Native { s with pool := p } := by
    apply h.resumePool hp hreply
    intro hreplacing task htask
    apply hclear hreplacing task
    split <;> exact htask
  split
  · exact hpool
  · next request hrequest =>
    obtain ⟨task, htask, hrequest⟩ := Option.bind_eq_some_iff.mp hrequest
    have hmem := List.mem_of_getElem? htask
    apply hpool.send
    · intro fd hfd
      exact hpool.tasks task hmem fd (Task.request_fds hrequest fd hfd)
    · intro hreplacing
      apply List.eq_nil_iff_forall_not_mem.mpr
      intro fd hfd
      have hin := Task.request_fds hrequest fd hfd
      rw [(hpool.clear hreplacing).1.tasks task hmem] at hin
      exact absurd hin List.not_mem_nil

theorem Native.setHandles (h : s.Native) {handles : FileHandleStore}
    (hhandles : ∀ handle ∈ handles, handle.node.isSome →
      s.issued handle.realFd = some s.current)
    (hclear : s.Replacing → ∀ handle ∈ handles, handle.node = none) :
    Native { s with handles := handles } where
  executed := h.executed
  abandoned := h.abandoned
  flights := h.flights
  tasks := h.tasks
  handles := hhandles
  slots := h.slots
  clear := fun hreplacing => by
    obtain ⟨hold, hrunning⟩ := h.clear hreplacing
    exact ⟨⟨hold.tasks, hclear hreplacing, hold.flights⟩, hrunning⟩
  uncached := h.uncached

/-- The caller of `send_req` takes the answer. -/
theorem Native.finish (h : s.Native) {owner : Owner} {reply : Reply}
    (hfinish : s.finish owner reply = some s')
    (hreply : ∀ fd ∈ reply.fds, s.issued fd = some s.current)
    (hquiet : s.Replacing → reply.fds = [])
    (hclear : s.Replacing → ∀ task ∈ s'.pool.tasks, task.fds = []) :
    s'.Native := by
  unfold Session.finish at hfinish
  split at hfinish
  · exact h.resumeTask hfinish hreply hclear
  · next node mode fd =>
    cases hfinish
    apply h.setHandles
    · intro handle hmem hnode
      rcases FileHandleStore.mem_store hmem with rfl | rfl | hold
      · exact hreply fd (List.mem_singleton_self fd)
      · cases hnode
      · exact h.handles handle hold hnode
    · intro hreplacing
      cases hquiet hreplacing
  · cases hfinish
    exact h

theorem Native.fileOp (h : s.Native) {op : FileOp}
    (hop : s.fileOp op = some s') : s'.Native := by
  have hheld : ∀ {handle : FileHandle}, handle ∈ s.handles →
      handle.node.isSome →
      ∀ fd ∈ [handle.realFd], s.issued fd = some s.current := by
    intro handle hmem hnode fd hfd
    rw [List.mem_singleton.mp hfd]
    exact h.handles handle hmem hnode
  have hnone : ∀ {handle : FileHandle}, handle ∈ s.handles →
      handle.node.isSome → ¬ s.Replacing := by
    intro handle hmem hnode hreplacing
    rw [(h.clear hreplacing).1.handles _ hmem] at hnode
    cases hnode
  cases op with
  | «open» node path mode =>
      cases hop
      exact h.send _ nofun fun _ => rfl
  | read fd len offset =>
      simp only [Session.fileOp] at hop
      split at hop
      · cases hop
        exact h
      · next handle hfind =>
        cases hop
        obtain ⟨hmem, hnode⟩ := FileHandleStore.mem_of_findMode hfind
        exact h.send _ (hheld hmem hnode) fun hreplacing =>
          absurd hreplacing (hnone hmem hnode)
  | write fd input offset =>
      simp only [Session.fileOp] at hop
      split at hop
      · cases hop
        exact h
      · next handle hfind =>
        cases hop
        obtain ⟨hmem, hnode⟩ := FileHandleStore.mem_of_findMode hfind
        exact h.send _ (hheld hmem hnode) fun hreplacing =>
          absurd hreplacing (hnone hmem hnode)
  | release fd =>
      simp only [Session.fileOp] at hop
      split at hop
      · cases hop
        exact h
      · next handle handles hrelease =>
        split_ifs at hop with hnode
        cases hop
        have hmem : handle ∈ s.handles :=
          List.mem_of_getElem? (congrArg Prod.fst hrelease)
        have hrest : (s.handles.release fd).2 = handles :=
          congrArg Prod.snd hrelease
        have hreleased : Native { s with handles := handles } := by
          apply h.setHandles
          · intro other hother hsome
            rw [← hrest] at hother
            rcases FileHandleStore.mem_release hother with rfl | hold
            · cases hsome
            · exact h.handles other hold hsome
          · exact fun hreplacing => absurd hreplacing (hnone hmem hnode)
        exact hreleased.send _ (hheld hmem hnode) fun hreplacing =>
          absurd hreplacing (hnone hmem hnode)

/-- A transport executes a request with a descriptor of its own. -/
theorem Native.execute (h : s.Native) {k : Nat} {request : Request}
    {reply : Reply} (hexecute : s.execute k request reply = some s')
    (hfds : ∀ fd ∈ request.fds, s.issued fd = some k) :
    s'.Native ∧ (∀ fd ∈ reply.fds, s'.issued fd = some k) ∧
      ∀ fd k', s.issued fd = some k' → s'.issued fd = some k' := by
  unfold Session.execute at hexecute
  split_ifs at hexecute with hanswered
  cases hexecute
  have hkept : ∀ fd k', s.issued fd = some k' →
      (if fd ∈ reply.fds then some k else s.issued fd) = some k' := by
    intro fd k' hissued
    rw [if_neg]
    · exact hissued
    · intro hfd
      cases hissued.symm.trans (hanswered.2 fd hfd)
  refine ⟨⟨?_, ?_, ?_, ?_, ?_, ?_, h.clear, h.uncached⟩,
    fun fd hfd => if_pos hfd, hkept⟩
  · intro e he fd hfd
    rcases List.mem_append.mp he with hold | hnew
    · exact hkept fd _ (h.executed e hold fd hfd)
    · rw [List.mem_singleton.mp hnew] at hfd ⊢
      exact hkept fd _ (hfds fd hfd)
  · exact fun e he fd hfd => hkept fd _ (h.abandoned e he fd hfd)
  · intro flight hflight
    obtain ⟨hrequest, hanswer, hsending⟩ := h.flights flight hflight
    exact ⟨fun fd hfd => hkept fd _ (hrequest fd hfd),
      fun fd heq => hkept fd _ (hanswer fd heq), hsending⟩
  · exact fun task htask fd hfd => hkept fd _ (h.tasks task htask fd hfd)
  · exact fun handle hmem hnode => hkept _ _ (h.handles handle hmem hnode)
  · exact fun hreplacing fd hfd => hkept fd _ (h.slots hreplacing fd hfd)

/-- While the transport is being replaced, nothing is said of the table. -/
theorem Clear.native (hclear : s.Clear) (hreplacing : s.Replacing)
    (hrunning : s.running = false)
    (hidle : ∀ flight ∈ s.flights, ∀ k, flight.transit ≠ .sending k)
    (hexecuted : s.OnOwnTransport s.executed)
    (habandoned : s.OnOwnTransport s.abandoned)
    (huncached : s.cached = false →
      s.pool.tasks = [] ∧ s.pool.cache.held = 0) : s.Native where
  executed := hexecuted
  abandoned := habandoned
  flights := fun flight hmem => by
    obtain ⟨hrequest, hanswer⟩ := hclear.flights flight hmem
    refine ⟨fun fd hfd => ?_, fun fd h => absurd h (hanswer fd),
      fun k h => absurd h (hidle flight hmem k)⟩
    rw [hrequest] at hfd
    exact absurd hfd List.not_mem_nil
  tasks := fun task htask fd hfd => by
    rw [hclear.tasks task htask] at hfd
    exact absurd hfd List.not_mem_nil
  handles := fun handle hmem hnode => by
    rw [hclear.handles handle hmem] at hnode
    cases hnode
  slots := fun hnot => absurd hreplacing hnot
  clear := fun _ => ⟨hclear, hrunning⟩
  uncached := huncached

/-- After the stop nobody waits for the old transport. -/
theorem stop_not_sending {flight : Flight} (hmem : flight ∈ s.stop.flights)
    (k : Nat) : flight.transit ≠ .sending k := by
  obtain ⟨old, -, rfl⟩ := List.mem_map.mp hmem
  split
  · exact fun h => by cases h
  · next hnot => exact hnot k

theorem Clear.stop (hclear : s.Clear) : s.stop.Clear := by
  refine ⟨hclear.tasks, hclear.handles, fun flight hmem => ?_⟩
  obtain ⟨old, hold, rfl⟩ := List.mem_map.mp hmem
  obtain ⟨hrequest, hanswer⟩ := hclear.flights old hold
  split
  · refine ⟨hrequest, fun fd h => ?_⟩
    exact absurd (Transit.answered.inj h) (fail_ne_opened _ _ fd)
  · exact ⟨hrequest, hanswer⟩

/-- The requests left behind were made with descriptors of the transport that
is stopped. -/
theorem Native.stop_abandoned (h : s.Native) :
    s.OnOwnTransport s.stop.abandoned := by
  apply h.abandoned.append
  intro e he fd hfd
  obtain ⟨flight, hflight, hsome⟩ := List.mem_filterMap.mp he
  obtain ⟨hrequest, -, hsending⟩ := h.flights flight hflight
  split at hsome
  · next k hk =>
    cases hsome
    rw [(hsending k hk).1]
    exact hrequest fd hfd
  · cases hsome

theorem Native.serve (h : s.Native) {j : Nat} {reply : Reply}
    (hstep : s.step (.serve j reply) = some s') : s'.Native := by
  obtain ⟨flight, hflight, hserve⟩ := Option.bind_eq_some_iff.mp hstep
  have hmem := List.mem_of_getElem? hflight
  obtain ⟨hrequest, -, hsending⟩ := h.flights flight hmem
  split at hserve
  · next k hk =>
    obtain ⟨rfl, hrunning⟩ := hsending k hk
    obtain ⟨s₁, hexecute, rfl⟩ := Option.map_eq_some_iff.mp hserve
    obtain ⟨hnative, hreply, hkept⟩ := h.execute hexecute hrequest
    have hsame : s₁.current = s.current ∧ s₁.running = s.running ∧
        s₁.watchdog = s.watchdog := by
      unfold Session.execute at hexecute
      split_ifs at hexecute
      cases hexecute
      exact ⟨rfl, rfl, rfl⟩
    apply hnative.setFlight
    · refine ⟨fun fd hfd => ?_, fun fd heq => ?_, fun k' h => (by cases h)⟩
      · rw [hsame.1]
        exact hkept fd _ (hrequest fd hfd)
      · rw [hsame.1]
        apply hreply
        rw [Transit.answered.inj heq]
        exact List.mem_singleton_self fd
    · intro hreplacing
      rw [Replacing, hsame.2.2] at hreplacing
      rw [(h.clear hreplacing).2] at hrunning
      cases hrunning
  · cases hserve

theorem Native.fail (h : s.Native) {j : Nat} {err : Errc}
    (hstep : s.step (.fail j err) = some s') : s'.Native := by
  obtain ⟨flight, hflight, hfail⟩ := Option.bind_eq_some_iff.mp hstep
  obtain ⟨hrequest, -, hsending⟩ :=
    h.flights flight (List.mem_of_getElem? hflight)
  split at hfail
  · next k hk =>
    cases hfail
    obtain ⟨rfl, hrunning⟩ := hsending k hk
    have hrepeats : s.Repeats flight
        (flight.answer (flight.request.fail err)) := .failed flight.count err
    have hanswered := hrepeats.fitting hrequest
    have hset := h.setFlight j hanswered fun hreplacing => by
      rw [(h.clear hreplacing).2] at hrunning
      cases hrunning
    refine ⟨hset.executed, hset.abandoned.append ?_, hset.flights, hset.tasks,
      hset.handles, hset.slots, fun hreplacing => ?_, hset.uncached⟩
    · intro e he fd hfd
      rw [List.mem_singleton.mp he] at hfd ⊢
      exact hrequest fd hfd
    · rw [(h.clear hreplacing).2] at hrunning
      cases hrunning
  · cases hfail

theorem Native.late (h : s.Native) {j : Nat} {reply : Reply}
    (hstep : s.step (.late j reply) = some s') : s'.Native := by
  obtain ⟨attempt, hattempt, hlate⟩ := Option.bind_eq_some_iff.mp hstep
  obtain ⟨s₁, hexecute, rfl⟩ := Option.map_eq_some_iff.mp hlate
  obtain ⟨hnative, -, -⟩ := h.execute hexecute
    (h.abandoned attempt (List.mem_of_getElem? hattempt))
  refine ⟨hnative.executed, fun e he => ?_, hnative.flights, hnative.tasks,
    hnative.handles, hnative.slots, hnative.clear, hnative.uncached⟩
  exact hnative.abandoned e (List.mem_of_mem_eraseIdx he)

theorem Native.resume (h : s.Native) {j : Nat}
    (hstep : s.step (.resume j) = some s')
    (hcareful : s.Careful (.resume j) s') : s'.Native := by
  obtain ⟨flight, hflight, hresume⟩ := Option.bind_eq_some_iff.mp hstep
  have hmem := List.mem_of_getElem? hflight
  have hfitting := h.flights flight hmem
  have hquiet : s.Replacing → flight.request.fds = [] := fun hreplacing =>
    ((h.clear hreplacing).1.flights flight hmem).1
  split at hresume
  · cases hresume
  · next reply hreply =>
    split_ifs at hresume
    · cases hresume
      have hrepeats := s.repeats_again flight
      exact h.setFlight j (hrepeats.fitting hfitting.1)
        fun hreplacing => hrepeats.quiet (hquiet hreplacing)
    · have hopened : ∀ fd ∈ reply.fds, reply = .opened (.ok fd) := by
        intro fd hfd
        unfold Reply.fds at hfd
        split at hfd
        · rw [List.mem_singleton.mp hfd]
        · exact absurd hfd List.not_mem_nil
      refine (h.eraseFlight j).finish hresume ?_ ?_ hcareful
      · intro fd hfd
        exact hfitting.2.1 fd (hreply.trans (congrArg _ (hopened fd hfd)))
      · intro hreplacing
        apply List.eq_nil_iff_forall_not_mem.mpr
        intro fd hfd
        exact ((h.clear hreplacing).1.flights flight hmem).2 fd
          (hreply.trans (congrArg _ (hopened fd hfd)))
  · split_ifs at hresume
    cases hresume
    have hrepeats := s.repeats_round flight
    exact h.setFlight j (hrepeats.fitting hfitting.1)
      fun hreplacing => hrepeats.quiet (hquiet hreplacing)

/-- After `invalidate_fds` the table holds no descriptor either. -/
theorem Native.invalidateFds (h : s.Native) : s.invalidateFds.Native := by
  have hempty : s.invalidateFds.pool.cache.held = 0 := by
    unfold Session.invalidateFds
    dsimp only
    split_ifs with hcached
    · exact s.pool.cache.held_dropFds
    · exact (h.uncached (Bool.eq_false_iff.mpr hcached)).2
  have htasks : s.invalidateFds.pool.tasks = s.pool.tasks := by
    unfold Session.invalidateFds
    dsimp only
    split_ifs <;> rfl
  refine ⟨h.executed, h.abandoned, h.flights, ?_, h.handles, ?_, ?_, ?_⟩
  · rw [htasks]
    exact h.tasks
  · intro _ fd hfd
    rw [hempty] at hfd
    exact absurd hfd (Multiset.notMem_zero fd)
  · intro hreplacing
    rcases hreplacing with hidle | hidle <;> cases hidle
  · intro hcached
    exact ⟨htasks.trans (h.uncached hcached).1, hempty⟩

theorem Native.step {event : Event} (h : s.Native)
    (hstep : s.step event = some s') (hcareful : s.Careful event s') :
    s'.Native := by
  cases event with
  | call call =>
      simp only [Session.step] at hstep
      split_ifs at hstep with hcached
      cases hstep
      refine ⟨h.executed, h.abandoned, h.flights, ?_, h.handles, ?_,
        fun hreplacing => ?_, fun huncached => ?_⟩
      · intro task htask fd hfd
        rcases List.mem_append.mp htask with hold | hnew
        · exact h.tasks task hold fd hfd
        · rw [(Task.start_hand _ call task hnew).1] at hfd
          exact absurd hfd List.not_mem_nil
      · intro hreplacing fd hfd
        rw [show (s.pool.call call).cache.held = s.pool.cache.held from
          Task.start_held s.pool.cache call] at hfd
        exact h.slots hreplacing fd hfd
      · obtain ⟨hclear, hrunning⟩ := h.clear hreplacing
        refine ⟨⟨fun task htask => ?_, hclear.handles, hclear.flights⟩, hrunning⟩
        rcases List.mem_append.mp htask with hold | hnew
        · exact hclear.tasks task hold
        · exact (Task.start_hand _ call task hnew).1
      · rw [hcached] at huncached
        cases huncached
  | wake i =>
      simp only [Session.step] at hstep
      split at hstep
      · exact h.resumeTask hstep nofun hcareful
      · cases hstep
  | file op =>
      simp only [Session.step] at hstep
      split_ifs at hstep
      exact h.fileOp hstep
  | serve j reply => exact h.serve hstep
  | fail j err => exact h.fail hstep
  | late j reply => exact h.late hstep
  | resume j => exact h.resume hstep hcareful
  | reconnect =>
      simp only [Session.step] at hstep
      split_ifs at hstep
      cases hstep
      exact Clear.native (Clear.stop hcareful) (.inl rfl) rfl
        (fun flight hmem => stop_not_sending hmem) h.executed
        h.stop_abandoned h.uncached
  | reconnected =>
      simp only [Session.step] at hstep
      split_ifs at hstep with hstopped
      cases hstep
      obtain ⟨hclear, hrunning⟩ := h.clear (.inl hstopped)
      refine Clear.native hclear (.inr rfl) hrunning (fun flight hmem k hk => ?_) h.executed h.abandoned
        h.uncached
      have hsending := ((h.flights flight hmem).2.2 k hk).2
      rw [hrunning] at hsending
      cases hsending
  | optimize =>
      simp only [Session.step] at hstep
      split_ifs at hstep
      cases hstep
      exact Clear.native (Clear.stop hcareful) (.inr rfl) rfl
        (fun flight hmem => stop_not_sending hmem) h.executed
        h.stop_abandoned h.uncached
  | invalidateFds =>
      simp only [Session.step] at hstep
      split_ifs at hstep
      cases hstep
      exact h.invalidateFds
  | start =>
      simp only [Session.step] at hstep
      split_ifs at hstep with hinvalidated
      cases hstep
      have hsettled : ¬ s.Replacing := by
        rw [Replacing, hinvalidated]
        decide
      refine ⟨h.executed, h.abandoned, fun flight hmem => ?_, h.tasks, h.handles,
        fun _ => h.slots hsettled, fun hreplacing => ?_, h.uncached⟩
      · obtain ⟨hrequest, hanswer, hsending⟩ := h.flights flight hmem
        exact ⟨hrequest, hanswer, fun k hk => ⟨(hsending k hk).1, rfl⟩⟩
      · rcases hreplacing with hidle | hidle <;> cases hidle

theorem fds_on_own_transport {cached : Bool} {pageSize maxPages : Nat}
    {events : List Event} {s : Session}
    (hruns : Runs step Careful (create cached pageSize maxPages) events s) :
    s.OnOwnTransport s.executed := by
  have h : s.Native := hruns.preserves
    (fun hstep hcareful h => h.step hstep hcareful)
    (native_create cached pageSize maxPages)
  exact h.executed

/-- A file is read, and the transport is replaced afterwards. -/
def readThenReconnect : List Event :=
  [.start, .call (.hintOpen ⟨1⟩ ["f"] .read), .call (.read ⟨1⟩ 1 0), .wake 1,
    .serve 0 (.opened (.ok 3)), .resume 0, .serve 0 (.fetched (.ok [7])),
    .resume 0, .reconnect, .reconnected, .invalidateFds, .start]

theorem runs_readThenReconnect :
    ∃ s : Session, Runs step Careful (create true 1 1) readThenReconnect s ∧
      s.executed = [(0, .open ["f"] .read), (0, .read 3 1 0)] ∧
      s.current = 1 := by
  have hnot : ∀ {s : Session}, s.watchdog = .idle → ¬ s.Replacing := by
    intro s hidle
    rw [Replacing, hidle]
    decide
  refine ⟨_, .cons rfl trivial (.cons rfl trivial (.cons rfl trivial
    (.cons rfl (fun h => absurd h (hnot rfl)) (.cons rfl trivial
    (.cons rfl (fun h => absurd h (hnot rfl)) (.cons rfl trivial
    (.cons rfl (fun h => absurd h (hnot rfl)) (.cons rfl ?clear
    (.cons rfl trivial (.cons rfl trivial
    (.cons rfl trivial (.nil _)))))))))))), rfl, rfl⟩
  refine ⟨fun task htask => ?_, nofun, nofun⟩
  revert task
  decide

theorem fds_on_own_transport_read :
    ∃ s : Session, Runs step Careful (create true 1 1) readThenReconnect s ∧
      (0, .read 3 1 0) ∈ s.executed ∧ s.issued 3 = some 0 := by
  obtain ⟨s, hruns, hexecuted, -⟩ := runs_readThenReconnect
  have hmem : (0, Request.read 3 1 0) ∈ s.executed := by
    rw [hexecuted]
    exact List.mem_cons_of_mem _ (List.mem_singleton_self _)
  exact ⟨s, hruns, hmem, fds_on_own_transport hruns _ hmem 3
    (List.mem_singleton_self 3)⟩

end Session

namespace StaleRead

/-- The watchdog reconnects while a read is under way.  The read is repeated
on the new transport, with the descriptor of the old one. -/
def events : List Session.Event :=
  [.start, .call (.hintOpen ⟨1⟩ ["f"] .read), .call (.read ⟨1⟩ 1 0), .wake 1,
    .serve 0 (.opened (.ok 3)), .resume 0, .reconnect, .resume 0, .reconnected,
    .invalidateFds, .start, .resume 0, .serve 0 (.fetched (.ok [7]))]

theorem not_on_own_transport :
    ∃ s : Session,
      events.foldlM Session.step (.create true 1 1) = some s ∧
      s.executed = [(0, .open ["f"] .read), (1, .read 3 1 0)] ∧
      s.issued 3 = some 0 ∧ ¬ s.OnOwnTransport s.executed := by
  have hrun : ∃ s : Session,
      events.foldlM Session.step (.create true 1 1) = some s ∧
      s.executed = [(0, .open ["f"] .read), (1, .read 3 1 0)] ∧
      s.issued 3 = some 0 :=
    ⟨_, rfl, rfl, rfl⟩
  obtain ⟨s, hrun, hexecuted, hissued⟩ := hrun
  refine ⟨s, hrun, hexecuted, hissued, fun hown => ?_⟩
  have hread := hown (1, .read 3 1 0)
    (hexecuted ▸ List.mem_cons_of_mem _ (List.mem_singleton_self _)) 3
    (List.mem_singleton_self 3)
  cases hissued.symm.trans hread

end StaleRead

end Madbfs
