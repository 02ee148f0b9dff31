/-
The account of the descriptors.  A descriptor is entered when the answer to an
`open` reaches the cache, and leaves when it is passed to `close`.  In between
it has to stand in a slot of the table, or in the list of an operation that is
closing descriptors.  The cache keeps this account as long as a descriptor is
only stored into an empty slot, no entry is removed that still holds one and
no task follows a reference to an entry that was removed.
-/
import Madbfs.Cache.Closing
import Madbfs.Run

namespace Madbfs

/-- The pool with what it was given and what it gave back. -/
structure Ledger where
  pool : Pool
  opened : List Fd
  closed : List Fd

namespace Ledger

def create (pageSize maxPages : Nat) : Ledger :=
  ⟨⟨Cache.create pageSize maxPages, [], []⟩, [], []⟩

/-- The descriptor that a task has just passed to `close`. -/
def closing (p : Pool) (i : Nat) : List Fd :=
  match p.tasks[i]? with
  | some task => task.closes.take 1
  | none => []

def step (s : Ledger) : PoolEvent → Option Ledger
  | .call call => some { s with pool := s.pool.call call }
  | .resume i reply => (s.pool.resume i reply).map fun pool =>
      ⟨pool, s.opened ++ reply.fds, s.closed ++ closing pool i⟩

/-- The descriptors in the lists of the operations that close descriptors. -/
def pending (tasks : List Task) : Multiset Fd :=
  (tasks.map fun task => (task.pending : Multiset Fd)).sum

/-- The descriptors in the slots and in these lists. -/
def held (s : Ledger) : Multiset Fd :=
  s.pool.cache.held + pending s.pool.tasks

/-- Every descriptor that was opened and not closed is held in one place. -/
structure Accounted (s : Ledger) : Prop where
  balance : ∀ fd, s.opened.count fd = s.closed.count fd + s.held.count fd
  once : ∀ fd, s.held.count fd ≤ 1

/-- No task goes back to an entry that left the table while it was suspended.
A descriptor comes from the device, which does not return one that is still
open, and goes to a task that waits for it and whose slot is there and empty.
No task drops descriptors. -/
def Careful (s : Ledger) : PoolEvent → Ledger → Prop
  | .call _, _ => True
  | .resume i reply, _ => ∀ task, s.pool.tasks[i]? = some task →
      (i ∈ s.pool.stale → task.follows s.pool.cache reply = false) ∧
      task.Sparing s.pool.cache reply ∧
      ∀ fd, reply = .opened (.ok fd) →
        s.opened.count fd = s.closed.count fd ∧
        ∃ id kind entry, task.target s.pool.cache = some (id, kind) ∧
          s.pool.cache.lookup id = some entry ∧ entry.fdOf kind = none

variable {s s' : Ledger}

theorem pending_append (left right : List Task) :
    pending (left ++ right) = pending left + pending right := by
  rw [pending, List.map_append, List.sum_append]
  rfl

theorem pending_eq_zero {tasks : List Task}
    (hnone : ∀ task ∈ tasks, task.pending = []) : pending tasks = 0 := by
  apply List.sum_eq_zero
  intro fds hfds
  obtain ⟨task, htask, rfl⟩ := List.mem_map.mp hfds
  rw [hnone task htask]
  rfl

theorem closes_eq (task : Task) :
    (task.closes : Multiset Fd) = task.closes.take 1 + task.pending := by
  cases task with
  | shutdown after pc => cases pc <;> rfl
  | cleanStaleFds pc => cases pc <;> rfl
  | _ => rfl

theorem fds_eq_of_mem {reply : Reply} {fd : Fd}
    (hmem : fd ∈ reply.fds) : reply = .opened (.ok fd) ∧ reply.fds = [fd] := by
  unfold Reply.fds at hmem ⊢
  split at hmem
  · rw [List.mem_singleton.mp hmem]
    exact ⟨rfl, rfl⟩
  · exact absurd hmem List.not_mem_nil

/-- The reply brings its descriptor into the slots. -/
theorem store_held_eq {c : Cache} {task : Task} {reply : Reply}
    (hstored : ∀ fd, reply = .opened (.ok fd) →
      ∃ id kind entry, task.target c = some (id, kind) ∧
        c.lookup id = some entry ∧ entry.fdOf kind = none) :
    (c.store (task.target c) reply).held = c.held + (reply.fds : Multiset Fd) := by
  by_cases hopened : ∃ fd, reply = .opened (.ok fd)
  · obtain ⟨fd, rfl⟩ := hopened
    obtain ⟨id, kind, entry, htarget, hentry, hempty⟩ := hstored fd rfl
    rw [htarget, Cache.store_held hentry hempty, add_comm]
    rfl
  · have hne : ∀ fd, reply ≠ .opened (.ok fd) := fun fd heq =>
      hopened ⟨fd, heq⟩
    have hfds : reply.fds = [] :=
      List.eq_nil_iff_forall_not_mem.mpr fun fd hmem =>
        hne fd (fds_eq_of_mem hmem).1
    rw [Cache.store_of_ne hne, hfds]
    exact (add_zero _).symm

theorem accounted_create (pageSize maxPages : Nat) :
    (create pageSize maxPages).Accounted :=
  ⟨fun _ => rfl, fun _ => Nat.zero_le _⟩

theorem Accounted.call (h : s.Accounted) (call : Call) :
    Accounted { s with pool := s.pool.call call } := by
  have hheld : held { s with pool := s.pool.call call } = s.held := by
    have htasks := pending_eq_zero fun task htask =>
      (Task.start_hand s.pool.cache call task htask).2
    change (call.start s.pool.cache).1.held +
      pending (s.pool.tasks ++ (call.start s.pool.cache).2) = s.held
    rw [Task.start_held, pending_append, htasks, add_zero]
    rfl
  exact ⟨fun fd => hheld ▸ h.balance fd, fun fd => hheld ▸ h.once fd⟩

theorem Accounted.resume (h : s.Accounted) {i : Nat} {reply : Reply}
    {p : Pool} (hresume : s.pool.resume i reply = some p)
    (hcareful : s.Careful (.resume i reply) s') :
    Accounted ⟨p, s.opened ++ reply.fds, s.closed ++ closing p i⟩ := by
  obtain ⟨task, c', task', htask, hstep, hp⟩ := Pool.resume_cases hresume
  obtain ⟨hfollows, hsparing, hdevice⟩ := hcareful task htask
  obtain ⟨-, rfl⟩ | ⟨hstale, hfollowed, -⟩ := hp
  case inr =>
    rw [hfollows hstale] at hfollowed
    cases hfollowed
  obtain ⟨dropped, hpasses, hzero⟩ := (Task.resume_passes hstep).held
  rw [hzero hsparing, add_zero, closes_eq task',
    store_held_eq fun fd heq => (hdevice fd heq).2] at hpasses
  have hpending := sum_map_set (fun task => (task.pending : Multiset Fd)) htask
    task'
  change pending (s.pool.tasks.set i task') + (task.pending : Multiset Fd) =
    pending s.pool.tasks + (task'.pending : Multiset Fd) at hpending
  have hclosing : closing ⟨c', s.pool.tasks.set i task',
      s.pool.stale ++ s.pool.strays i c'⟩ i = task'.closes.take 1 := by
    rw [closing]
    simp [(List.getElem?_eq_some_iff.mp htask).1]
  have hmoved : ∀ fd,
      (task'.closes.take 1).count fd +
        Multiset.count fd (c'.held + pending (s.pool.tasks.set i task')) =
      reply.fds.count fd + s.held.count fd := by
    intro fd
    have hslots := congrArg (Multiset.count fd) hpasses
    have hlists := congrArg (Multiset.count fd) hpending
    simp only [held, Multiset.count_add, Multiset.coe_count] at hslots hlists ⊢
    omega
  have hfresh : ∀ fd, reply.fds.count fd + s.held.count fd ≤ 1 := by
    intro fd
    by_cases hmem : fd ∈ reply.fds
    · obtain ⟨hreply, hfds⟩ := fds_eq_of_mem hmem
      have hopen := (hdevice fd hreply).1
      have hbalance := h.balance fd
      rw [hfds, List.count_singleton_self]
      omega
    · rw [List.count_eq_zero_of_not_mem hmem, Nat.zero_add]
      exact h.once fd
  rw [hclosing]
  refine ⟨fun fd => ?_, fun fd => ?_⟩
  · have hbalance := h.balance fd
    have hafter := hmoved fd
    simp only [List.count_append]
    change _ = _ + Multiset.count fd
      (c'.held + pending (s.pool.tasks.set i task'))
    omega
  · have hbefore := hfresh fd
    have hafter := hmoved fd
    change Multiset.count fd
      (c'.held + pending (s.pool.tasks.set i task')) ≤ 1
    omega

theorem fds_accounted {pageSize maxPages : Nat} {events : List PoolEvent}
    {s : Ledger}
    (hruns : Runs step Careful (create pageSize maxPages) events s) :
    s.Accounted := by
  refine hruns.preserves ?_ (accounted_create pageSize maxPages)
  intro s t event hstep hcareful h
  cases event with
  | call call =>
      cases hstep
      exact h.call call
  | resume i reply =>
      obtain ⟨p, hresume, rfl⟩ := Option.map_eq_some_iff.mp hstep
      exact h.resume hresume hcareful

/-- A file is read, closed, and its descriptor is taken back. -/
def readAndClose : List PoolEvent :=
  [.call (.hintOpen ⟨1⟩ ["f"] .read), .call (.read ⟨1⟩ 1 0), .resume 1 .go,
    .resume 1 (.opened (.ok 3)), .resume 1 (.fetched (.ok [7])),
    .call (.hintClose ⟨1⟩ .read), .call .cleanStaleFds, .resume 3 .go]

theorem runs_readAndClose :
    ∃ s : Ledger, Runs step Careful (create 1 1) readAndClose s ∧
      s.opened = [3] ∧ s.closed = [3] := by
  refine ⟨_, .cons rfl trivial (.cons rfl trivial (.cons rfl ?go
    (.cons rfl ?opened (.cons rfl ?fetched (.cons rfl trivial
    (.cons rfl trivial (.cons rfl ?clean (.nil _)))))))), rfl, rfl⟩
  case go =>
    intro task htask
    cases htask
    exact ⟨nofun, trivial, nofun⟩
  case opened =>
    intro task htask
    cases htask
    refine ⟨nofun, trivial, fun fd hfd => ?_⟩
    cases hfd
    exact ⟨rfl, ⟨1⟩, .read, _, rfl, rfl, rfl⟩
  case fetched =>
    intro task htask
    cases htask
    exact ⟨nofun, trivial, nofun⟩
  case clean =>
    intro task htask
    cases htask
    refine ⟨nofun, fun hripe => ?_, nofun⟩
    exact absurd ⟨_, rfl, rfl, rfl⟩ (hripe (⟨1⟩, .read) List.mem_cons_self)

theorem fds_accounted_readAndClose :
    ∃ s : Ledger, Runs step Careful (create 1 1) readAndClose s ∧
      s.opened = [3] ∧ s.held.count 3 = 0 := by
  obtain ⟨s, hruns, hopened, hclosed⟩ := runs_readAndClose
  have hbalance := (fds_accounted hruns).balance 3
  rw [hopened, hclosed] at hbalance
  exact ⟨s, hruns, hopened, by simpa using hbalance⟩

end Ledger

namespace TwoReaders

/-- Two reads of a file that nobody has read yet: both find the slot empty,
both open the file, and the second descriptor replaces the first. -/
def events : List PoolEvent :=
  [.call (.hintOpen ⟨1⟩ ["f"] .read), .call (.read ⟨1⟩ 1 0),
    .call (.read ⟨1⟩ 1 0), .resume 1 .go, .resume 2 .go,
    .resume 1 (.opened (.ok 3)), .resume 2 (.opened (.ok 4))]

/-- The device is without fault and returns two different descriptors. -/
theorem not_accounted :
    ∃ s : Ledger, events.foldlM Ledger.step (Ledger.create 1 1) = some s ∧
      s.opened = [3, 4] ∧ s.closed = [] ∧ s.held = {4} ∧ ¬ s.Accounted := by
  have hrun : ∃ s : Ledger,
      events.foldlM Ledger.step (Ledger.create 1 1) = some s ∧
      s.opened = [3, 4] ∧ s.closed = [] ∧ s.held = {4} :=
    ⟨_, rfl, rfl, rfl, rfl⟩
  obtain ⟨s, hrun, hopened, hclosed, hheld⟩ := hrun
  refine ⟨s, hrun, hopened, hclosed, hheld, fun haccounted => ?_⟩
  have hbalance := haccounted.balance 3
  rw [hopened, hclosed, hheld] at hbalance
  exact absurd hbalance (by decide)

end TwoReaders

end Madbfs
