/-
`clean_stale_fds` never closes a descriptor in use.  A mark says that nobody
has the file open for this kind of access, and an operation that uses a
descriptor is counted by the entry of the file, so that the descriptor of an
entry without running requests is used by nobody.
-/
import Mathlib.Algebra.Order.BigOperators.Group.List
import Mathlib.Data.Multiset.OrderedMonoid
import Madbfs.Cache.Locks
import Madbfs.Cache.Marks
import Madbfs.Run

namespace Madbfs

open Bytes

namespace Task

/-- The descriptors a suspended task uses. -/
def uses (c : Cache) : Task → Multiset (Id × FdKind)
  | .readAt r pc => (Cache.readStake r).uses c pc
  | .writeAt _ _ pc => Cache.writeStake.uses c pc
  | .flush id pc => (Cache.flushStake id).uses c pc
  | _ => 0

/-- The tasks of the operations that leave every descriptor in its slot, and
of `clean_stale_fds`. -/
def Orderly : Task → Prop
  | .truncate _ _ _ _ => False
  | .invalidateOne _ _ _ => False
  | .shutdown _ _ => False
  | _ => True

/-- The descriptors a task uses depend on the pages it holds only. -/
theorem uses_congr {c c' : Cache} (task : Task)
    (hkey : ∀ addr ∈ task.held, (c'.heap addr).key = (c.heap addr).key) :
    task.uses c' = task.uses c := by
  have hevict : ∀ pc : EvictPc,
      (∀ addr ∈ ({pc.page} : Multiset Addr),
        (c'.heap addr).key = (c.heap addr).key) →
      Cache.evictStake.uses c' pc = Cache.evictStake.uses c pc := by
    intro pc hpage
    simp only [Cache.evictStake, hpage pc.page (Multiset.mem_singleton_self _)]
  cases task with
  | readAt r pc =>
      cases pc with
      | evicting page pc => exact congrArg (· + _) (hevict pc hkey)
      | _ => rfl
  | writeAt r input pc =>
      cases pc with
      | evicting page pc => exact hevict pc hkey
      | _ => rfl
  | _ => rfl

/-- A task that used `own` and ran up to its next suspension point. -/
structure Moved (c : Cache) (own : Multiset (Id × FdKind))
    (y : Cache × Task) : Prop where
  tally : Cache.Tally (c, own) (y.1, y.2.uses y.1)
  held : ∀ addr ∈ y.2.held, addr < y.1.nextAddr
  queue : ∀ key, (y.1.readQueue.lookup key).isSome →
    (c.readQueue.lookup key).isSome ∨ y.2.Fetches key
  orderly : y.2.Orderly

section

variable {c : Cache} {own : Multiset (Id × FdKind)} {π α : Type}

theorem moved_ofFlow {stake : Stake π} {x : Cache × Flow π α}
    {await : π → Task} {done : α → Task} (hx : Cache.Settles stake c own x)
    (huses : ∀ c pc, (await pc).uses c = stake.uses c pc)
    (hheld : ∀ pc, (await pc).held = stake.held pc)
    (hfetches : ∀ pc key, stake.fetches pc = some key →
      (await pc).Fetches key)
    (horderly : ∀ pc, (await pc).Orderly)
    (hdone : ∀ value, (done value).isDone = true) :
    Moved c own (ofFlow await done x) := by
  obtain ⟨c₁, pc | value | _⟩ := x
  · refine ⟨?_, ?_, ?_, horderly pc⟩
    · have htally := hx.tally
      change Cache.Tally _ (c₁, (await pc).uses c₁)
      rw [huses]
      exact htally
    · intro addr hmem
      change addr ∈ (await pc).held at hmem
      rw [hheld] at hmem
      exact hx.held addr hmem
    · exact fun key h => (hx.queue key h).imp_right (hfetches pc key)
  · have htally := hx.tally
    have hqueue := hx.queue
    have hover := hdone value
    change Moved c own (c₁, done value)
    generalize done value = task at hover
    refine ⟨?_, ?_, fun key h => .inl ?_, ?_⟩
    · cases task <;> first | exact htally | cases hover
    · intro addr hmem
      cases task <;> first
        | exact absurd hmem (Multiset.notMem_zero _)
        | cases hover
    · exact (hqueue key h).resolve_right fun h => (by cases h)
    · cases task <;> trivial
  · exact ⟨hx.tally, fun _ hmem => absurd hmem (Multiset.notMem_zero _),
      fun key h => .inl ((hx.queue key h).resolve_right fun h => (by cases h)),
      trivial⟩

/-- What a resumption of a task does. -/
theorem resume_moved {task : Task} {reply : Reply} {y : Cache × Task}
    (hlisted : c.Listed) (hheld : ∀ addr ∈ task.held, addr < c.nextAddr)
    (hqueued : ∀ key, (c.readQueue.lookup key).isSome →
      (c.lookup key.id).isSome)
    (horderly : task.Orderly) (hresume : task.resume c reply = some y) :
    Moved c (task.uses c) y := by
  cases task with
  | readAt r pc =>
      obtain ⟨x, hx, rfl⟩ := Option.map_eq_some_iff.mp hresume
      apply moved_ofFlow
        (Cache.readAtResume_settles hlisted hheld (hqueued r.key) hx)
      · exact fun _ _ => rfl
      · exact fun _ => rfl
      · intro pc key hfetches
        cases pc with
        | fetching fd fut => exact Option.some.inj hfetches
        | _ => cases hfetches
      · exact fun _ => trivial
      · exact fun _ => rfl
  | writeAt r input pc =>
      obtain ⟨x, hx, rfl⟩ := Option.map_eq_some_iff.mp hresume
      apply moved_ofFlow (Cache.writeAtResume_settles hlisted hheld hx)
      · exact fun _ _ => rfl
      · exact fun _ => rfl
      · exact fun _ _ hfetches => (by cases hfetches)
      · exact fun _ => trivial
      · exact fun _ => rfl
  | flush id pc =>
      obtain ⟨x, hx, rfl⟩ := Option.map_eq_some_iff.mp hresume
      apply moved_ofFlow (Cache.flushResume_settles hx)
      · exact fun _ _ => rfl
      · exact fun _ => rfl
      · exact fun _ _ hfetches => (by cases hfetches)
      · exact fun _ => trivial
      · exact fun _ => rfl
  | cleanStaleFds pc =>
      obtain ⟨x, hx, rfl⟩ := Option.map_eq_some_iff.mp hresume
      have hshift := Cache.cleanStaleFdsResume_shift hx
      have hnone : ∀ {addr : Addr}, addr ∉ (0 : Multiset Addr) :=
        Multiset.notMem_zero _
      obtain ⟨c₁, pc' | value | _⟩ := x
      · exact ⟨hshift.toTally, fun _ hmem => absurd hmem hnone,
          fun key h => .inl (hshift.queue key h), trivial⟩
      · exact ⟨hshift.toTally, fun _ hmem => absurd hmem hnone,
          fun key h => .inl (hshift.queue key h), trivial⟩
      · exact ⟨hshift.toTally, fun _ hmem => absurd hmem hnone,
          fun key h => .inl (hshift.queue key h), trivial⟩
  | truncate id oldSize newSize pc => exact horderly.elim
  | invalidateOne id shouldFlush pc => exact horderly.elim
  | shutdown after pc => exact horderly.elim
  | _ => cases hresume

theorem Fetches.uses {task : Task} {key : PageKey}
    (hfetches : task.Fetches key) (c : Cache) :
    task.uses c = {(key.id, .read)} := by
  obtain ⟨r, fd, fut, rfl, rfl⟩ := hfetches.cases
  rfl

/-- A task that does not go back to its entry does not start a fetch. -/
theorem resume_fetches_of_not_follows {task task' : Task} {reply : Reply}
    {c' : Cache} (hresume : task.resume c reply = some (c', task'))
    (hfollows : task.follows c reply = false) (key : PageKey) :
    ¬ task'.Fetches key := by
  intro hfetches
  obtain ⟨r, fd, fut, rfl, -⟩ := hfetches.cases
  cases task with
  | readAt r₀ pc =>
      cases pc with
      | evicting page pc =>
          cases pc with
          | opening addr rest => cases hfollows
          | flushing addr fd₀ rest pc =>
              obtain ⟨x, hx, heq⟩ := Option.map_eq_some_iff.mp hresume
              obtain ⟨y, hy, rfl⟩ := Option.map_eq_some_iff.mp hx
              obtain ⟨z, hz, rfl⟩ := Option.map_eq_some_iff.mp hy
              simp only [Task.follows, evictFollows, hz] at hfollows
              obtain ⟨c₁, pc₁ | value | _⟩ := z
              · cases heq
              · cases hfollows
              · cases hfollows
      | _ => cases hfollows
  | writeAt r₀ input pc =>
      obtain ⟨⟨c₁, flow⟩, -, heq⟩ := Option.map_eq_some_iff.mp hresume
      cases flow <;> cases heq
  | flush id pc =>
      obtain ⟨⟨c₁, flow⟩, -, heq⟩ := Option.map_eq_some_iff.mp hresume
      cases flow <;> cases heq
  | truncate id oldSize newSize pc =>
      obtain ⟨⟨c₁, flow⟩, -, heq⟩ := Option.map_eq_some_iff.mp hresume
      cases flow <;> cases heq
  | invalidateOne id shouldFlush pc =>
      obtain ⟨⟨c₁, flow⟩, -, heq⟩ := Option.map_eq_some_iff.mp hresume
      cases flow <;> cases heq
  | _ => cases hfollows

end

end Task

namespace Call

/-- Every call but `truncate`, `rename`, and those that invalidate entries or
shut the cache down. -/
def Orderly : Call → Prop
  | .hintOpen _ _ _ => True
  | .hintClose _ _ => True
  | .read _ _ _ => True
  | .write _ _ _ => True
  | .flush _ => True
  | .cleanStaleFds => True
  | _ => False

/-- What a call does to the cache before its first suspension point. -/
structure Begun (c c' : Cache) : Prop where
  unopened : c'.Unopened
  inflight : ∀ use, c.inflight use ≤ c'.inflight use
  next : c.nextAddr ≤ c'.nextAddr
  key : ∀ addr < c.nextAddr, (c'.heap addr).key = (c.heap addr).key
  listed : c.Listed → c'.Listed
  queue : ∀ key, (c'.readQueue.lookup key).isSome →
    (c.readQueue.lookup key).isSome

variable {c c' : Cache}

theorem begun_of_shift (hunopened : c.Unopened)
    (hshift : Cache.Shift (c, 0) (c', 0)) : Begun c c' where
  unopened := hunopened.tally hshift.toTally
  inflight use := by
    have hmoved := hshift.inflight use
    simpa using hmoved
  next := hshift.next
  key := hshift.key
  listed := hshift.listed
  queue := hshift.queue

theorem begun_of_recounts {id : Id} {c₁ : Cache} (hbegun : Begun c c₁)
    (hrecounts : c₁.Recounts id c') : Begun c c' := by
  obtain ⟨hinflight, hlru, hheap, hnext, hqueue⟩ := hrecounts.shift
  refine ⟨hrecounts.unopened hbegun.unopened, ?_, ?_, ?_, ?_, ?_⟩
  · rw [hinflight]
    exact hbegun.inflight
  · rw [hnext]
    exact hbegun.next
  · rw [hheap]
    exact hbegun.key
  · intro hlisted
    unfold Cache.Listed
    rw [hlru, hnext]
    exact hbegun.listed hlisted
  · rw [hqueue]
    exact hbegun.queue

theorem start_begun {call : Call} (horderly : call.Orderly)
    (hunopened : c.Unopened) : Begun c (call.start c).1 := by
  have hsame : Begun c c := begun_of_shift hunopened (.refl (c, 0))
  cases call with
  | hintOpen id path mode =>
      have hnew := begun_of_shift hunopened (Cache.newLookup_shift c id path)
      rcases c.hintOpen_recounts id path mode hunopened with heq | hrecounts
      · change Begun c (c.hintOpen id path mode).1
        rw [heq]
        exact hnew
      · exact begun_of_recounts hnew hrecounts
  | hintClose id mode =>
      rcases c.hintClose_recounts id mode hunopened with heq | hrecounts
      · change Begun c (c.hintClose id mode).1
        rw [heq]
        exact hsame
      · exact begun_of_recounts hsame hrecounts
  | read id len offset =>
      unfold start
      dsimp only
      split
      · exact hsame
      · exact hsame
  | write id input offset =>
      unfold start
      dsimp only
      split
      · exact hsame
      · exact begun_of_shift hunopened (Cache.shift_entry c id
          (Cache.setEntryDirty true) (fun _ _ => rfl) (fun _ _ => rfl) 0)
  | flush id => exact hsame
  | cleanStaleFds => exact hsame
  | _ => exact horderly.elim

/-- The tasks a call starts use nothing yet. -/
theorem start_uses {call : Call} (horderly : call.Orderly) {task : Task}
    (hmem : task ∈ (call.start c).2) :
    task.Orderly ∧ task.held = 0 ∧ ∀ c', task.uses c' = 0 := by
  have hover : ∀ res, task = .finished res →
      task.Orderly ∧ task.held = 0 ∧ ∀ c', task.uses c' = 0 := by
    rintro res rfl
    exact ⟨trivial, rfl, fun _ => rfl⟩
  cases call with
  | hintOpen id path mode => exact hover _ (List.mem_singleton.mp hmem)
  | hintClose id mode => exact hover _ (List.mem_singleton.mp hmem)
  | read id len offset =>
      unfold start at hmem
      dsimp only at hmem
      split at hmem
      · exact hover _ (List.mem_singleton.mp hmem)
      · obtain ⟨r, -, rfl⟩ := List.mem_map.mp hmem
        exact ⟨trivial, rfl, fun _ => rfl⟩
  | write id input offset =>
      unfold start at hmem
      dsimp only at hmem
      split at hmem
      · exact hover _ (List.mem_singleton.mp hmem)
      · obtain ⟨r, -, rfl⟩ := List.mem_map.mp hmem
        exact ⟨trivial, rfl, fun _ => rfl⟩
  | flush id =>
      obtain rfl := List.mem_singleton.mp hmem
      exact ⟨trivial, rfl, fun _ => rfl⟩
  | cleanStaleFds =>
      obtain rfl := List.mem_singleton.mp hmem
      exact ⟨trivial, rfl, fun _ => rfl⟩
  | _ => exact horderly.elim

end Call

namespace Pool

variable {p p' : Pool}

/-- What all tasks together use. -/
def uses (p : Pool) : Multiset (Id × FdKind) :=
  (p.tasks.map (Task.uses p.cache)).sum

/-- Every mark belongs to a file that nobody has open, every descriptor in use
is counted, and a registered fetch is the fetch of some task, whose reference
to its entry does not dangle. -/
structure Tended (p : Pool) : Prop where
  unopened : p.cache.Unopened
  counted : ∀ use, (p.uses.count use : Int) ≤ p.cache.inflight use
  listed : p.cache.Listed
  held : ∀ task ∈ p.tasks, ∀ addr ∈ task.held, addr < p.cache.nextAddr
  fetched : ∀ key, (p.cache.readQueue.lookup key).isSome →
    ∃ task ∈ p.tasks, task.Fetches key
  fresh : ∀ j ∈ p.stale, ∀ task, p.tasks[j]? = some task →
    ∀ key, ¬ task.Fetches key
  orderly : ∀ task ∈ p.tasks, task.Orderly

theorem tended_create (pageSize maxPages : Nat) :
    Tended ⟨Cache.create pageSize maxPages, [], []⟩ where
  unopened _ hmem := absurd hmem List.not_mem_nil
  counted _ := Int.le_refl _
  listed _ hmem := absurd hmem List.not_mem_nil
  held _ hmem := absurd hmem List.not_mem_nil
  fetched _ h := by cases h
  fresh _ hmem := absurd hmem List.not_mem_nil
  orderly _ hmem := absurd hmem List.not_mem_nil

theorem count_uses_le {c : Cache} {tasks : List Task} {j : Nat} {task : Task}
    (htask : tasks[j]? = some task) (use : Id × FdKind) :
    (task.uses c).count use ≤ ((tasks.map (Task.uses c)).sum).count use :=
  Multiset.count_le_of_le use (List.le_sum_of_mem
    (List.mem_map_of_mem (List.mem_of_getElem? htask)))

theorem Tended.count_le (h : p.Tended) {task : Task} (hmem : task ∈ p.tasks)
    (use : Id × FdKind) :
    ((task.uses p.cache).count use : Int) ≤ p.cache.inflight use := by
  have hle : task.uses p.cache ≤ p.uses :=
    List.le_sum_of_mem (List.mem_map_of_mem hmem)
  have hcount := Multiset.count_le_of_le use hle
  have htotal := h.counted use
  omega

/-- The file of a registered fetch has an entry. -/
theorem Tended.entry (h : p.Tended) {key : PageKey} {task : Task}
    (hmem : task ∈ p.tasks) (hfetches : task.Fetches key) :
    (p.cache.lookup key.id).isSome := by
  obtain ⟨r, fd, fut, rfl, rfl⟩ := hfetches.cases
  have hcount := h.count_le hmem (r.id, .read)
  change ((Multiset.count (r.id, FdKind.read) {(r.id, FdKind.read)} : Nat) :
    Int) ≤ _ at hcount
  rw [Multiset.count_singleton_self, Cache.inflight] at hcount
  change (p.cache.lookup r.id).isSome
  cases hentry : p.cache.lookup r.id with
  | none =>
      rw [hentry] at hcount
      simp at hcount
  | some entry => rfl

/-- A task that was fetching has no registered fetch where it goes on. -/
theorem Tended.fetch_over (h : p.Tended) {key : PageKey} {task : Task}
    {reply : Reply} {y : Cache × Task} (hmem : task ∈ p.tasks)
    (hfetches : task.Fetches key) (hstep : task.resume p.cache reply = some y) :
    ¬ (y.1.readQueue.lookup key).isSome := by
  have hentry := h.entry hmem hfetches
  obtain ⟨r, fd, fut, rfl, rfl⟩ := hfetches.cases
  obtain ⟨x, hx, rfl⟩ := Option.map_eq_some_iff.mp hstep
  have hover := Cache.readAtResume_over h.listed hentry hx
  obtain ⟨c', pc | value | _⟩ := x
  · exact Option.not_isSome_iff_eq_none.mpr hover
  · exact Option.not_isSome_iff_eq_none.mpr hover
  · exact Option.not_isSome_iff_eq_none.mpr hover

/-- The other tasks use what they used. -/
theorem Tended.uses_eq (h : p.Tended) {c' : Cache}
    (hkey : ∀ addr < p.cache.nextAddr,
      (c'.heap addr).key = (p.cache.heap addr).key) :
    p.tasks.map (Task.uses c') = p.tasks.map (Task.uses p.cache) := by
  apply List.map_congr_left
  intro task hmem
  apply task.uses_congr
  exact fun addr haddr => hkey addr (h.held task hmem addr haddr)

theorem Tended.call (h : p.Tended) {call : Call} (horderly : call.Orderly) :
    Tended (p.call call) := by
  have hbegun := call.start_begun horderly h.unopened
  have hstart : ∀ task ∈ (call.start p.cache).2,
      task.Orderly ∧ task.held = 0 ∧ ∀ c', task.uses c' = 0 :=
    fun task => call.start_uses horderly
  refine ⟨hbegun.unopened, fun use => ?_, hbegun.listed h.listed, ?_, ?_, ?_,
    ?_⟩
  · have hnew : ((call.start p.cache).2.map
        (Task.uses (call.start p.cache).1)).sum = 0 := by
      apply List.sum_eq_zero
      intro uses huses
      obtain ⟨task, htask, rfl⟩ := List.mem_map.mp huses
      exact (hstart task htask).2.2 _
    have huses : (p.call call).uses = p.uses := by
      change ((p.tasks ++ _).map (Task.uses (call.start p.cache).1)).sum = _
      rw [List.map_append, List.sum_append, hnew, add_zero,
        h.uses_eq hbegun.key]
      rfl
    rw [huses]
    exact Int.le_trans (h.counted use) (hbegun.inflight use)
  · intro task hmem addr haddr
    rcases List.mem_append.mp hmem with hold | hnew
    · exact Nat.lt_of_lt_of_le (h.held task hold addr haddr) hbegun.next
    · rw [(hstart task hnew).2.1] at haddr
      exact absurd haddr (Multiset.notMem_zero _)
  · intro key hsome
    obtain ⟨task, hmem, hfetches⟩ := h.fetched key (hbegun.queue key hsome)
    exact ⟨task, List.mem_append_left _ hmem, hfetches⟩
  · intro j hstale task htask key hfetches
    change (p.tasks ++ (call.start p.cache).2)[j]? = some task at htask
    rw [List.getElem?_append] at htask
    split_ifs at htask
    · exact h.fresh j hstale task htask key hfetches
    · have huses := (hstart task (List.mem_of_getElem? htask)).2.2 p.cache
      rw [hfetches.uses] at huses
      exact Multiset.singleton_ne_zero _ huses
  · intro task hmem
    rcases List.mem_append.mp hmem with hold | hnew
    · exact h.orderly task hold
    · exact (hstart task hnew).1

/-- A task that crashes has no fetch registered and uses nothing any more. -/
theorem Tended.crash (h : p.Tended) {i : Nat} {task : Task}
    (htask : p.tasks[i]? = some task) (hstale : i ∈ p.stale) :
    Tended ⟨p.cache, p.tasks.set i .crashed, p.stale⟩ := by
  have hin : ∀ other ∈ p.tasks.set i .crashed,
      other ∈ p.tasks ∨ other = .crashed := fun other hother =>
    List.mem_or_eq_of_mem_set hother
  refine ⟨h.unopened, fun use => ?_, h.listed, ?_, ?_, ?_, ?_⟩
  · have hsum := sum_map_set (Task.uses p.cache) htask .crashed
    have hcount := congrArg (Multiset.count use) hsum
    rw [Multiset.count_add, Multiset.count_add] at hcount
    have hbefore := h.counted use
    have hnone : (Task.crashed.uses p.cache).count use = 0 := rfl
    change (Multiset.count use (p.tasks.map (Task.uses p.cache)).sum : Int) ≤ _
      at hbefore
    change (Multiset.count use ((p.tasks.set i .crashed).map
      (Task.uses p.cache)).sum : Int) ≤ p.cache.inflight use
    omega
  · intro other hother addr haddr
    rcases hin other hother with hold | rfl
    · exact h.held other hold addr haddr
    · exact absurd haddr (Multiset.notMem_zero _)
  · intro key hsome
    obtain ⟨other, hother, hfetches⟩ := h.fetched key hsome
    obtain ⟨j, hj⟩ := List.mem_iff_getElem?.mp hother
    have hij : i ≠ j := by
      rintro rfl
      exact h.fresh i hstale other hj key hfetches
    refine ⟨other, List.mem_iff_getElem?.mpr ⟨j, ?_⟩, hfetches⟩
    rw [List.getElem?_set_ne hij, hj]
  · intro j hj other hother key
    rcases eq_or_ne i j with rfl | hij
    · rw [List.getElem?_set_self (List.getElem?_eq_some_iff.mp htask).1]
        at hother
      obtain rfl := Option.some.inj hother
      exact id
    · rw [List.getElem?_set_ne hij] at hother
      exact h.fresh j hj other hother key
  · intro other hother
    rcases hin other hother with hold | rfl
    · exact h.orderly other hold
    · trivial

/-- The entry of a task that fetches does not leave the table. -/
theorem fresh_strays {i : Nat} {c' : Cache}
    (hcounted : ∀ j ≠ i, ∀ task, p.tasks[j]? = some task → ∀ use,
      ((task.uses p.cache).count use : Int) ≤ c'.inflight use) {j : Nat}
    (hj : j ∈ p.strays i c') {task : Task} (htask : p.tasks[j]? = some task)
    (key : PageKey) : ¬ task.Fetches key := by
  intro hfetches
  obtain ⟨hne, task₀, id, htask₀, hid, -, hgone⟩ := mem_strays.mp hj
  obtain rfl := Option.some.inj (htask.symm.trans htask₀)
  obtain ⟨r, fd, fut, rfl, rfl⟩ := hfetches.cases
  obtain rfl : r.key.id = id := Option.some.inj hid
  have hcount := hcounted j hne _ htask (r.key.id, .read)
  rw [hfetches.uses, Multiset.count_singleton_self, Cache.inflight,
    Option.isNone_iff_eq_none.mp hgone] at hcount
  simp at hcount

theorem Tended.resume (h : p.Tended) {i : Nat} {reply : Reply}
    (hresume : p.resume i reply = some p') : p'.Tended := by
  obtain ⟨task, c', task', htask, hstep,
    ⟨hfollows, rfl⟩ | ⟨hstale, -, rfl⟩⟩ := Pool.resume_cases hresume
  case inr => exact h.crash htask hstale
  have hmem := List.mem_of_getElem? htask
  have hentry : ∀ key, (p.cache.readQueue.lookup key).isSome →
      (p.cache.lookup key.id).isSome := by
    intro key hsome
    obtain ⟨other, hother, hfetches⟩ := h.fetched key hsome
    exact h.entry hother hfetches
  have hmoved := Task.resume_moved h.listed (h.held task hmem) hentry
    (h.orderly task hmem) hstep
  have hin : ∀ other ∈ p.tasks.set i task',
      other ∈ p.tasks ∨ other = task' := fun other hother =>
    List.mem_or_eq_of_mem_set hother
  have hlt : i < p.tasks.length := (List.getElem?_eq_some_iff.mp htask).1
  have hcounted : ∀ use, (Multiset.count use ((p.tasks.set i task').map
      (Task.uses c')).sum : Int) ≤ c'.inflight use := by
    intro use
    have hown : task.uses c' = task.uses p.cache :=
      task.uses_congr fun addr haddr =>
        hmoved.tally.key addr (h.held task hmem addr haddr)
    have hsum := sum_map_set (Task.uses c') htask task'
    rw [h.uses_eq hmoved.tally.key, hown] at hsum
    have hcount := congrArg (Multiset.count use) hsum
    rw [Multiset.count_add, Multiset.count_add] at hcount
    have hbefore := h.counted use
    have hinflight := hmoved.tally.inflight use
    change (Multiset.count use (p.tasks.map (Task.uses p.cache)).sum : Int) ≤ _
      at hbefore
    dsimp only at hinflight
    omega
  refine ⟨h.unopened.tally hmoved.tally, hcounted,
    hmoved.tally.listed h.listed, ?_, ?_, ?_, ?_⟩
  · intro other hother addr haddr
    rcases hin other hother with hold | rfl
    · exact Nat.lt_of_lt_of_le (h.held other hold addr haddr)
        hmoved.tally.next
    · exact hmoved.held addr haddr
  · intro key hsome
    rcases hmoved.queue key hsome with hold | hfetches
    · obtain ⟨other, hother, hfetches⟩ := h.fetched key hold
      obtain ⟨j, hj⟩ := List.mem_iff_getElem?.mp hother
      by_cases hij : i = j
      · subst hij
        obtain rfl := Option.some.inj (htask.symm.trans hj)
        exact absurd hsome (h.fetch_over hother hfetches hstep)
      · refine ⟨other, ?_, hfetches⟩
        apply List.mem_iff_getElem?.mpr
        exact ⟨j, by rw [List.getElem?_set_ne hij, hj]⟩
    · exact ⟨task', List.mem_set hlt task', hfetches⟩
  · intro j hj other hother
    rcases eq_or_ne i j with rfl | hij
    · rw [List.getElem?_set_self hlt] at hother
      obtain rfl := Option.some.inj hother
      have hstale : i ∈ p.stale := by
        refine (List.mem_append.mp hj).resolve_right fun hstray => ?_
        exact (mem_strays.mp hstray).1 rfl
      exact Task.resume_fetches_of_not_follows hstep (hfollows hstale)
    · rw [List.getElem?_set_ne hij] at hother
      rcases List.mem_append.mp hj with hold | hstray
      · exact h.fresh j hold other hother
      · refine fresh_strays (fun j hne task₁ htask₁ use => ?_) hstray hother
        have hset : (p.tasks.set i task')[j]? = some task₁ := by
          rw [List.getElem?_set_ne (Ne.symm hne), htask₁]
        have hle := count_uses_le (c := c') hset use
        rw [task₁.uses_congr fun addr haddr => hmoved.tally.key addr
          (h.held task₁ (List.mem_of_getElem? htask₁) addr haddr)] at hle
        exact Int.le_trans (Int.ofNat_le.mpr hle) (hcounted use)
  · intro other hother
    rcases hin other hother with hold | rfl
    · exact h.orderly other hold
    · exact hmoved.orderly

/-- No call invalidates entries or shuts the cache down. -/
def Orderly (_ : Pool) : PoolEvent → Pool → Prop
  | .call call, _ => call.Orderly
  | .resume _ _, _ => True

theorem Tended.step (h : p.Tended) {event : PoolEvent}
    (hstep : p.step event = some p') (horderly : p.Orderly event p') :
    p'.Tended := by
  cases event with
  | call call =>
      cases hstep
      exact h.call horderly
  | resume i reply => exact h.resume hstep

/-- A descriptor that is taken has no opener and no user. -/
theorem Tended.takes (h : p.Tended) {use : Id × FdKind} {fd : Fd}
    (htakes : p.cache.Takes use fd) :
    p.cache.openers use = 0 ∧ ∀ task ∈ p.tasks, use ∉ task.uses p.cache := by
  obtain ⟨hslot, hnone⟩ := htakes
  rcases Cache.takeStales_fdSlot p.cache.staleFds p.cache use with
    hsame | ⟨hmark, hidle, -⟩
  · rw [hsame, hslot] at hnone
    cases hnone
  · refine ⟨h.unopened use hmark, fun task hmem huse => ?_⟩
    have hcount := h.count_le hmem use
    have hpos := Multiset.count_pos.mpr huse
    omega

/-- Any calls in any order, any interleaving of their tasks at the suspension
points and any replies.  A mark on an entry says that nobody has the file open
for this kind of access.  Every descriptor that `clean_stale_fds` passes to
`close` was taken out of the slot of an entry, and where it takes one nobody
has the file open for this kind of access, and no task is in the middle of a
read, a flush or an eviction that uses this slot. -/
theorem reaper_spares_used {pageSize maxPages : Nat} {events : List PoolEvent}
    (hruns : Runs Pool.step Orderly ⟨Cache.create pageSize maxPages, [], []⟩
      events p) :
    (∀ id kind entry, (id, kind) ∈ p.cache.staleFds →
      p.cache.lookup id = some entry → entry.openers kind = 0) ∧
    (∀ id kind fd entry, p.cache.Takes (id, kind) fd →
      p.cache.lookup id = some entry → entry.openers kind = 0 ∧
        ∀ task ∈ p.tasks, (id, kind) ∉ task.uses p.cache) ∧
    ∀ i reply q fd rest, p.tasks[i]? = some (.cleanStaleFds .start) →
      p.step (.resume i reply) = some q →
      q.tasks[i]? = some (.cleanStaleFds (.closing fd rest)) →
      ∀ fd' ∈ fd :: rest, ∃ use, p.cache.Takes use fd' := by
  have h : p.Tended := hruns.preserves
    (fun hstep horderly h => h.step hstep horderly)
    (tended_create pageSize maxPages)
  have hopeners : ∀ {id kind entry}, p.cache.lookup id = some entry →
      p.cache.openers (id, kind) = entry.openers kind := by
    intro id kind entry hentry
    rw [Cache.openers, hentry]
    rfl
  refine ⟨?_, ?_, ?_⟩
  · intro id kind entry hmark hentry
    exact (hopeners hentry).symm.trans (h.unopened _ hmark)
  · intro id kind fd entry htakes hentry
    obtain ⟨hunopened, hunused⟩ := h.takes htakes
    exact ⟨(hopeners hentry).symm.trans hunopened, hunused⟩
  · intro i reply q fd rest htask hstep hclosing fd' hmem
    obtain ⟨task, c', task', htask', hresume, ⟨-, rfl⟩ | ⟨-, -, rfl⟩⟩ :=
      Pool.resume_cases hstep
    case inr =>
      rw [List.getElem?_set_self (List.getElem?_eq_some_iff.mp htask).1]
        at hclosing
      cases hclosing
    obtain rfl := Option.some.inj (htask.symm.trans htask')
    obtain ⟨x, hx, hflow⟩ := Option.map_eq_some_iff.mp hresume
    have hlt : i < p.tasks.length := (List.getElem?_eq_some_iff.mp htask).1
    rw [List.getElem?_set_self hlt] at hclosing
    obtain rfl := Option.some.inj hclosing
    obtain ⟨c₁, pc | value | _⟩ := x
    · obtain ⟨-, hpc⟩ := Prod.mk.inj hflow
      have hawait : pc = .closing fd rest := Task.cleanStaleFds.inj hpc
      rw [Cache.cleanStaleFdsResume_closing hx (congrArg Flow.await hawait)]
        at hmem
      exact Cache.takeStales_takes p.cache.staleFds p.cache hmem
    · cases (Prod.mk.inj hflow).2
    · cases (Prod.mk.inj hflow).2

/-- A file is read and closed, and its descriptor is about to be taken. -/
def closedEvents : List PoolEvent :=
  [.call (.hintOpen ⟨1⟩ ["f"] .read), .call (.read ⟨1⟩ 1 0), .resume 1 .go,
    .resume 1 (.opened (.ok 3)), .resume 1 (.fetched (.ok [7])),
    .call (.hintClose ⟨1⟩ .read), .call .cleanStaleFds]

theorem runs_closedEvents :
    ∃ p q, Runs Pool.step Orderly ⟨Cache.create 1 1, [], []⟩ closedEvents p ∧
      (⟨1⟩, .read) ∈ p.cache.staleFds ∧ p.cache.Takes (⟨1⟩, .read) 3 ∧
      (p.cache.lookup ⟨1⟩).isSome ∧
      p.tasks[3]? = some (.cleanStaleFds .start) ∧
      p.step (.resume 3 .go) = some q ∧
      q.tasks[3]? = some (.cleanStaleFds (.closing 3 [])) := by
  refine ⟨_, _, .cons rfl trivial (.cons rfl trivial (.cons rfl trivial
    (.cons rfl trivial (.cons rfl trivial (.cons rfl trivial
    (.cons rfl trivial (.nil _))))))), ?_, ⟨rfl, rfl⟩, rfl, rfl, rfl, rfl⟩
  exact List.mem_cons_self

/-- The mark is on a file that nobody reads, and the descriptor that
`clean_stale_fds` closes next was taken out of a slot that nobody uses. -/
theorem reaper_spares_used_closed :
    ∃ p q, Runs Pool.step Orderly ⟨Cache.create 1 1, [], []⟩ closedEvents p ∧
      p.step (.resume 3 .go) = some q ∧
      q.tasks[3]? = some (.cleanStaleFds (.closing 3 [])) ∧
      (∃ entry, p.cache.lookup ⟨1⟩ = some entry ∧ entry.reader = 0) ∧
      (∀ task ∈ p.tasks, (⟨1⟩, .read) ∉ task.uses p.cache) ∧
      ∃ use, p.cache.Takes use 3 := by
  obtain ⟨p, q, hruns, hmark, htakes, hlookup, htask, hstep, hclosing⟩ :=
    runs_closedEvents
  obtain ⟨entry, hentry⟩ := Option.isSome_iff_exists.mp hlookup
  have hspares := reaper_spares_used hruns
  refine ⟨p, q, hruns, hstep, hclosing, ⟨entry, hentry, ?_⟩, ?_, ?_⟩
  · exact hspares.1 ⟨1⟩ .read entry hmark hentry
  · exact (hspares.2.1 ⟨1⟩ .read 3 entry htakes hentry).2
  · exact hspares.2.2 3 .go q 3 [] htask hstep hclosing 3 List.mem_cons_self

end Pool

end Madbfs
