/-
Reconfiguring the cache under open files.  Every operation that comes over the
IPC socket starts with a `shutdown`, which clears the table of the cache; only
`hint_open` makes new entries.  A handle that was open before has no entry
afterwards, and with a cache neither its reads and writes nor its release find
the file.
-/
import Madbfs.Filesystem

namespace Madbfs

namespace Cache

variable {c c' : Cache} {id : Id}

/-- No operation but `hint_open` makes an entry: the files without one. -/
def Lacks (c : Cache) (id : Id) : Prop :=
  c.slots id = none

theorem lacks_iff : c.Lacks id ↔ c.lookup id = none := by
  rw [Lacks, slots, Option.map_eq_none_iff]

theorem Lacks.modifyEntry (h : c.Lacks id) (id' : Id)
    (f : LookupEntry → LookupEntry) : (c.modifyEntry id' f).Lacks id := by
  rw [lacks_iff] at h ⊢
  rw [lookup_modifyEntry]
  split_ifs with heq
  · rw [← heq, h]
    rfl
  · exact h

theorem Lacks.store (h : c.Lacks id) (target : Option (Id × FdKind))
    (reply : Reply) : (c.store target reply).Lacks id := by
  unfold Cache.store
  split
  · exact h.modifyEntry _ _
  · exact h

theorem Lacks.eraseEntry (h : c.Lacks id) (id' : Id) :
    (c.eraseEntry id').Lacks id := by
  rw [Lacks, slots_eraseEntry]
  split_ifs
  · rfl
  · exact h

theorem Lacks.extract (h : c.Lacks id) (id' : Id) :
    (c.extract id').1.Lacks id := by
  unfold Cache.extract
  split
  · exact h
  · dsimp only
    split_ifs
    · exact h.eraseEntry id'
    · exact h

theorem Lacks.dropFds (h : c.Lacks id) : c.dropFds.Lacks id := by
  rw [Lacks, Cache.dropFds, slots_foldl_drop, h]
  split_ifs <;> rfl

theorem shutdownEnd_lacks (c : Cache) (after : After) (id : Id) :
    (c.shutdownEnd after).1.Lacks id := by
  cases after <;> rfl

theorem Lacks.shutdownLoop (after : After) (ids : List Id) (h : c.Lacks id) :
    (shutdownLoop after ids c).1.Lacks id := by
  induction ids generalizing c with
  | nil =>
      rw [Cache.shutdownLoop]
      cases c.allFds with
      | nil => exact shutdownEnd_lacks _ after id
      | cons fd rest => exact h.dropFds
  | cons head tail ih =>
      have hflush : (c.flushStart head).1.Lacks id := by
        rw [Lacks, flushStart_slots]
        exact h
      rw [Cache.shutdownLoop]
      generalize c.flushStart head = x at hflush
      obtain ⟨c₁, pc | value | _⟩ := x
      · exact hflush
      · exact ih hflush
      · exact hflush

/-- A `shutdown` that ends has cleared the table. -/
theorem shutdownLoop_done (after : After) (ids : List Id) (c : Cache)
    (hdone : (shutdownLoop after ids c).2 = .done ()) (id : Id) :
    (shutdownLoop after ids c).1.Lacks id := by
  induction ids generalizing c with
  | nil =>
      rw [Cache.shutdownLoop] at hdone ⊢
      cases hall : c.allFds with
      | nil => exact shutdownEnd_lacks _ after id
      | cons fd rest =>
          rw [hall] at hdone
          cases hdone
  | cons head tail ih =>
      rw [Cache.shutdownLoop] at hdone ⊢
      generalize c.flushStart head = x at hdone
      obtain ⟨c₁, pc | value | _⟩ := x
      · cases hdone
      · exact ih c₁ hdone
      · cases hdone

theorem takeStale_lacks (mark : Id × FdKind) (h : c.Lacks id) :
    (c.takeStale mark).1.Lacks id := by
  obtain ⟨id', kind⟩ := mark
  unfold takeStale
  dsimp only
  split
  · exact h
  · cases kind <;> dsimp only <;> split_ifs
    · exact h.modifyEntry _ _
    · exact h
    · exact h.modifyEntry _ _
    · exact h

theorem takeStales_lacks (marks : List (Id × FdKind)) (h : c.Lacks id) :
    (takeStales marks c).1.Lacks id := by
  induction marks generalizing c with
  | nil => exact h
  | cons mark rest ih => exact ih (takeStale_lacks mark h)

theorem Lacks.dropFree (h : c.Lacks id) : c.dropFree.Lacks id := by
  unfold Cache.dropFree
  generalize c.table.keys.filter _ = ids
  induction ids generalizing c with
  | nil => exact h
  | cons head tail ih => exact ih (h.eraseEntry head)

theorem invalidateOneResume_lacks {id' : Id} {shouldFlush : Bool}
    {pc : FlushPc} {reply : Reply} {x : Cache × Flow FlushPc Unit}
    (hresume : c.invalidateOneResume id' shouldFlush pc reply = some x)
    (h : c.Lacks id) : x.1.Lacks id := by
  unfold invalidateOneResume at hresume
  split_ifs at hresume
  · obtain ⟨y, hy, rfl⟩ := Option.map_eq_some_iff.mp hresume
    have hflush : y.1.Lacks id := by
      rw [Lacks, (flushResume_carries hy).slots]
      exact h.store _ _
    obtain ⟨c₁, pc₁ | value | _⟩ := y
    · exact hflush
    · exact hflush.extract id'
    · exact hflush
  · split at hresume
    · cases hresume
      exact h.extract id'
    · cases hresume

theorem shutdownResume_lacks {after : After} {pc : ShutdownPc} {reply : Reply}
    {x : Cache × Flow ShutdownPc Unit}
    (hresume : c.shutdownResume after pc reply = some x) :
    (c.Lacks id → x.1.Lacks id) ∧ (x.2 = .done () → x.1.Lacks id) := by
  unfold shutdownResume at hresume
  split at hresume
  · cases hresume
    refine ⟨fun h => Lacks.shutdownLoop after _ ?_,
      fun h => shutdownLoop_done after _ _ h id⟩
    exact h
  · next id' rest pc =>
    obtain ⟨y, hy, rfl⟩ := Option.map_eq_some_iff.mp hresume
    have hflush : c.Lacks id → y.1.Lacks id := by
      intro h
      rw [Lacks, (flushResume_carries hy).slots]
      exact h.store _ _
    obtain ⟨c₁, pc₁ | value | _⟩ := y
    · exact ⟨hflush, fun h => by cases h⟩
    · exact ⟨fun h => (hflush h).shutdownLoop after rest,
        fun h => shutdownLoop_done after rest c₁ h id⟩
    · exact ⟨hflush, fun h => by cases h⟩
  · next fd rest _ =>
    cases hresume
    cases rest with
    | nil =>
        have hend := c.shutdownEnd_lacks after id
        exact ⟨fun _ => hend, fun _ => hend⟩
    | cons head tail => exact ⟨fun h => h, fun h => by cases h⟩
  · cases hresume

theorem cleanStaleFdsResume_lacks {pc : ClosePc} {reply : Reply}
    {x : Cache × Flow ClosePc Unit}
    (hresume : c.cleanStaleFdsResume pc reply = some x) (h : c.Lacks id) :
    x.1.Lacks id := by
  have hclose : ∀ (c : Cache) fds, c.Lacks id → (c.cleanClose fds).1.Lacks id := by
    intro c fds hc
    cases fds with
    | nil => exact hc.dropFree
    | cons fd rest => exact hc
  unfold cleanStaleFdsResume at hresume
  split at hresume
  · cases hresume
    exact hclose _ _ (takeStales_lacks c.staleFds h)
  · cases hresume
    exact hclose c _ h
  · cases hresume

end Cache

namespace Task

variable {c c' : Cache} {task task' : Task} {reply : Reply} {id : Id}

theorem resume_lacks (hresume : task.resume c reply = some (c', task'))
    (h : c.Lacks id) : c'.Lacks id := by
  have hcarries : ∀ {π α : Type} {fds : π → List Fd} {own : List Fd}
      {target : Option (Id × FdKind)} {x : Cache × Flow π α},
      Cache.Carries fds own (c.store target reply) x → x.1.Lacks id := by
    intro π α fds own target x hx
    rw [Cache.Lacks, hx.slots]
    exact h.store _ _
  unfold resume at hresume
  split at hresume
  all_goals
    first
    | cases hresume
    | obtain ⟨x, hx, hflow⟩ := Option.map_eq_some_iff.mp hresume
      obtain ⟨rfl, -⟩ := ofFlow_cases hflow
  · exact hcarries (Cache.readAtResume_carries hx)
  · exact hcarries (Cache.writeAtResume_carries hx)
  · exact hcarries (Cache.flushResume_carries hx)
  · exact hcarries (Cache.truncateResume_carries hx)
  · exact Cache.invalidateOneResume_lacks hx h
  · exact (Cache.shutdownResume_lacks hx).1 h
  · exact Cache.cleanStaleFdsResume_lacks hx h

/-- A `shutdown` that is resumed goes on, or it has cleared the table. -/
theorem shutdown_resume {after : Cache.After} {pc : ShutdownPc}
    (hresume : (Task.shutdown after pc).resume c reply = some (c', task')) :
    (∃ pc', task' = .shutdown after pc') ∨ task' = .crashed ∨
      ∀ id, c'.Lacks id := by
  obtain ⟨x, hx, hflow⟩ := Option.map_eq_some_iff.mp hresume
  obtain ⟨rfl, hcases⟩ := ofFlow_cases hflow
  rcases hcases with ⟨pc', -, rfl⟩ | ⟨value, hvalue, -⟩ | ⟨-, rfl⟩
  · exact .inl ⟨pc', rfl⟩
  · exact .inr (.inr fun id => (Cache.shutdownResume_lacks hx).2 hvalue)
  · exact .inr (.inl rfl)

end Task

namespace World

variable {w w' : World} {id : Id}

/-- The task `n` is a `shutdown` that has not ended, or the table is clear. -/
def ShutsDown (w : World) (n : Nat) : Prop :=
  (∃ after pc, w.pool.tasks[n]? = some (.shutdown after pc)) ∨
  w.pool.tasks[n]? = some .crashed ∨ ∀ id, w.pool.cache.Lacks id

theorem lacks_step {event : Event} (hstep : w.step event = some w')
    (hcall : event.isCall = false) (h : w.pool.cache.Lacks id) :
    w'.pool.cache.Lacks id := by
  cases event with
  | call call => cases hcall
  | exec i accept =>
      simp only [step, exec] at hstep
      split at hstep <;> cases hstep
      exact h
  | resume i =>
      obtain ⟨p, hp, rfl⟩ := Option.map_eq_some_iff.mp hstep
      obtain ⟨task, c', task', -, hresume, ⟨-, rfl⟩ | ⟨-, -, rfl⟩⟩ :=
        Pool.resume_cases hp
      · exact Task.resume_lacks hresume h
      · exact h

/-- A step leaves a task as it is, resumes it or crashes it. -/
theorem step_task {event : Event} (hstep : w.step event = some w')
    (hcall : event.isCall = false) (n : Nat) :
    w'.pool.tasks[n]? = w.pool.tasks[n]? ∨
    (∃ task reply task', w.pool.tasks[n]? = some task ∧
      task.resume w.pool.cache reply = some (w'.pool.cache, task') ∧
      w'.pool.tasks[n]? = some task') ∨
    w'.pool.tasks[n]? = some .crashed := by
  cases event with
  | call call => cases hcall
  | exec i accept =>
      simp only [step, exec] at hstep
      split at hstep <;> cases hstep
      exact .inl rfl
  | resume i =>
      obtain ⟨p, hp, rfl⟩ := Option.map_eq_some_iff.mp hstep
      obtain ⟨task, c', task', htask, hresume, hp'⟩ := Pool.resume_cases hp
      have hlt := (List.getElem?_eq_some_iff.mp htask).1
      have hself : ∀ {tasks : List Task} {other : Task},
          i < tasks.length → (tasks.set i other)[i]? = some other :=
        fun hlt => List.getElem?_set_self hlt
      rcases hp' with ⟨-, rfl⟩ | ⟨-, -, rfl⟩
      · by_cases heq : i = n
        · subst heq
          exact .inr (.inl ⟨task, _, task', htask, hresume, hself hlt⟩)
        · exact .inl (List.getElem?_set_ne heq)
      · by_cases heq : i = n
        · subst heq
          exact .inr (.inr (hself hlt))
        · exact .inl (List.getElem?_set_ne heq)

theorem ShutsDown.step {event : Event} {n : Nat} (h : w.ShutsDown n)
    (hstep : w.step event = some w') (hcall : event.isCall = false) :
    w'.ShutsDown n := by
  rcases h with ⟨after, pc, hrunning⟩ | hcrashed | hclear
  · rcases step_task hstep hcall n with
      hsame | ⟨task, reply, task', htask, hresume, htask'⟩ | hcrashed
    · exact .inl ⟨after, pc, hsame.trans hrunning⟩
    · cases htask.symm.trans hrunning
      rcases Task.shutdown_resume hresume with ⟨pc', rfl⟩ | rfl | hclear
      · exact .inl ⟨after, pc', htask'⟩
      · exact .inr (.inl htask')
      · exact .inr (.inr hclear)
    · exact .inr (.inl hcrashed)
  · rcases step_task hstep hcall n with
      hsame | ⟨task, reply, task', htask, hresume, -⟩ | hcrashed
    · exact .inr (.inl (hsame.trans hcrashed))
    · cases htask.symm.trans hcrashed
      cases hresume
    · exact .inr (.inl hcrashed)
  · exact .inr (.inr fun id => lacks_step hstep hcall (hclear id))

/-- A call that starts with a `shutdown` and has been completed. -/
theorem Completes.lacks {call : Call} {parts : List Task}
    (hcompletes : w.Completes call w' parts) {after : Cache.After}
    (hstart : (call.start w.pool.cache).2 = [.shutdown after .start]) :
    ∀ id, w'.pool.cache.Lacks id := by
  obtain ⟨⟨events, hruns⟩, hdone, hparts⟩ := hcompletes
  have hbegin : ShutsDown { w with pool := w.pool.call call }
      w.pool.tasks.length := by
    refine .inl ⟨after, .start, ?_⟩
    change (w.pool.tasks ++ (call.start w.pool.cache).2)[_]? = _
    rw [hstart, List.getElem?_append_right (Nat.le_refl _), Nat.sub_self]
    rfl
  have hend : w'.ShutsDown w.pool.tasks.length :=
    hruns.preserves (I := fun w₁ => w₁.ShutsDown w.pool.tasks.length)
      (fun hstep hcall h => h.step hstep hcall) hbegin
  have hlast : ∀ task, w'.pool.tasks[w.pool.tasks.length]? = some task →
      task.isDone = true := by
    intro task htask
    apply hdone
    rw [hparts, hstart, List.length_singleton]
    apply List.mem_of_getElem? (i := 0)
    rw [List.getElem?_take_of_lt Nat.zero_lt_one, List.getElem?_drop]
    exact htask
  rcases hend with ⟨after, pc, htask⟩ | htask | hclear
  · cases hlast _ htask
  · cases hlast _ htask
  · exact hclear

/-- A completed call that makes no entry. -/
theorem Completes.keeps_lacks {call : Call} {parts : List Task}
    (hcompletes : w.Completes call w' parts)
    (hstart : (call.start w.pool.cache).1.Lacks id) :
    w'.pool.cache.Lacks id := by
  obtain ⟨⟨events, hruns⟩, -, -⟩ := hcompletes
  exact hruns.preserves (I := fun w => w.pool.cache.Lacks id)
    (fun hstep hcall h => lacks_step hstep hcall h) hstart

end World

namespace Filesystem

variable {fs fs' : Filesystem} {fd : Nat}

theorem IpcOp.calls_shutdown (c : Cache) (op : IpcOp) {call : Call}
    (hcall : call ∈ op.calls c) (c' : Cache) :
    ∃ after, (call.start c').2 = [.shutdown after .start] := by
  cases op with
  | invalidateCache =>
      rw [List.mem_singleton.mp hcall]
      exact ⟨_, rfl⟩
  | setPageSize kib =>
      rcases List.mem_cons.mp hcall with rfl | hlast
      · exact ⟨_, rfl⟩
      · rw [List.mem_singleton.mp hlast]
        exact ⟨_, rfl⟩
  | setCacheSize mib =>
      rw [List.mem_singleton.mp hcall]
      exact ⟨_, rfl⟩

theorem IpcOp.calls_ne_nil (c : Cache) (op : IpcOp) : op.calls c ≠ [] := by
  cases op <;> exact List.cons_ne_nil _ _

theorem CompletesAll.lacks {w w' : World} {calls : List Call}
    (hall : CompletesAll w calls w') (hne : calls ≠ [])
    (hshutdown : ∀ call ∈ calls, ∀ c : Cache,
      ∃ after, (call.start c).2 = [.shutdown after .start]) :
    ∀ id, w'.pool.cache.Lacks id := by
  induction hall with
  | nil w => exact absurd rfl hne
  | cons hcall hrest ih =>
      obtain ⟨after, hstart⟩ := hshutdown _ List.mem_cons_self _
      cases hrest with
      | nil => exact hcall.lacks hstart
      | cons hnext hlast =>
          exact ih (List.cons_ne_nil _ _)
            fun call hmem => hshutdown call (List.mem_cons_of_mem _ hmem)

/-- After an operation the table is clear, and otherwise nothing changed. -/
theorem Reconfigures.cases {ops : List IpcOp}
    (hops : Reconfigures fs ops fs') (hcached : fs.cached = true) :
    fs'.cached = true ∧ (ops = [] ∧ fs' = fs ∨
      ∀ id, fs'.world.pool.cache.Lacks id) := by
  induction hops with
  | nil fs => exact ⟨hcached, .inl ⟨rfl, rfl⟩⟩
  | @cons fs fs₁ fs₂ op ops hop hrest ih =>
      rw [Handles, if_pos hcached] at hop
      obtain ⟨w', hall, rfl⟩ := hop
      have hclear := hall.lacks (op.calls_ne_nil _)
        fun call hmem c => op.calls_shutdown _ hmem c
      obtain ⟨hcached', hlast⟩ := ih hcached
      refine ⟨hcached', .inr ?_⟩
      rcases hlast with ⟨-, rfl⟩ | hlast
      · exact hclear
      · exact hlast

theorem Reconfigures.eq_of_uncached {ops : List IpcOp}
    (hops : Reconfigures fs ops fs') (hcached : fs.cached = false) :
    fs' = fs := by
  induction hops with
  | nil fs => rfl
  | @cons fs fs₁ fs₂ op ops hop hrest ih =>
      rw [Handles, if_neg (by rw [hcached]; exact Bool.false_ne_true)] at hop
      subst hop
      exact ih hcached

/-- Without an entry `hint_close` refuses. -/
theorem not_releases (hcached : fs.cached = true)
    (hclear : ∀ id, fs.world.pool.cache.Lacks id) : ¬ fs.Releases fd := by
  intro hreleases
  unfold Releases at hreleases
  split at hreleases
  · next node mode realFd hhandle =>
    rw [if_pos hcached] at hreleases
    obtain ⟨w', hflush, hclose⟩ := hreleases
    have hlacks : w'.pool.cache.Lacks node := by
      split_ifs at hflush
      · exact hflush.keeps_lacks (hclear node)
      · rw [hflush]
        exact hclear node
    rw [Cache.lacks_iff] at hlacks
    rw [Cache.hintClose, hlacks] at hclose
    cases hclose
  · exact hreleases

/-- The handle is served: a write on it is not refused, if it is open for
writing, and it can be released. -/
def Served (fs : Filesystem) (fd : Nat) : Prop :=
  ((fs.handles.findMode fd .write).isSome →
    ∀ input offset, fs.Accepts fd input offset) ∧ fs.Releases fd

/-- Reads on the handle return what they would have returned before, and it is
served. -/
structure Transparent (fs fs' : Filesystem) (fd : Nat) : Prop where
  reads : (fs.handles.findMode fd .read).isSome →
    ∀ len offset res, fs'.Reads fd len offset res ↔ fs.Reads fd len offset res
  served : fs'.Served fd

theorem transparent_iff_uncached {ops : List IpcOp}
    (hops : Reconfigures fs ops fs') (fd : Nat) :
    Transparent fs fs' fd ↔
      fs.Served fd ∧ (fs.cached = false ∨ ops = []) := by
  constructor
  · intro htransparent
    cases hcached : fs.cached with
    | false =>
        refine ⟨?_, .inl rfl⟩
        rw [← hops.eq_of_uncached hcached]
        exact htransparent.served
    | true =>
        obtain ⟨hcached', ⟨rfl, rfl⟩ | hclear⟩ := hops.cases hcached
        · exact ⟨htransparent.served, .inr rfl⟩
        · exact absurd htransparent.served.2 (not_releases hcached' hclear)
  · rintro ⟨hserved, hcached | rfl⟩
    · rw [hops.eq_of_uncached hcached]
      exact ⟨fun _ _ _ _ => .rfl, hserved⟩
    · cases hops
      exact ⟨fun _ _ _ _ => .rfl, hserved⟩

/-- A filesystem without a cache and a file that is open on the device. -/
def direct : Filesystem where
  cached := false
  world := {
    pool := ⟨Cache.create 1 1, [], []⟩
    device := { file := fun _ => [7], fds := fun _ => some ["f"], nextFd := 4 }
    replies := fun _ => none }
  handles := [⟨some ⟨1⟩, .readWrite, 3⟩]
  dirty := fun _ => false

theorem transparent_iff_uncached_direct :
    Reconfigures direct [.invalidateCache] direct ∧
      Transparent direct direct 0 := by
  have hops : Reconfigures direct [.invalidateCache] direct :=
    .cons rfl (.nil direct)
  have hserved : direct.Served 0 := ⟨fun _ input offset => ⟨_, rfl⟩, rfl⟩
  exact ⟨hops, (transparent_iff_uncached hops 0).mpr ⟨hserved, .inl rfl⟩⟩

end Filesystem

namespace ClearedTable

open Filesystem

/-- A file that is open for reading and writing, and nothing cached. -/
def start : Filesystem where
  cached := true
  world := {
    pool := ⟨((Cache.create 1 1).hintOpen ⟨1⟩ ["f"] .readWrite).1, [], []⟩
    device := { file := fun _ => [7], fds := fun _ => none, nextFd := 3 }
    replies := fun _ => none }
  handles := [⟨some ⟨1⟩, .readWrite, 0⟩]
  dirty := fun _ => false

/-- After `invalidate_cache` the handle is refused everything. -/
theorem not_transparent : ∃ fs : Filesystem,
    Reconfigures start [.invalidateCache] fs ∧
      fs.Reads 0 1 0 (.error Errc.badFileDescriptor) ∧
      ¬ fs.Accepts 0 [1] 0 ∧ ¬ fs.Releases 0 ∧
      ¬ Transparent start fs 0 := by
  have hhandles : ∃ w, CompletesAll start.world
      (IpcOp.calls start.world.pool.cache .invalidateCache) w ∧
      w.pool.cache.table = ∅ := by
    refine ⟨_, .cons ⟨⟨[.resume 0], .cons rfl rfl (.nil _)⟩, ?_, rfl⟩
      (.nil _), rfl⟩
    decide
  obtain ⟨w, hall, htable⟩ := hhandles
  have hlookup : w.pool.cache.lookup ⟨1⟩ = none := by
    rw [Cache.lookup, htable]
    rfl
  have hclear : ∀ id, w.pool.cache.Lacks id := by
    intro id
    rw [Cache.lacks_iff, Cache.lookup, htable]
    rfl
  have hreleases : ¬ Releases { start with world := w } 0 :=
    not_releases rfl hclear
  refine ⟨{ start with world := w }, .cons ⟨w, hall, rfl⟩ (.nil _), ?_, ?_,
    hreleases, fun htransparent => hreleases htransparent.served.2⟩
  · -- The call returns before its first suspension point.
    have hstart : (Call.read ⟨1⟩ 1 0).start w.pool.cache =
        (w.pool.cache, [.finished (.error Errc.badFileDescriptor)]) := by
      rw [Call.start, hlookup]
    refine ⟨{ w with pool := w.pool.call (.read ⟨1⟩ 1 0) },
      [.finished (.error Errc.badFileDescriptor)],
      ⟨⟨[], .nil _⟩, ?_, ?_⟩, rfl⟩
    · intro task htask
      rw [List.mem_singleton.mp htask]
      rfl
    · change _ = List.take _ (List.drop _ (w.pool.tasks ++ _))
      rw [hstart, List.drop_left]
      rfl
  · intro haccepts
    apply haccepts Errc.badFileDescriptor
    change _ ∈ ((Call.write ⟨1⟩ [1] 0).start w.pool.cache).2
    rw [Call.start, hlookup]
    exact List.mem_singleton_self _

end ClearedTable

end Madbfs
