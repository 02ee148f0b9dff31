/-
The two sizes of the cache.  No operation changes them, but that a `shutdown`
which has ended is followed by what its call sets.
-/
import Madbfs.Cache.Executor

namespace Madbfs

namespace Cache

variable {c c₁ : Cache} {id : Id} {π α : Type}

/-- The size of a page and the number of pages. -/
def sizes (c : Cache) : Nat × Nat :=
  (c.pageSize, c.maxPages)

/-- What the end of a `shutdown` makes of them. -/
def After.resize (after : After) (s : Nat × Nat) : Nat × Nat :=
  match after with
  | .nothing => s
  | .setPageSize size => (size, s.2)
  | .setMaxPages count => (s.1, count)

theorem After.sizes_run (after : After) (c : Cache) :
    (after.run c).sizes = after.resize c.sizes := by
  cases after <;> rfl

@[simp] theorem sizes_modifyEntry (c : Cache) (id : Id)
    (f : LookupEntry → LookupEntry) :
    (c.modifyEntry id f).sizes = c.sizes := by
  simp [sizes]

@[simp] theorem sizes_emplaceFront (c : Cache) (page : Page) :
    (c.emplaceFront page).sizes = c.sizes :=
  sizes_modifyEntry _ _ _

@[simp] theorem sizes_erasePage (c : Cache) (key : PageKey) :
    (c.erasePage key).sizes = c.sizes :=
  sizes_modifyEntry _ _ _

theorem sizes_andThen {β ρ : Type} {s : Nat × Nat} {x : Cache × Flow π α}
    {wrap : π → ρ} {next : Cache → α → Cache × Flow ρ β}
    (hx : x.1.sizes = s)
    (hnext : ∀ c a, c.sizes = s → (next c a).1.sizes = s) :
    (Flow.andThen x wrap next).1.sizes = s := by
  obtain ⟨c, pc | a | _⟩ := x
  · exact hx
  · exact hnext c a hx
  · exact hx

theorem sizes_flushAtLoop (c : Cache) (addr : Addr) (written : Nat) :
    (c.flushAtLoop addr written).1.sizes = c.sizes := by
  unfold flushAtLoop
  split <;> rfl

theorem sizes_flushAt (c : Cache) (addr : Addr) :
    (c.flushAt addr).1.sizes = c.sizes := by
  unfold flushAt
  split
  · rfl
  · exact sizes_flushAtLoop c addr 0

theorem sizes_flushAtResume {addr : Addr} {pc : FlushAtPc} {reply : Reply}
    {x : Cache × Flow FlushAtPc (Except Errc Unit)}
    (hresume : c.flushAtResume addr pc reply = some x) :
    x.1.sizes = c.sizes := by
  unfold flushAtResume at hresume
  split at hresume
  · split at hresume
    · cases hresume
    · split_ifs at hresume <;> cases hresume
      · exact sizes_flushAtLoop c addr 0
      · rfl
  · cases hresume
    exact sizes_flushAtLoop c addr _
  · cases hresume
    rfl
  · cases hresume

theorem sizes_flushLoop (id : Id) (indices : List Nat) (c : Cache) :
    (flushLoop id indices c).1.sizes = c.sizes := by
  induction indices generalizing c with
  | nil => exact sizes_modifyEntry c id _
  | cons index rest ih =>
      rw [flushLoop]
      split
      · rfl
      · split
        · rfl
        · split_ifs
          · split
            · rfl
            · apply sizes_andThen (sizes_flushAt c _)
              intro c₁ res hc₁
              cases res with
              | error err => exact (sizes_modifyEntry c₁ id _).trans hc₁
              | ok _ => exact (ih c₁).trans hc₁
          · exact ih c
          · rfl

theorem sizes_flushPages (c : Cache) (id : Id) :
    (c.flushPages id).1.sizes = c.sizes := by
  unfold flushPages
  split
  · rfl
  · rw [sizes_flushLoop, sizes_modifyEntry]

theorem sizes_flushStart (c : Cache) (id : Id) :
    (c.flushStart id).1.sizes = c.sizes := by
  unfold flushStart
  split
  · rfl
  · split_ifs
    · split
      · rfl
      · exact sizes_flushPages c id
    · rfl

theorem sizes_flushResume {pc : FlushPc} {reply : Reply}
    {x : Cache × Flow FlushPc (Except Errc Unit)}
    (hresume : c.flushResume id pc reply = some x) :
    x.1.sizes = c.sizes := by
  unfold flushResume at hresume
  split at hresume
  · cases hresume
    exact sizes_flushStart c id
  · cases hresume
    rw [sizes_flushPages, sizes_modifyEntry]
  · cases hresume
    rfl
  · split_ifs at hresume
    · obtain ⟨y, hy, rfl⟩ := Option.map_eq_some_iff.mp hresume
      apply sizes_andThen (sizes_flushAtResume hy)
      intro c₁ res hc₁
      cases res with
      | error err => exact (sizes_modifyEntry c₁ id _).trans hc₁
      | ok _ =>
          dsimp only
          split
          · exact hc₁
          · exact (sizes_flushLoop id _ c₁).trans hc₁
    · cases hresume
      rfl
  · cases hresume

theorem sizes_dropFds (c : Cache) : c.dropFds.sizes = c.sizes := by
  unfold dropFds
  generalize c.table.keys = ids
  induction ids generalizing c with
  | nil => rfl
  | cons id rest ih => exact (ih _).trans (sizes_modifyEntry c id _)

/-- What a part of `shutdown` does to the sizes: they stay while it waits, and
when it ends they are set. -/
def Resized (after : After) (s : Nat × Nat)
    (x : Cache × Flow ShutdownPc Unit) : Prop :=
  match x.2 with
  | .done _ => x.1.sizes = after.resize s
  | _ => x.1.sizes = s

theorem shutdownClose_resized (c : Cache) (after : After) (fds : List Fd) :
    Resized after c.sizes (c.shutdownClose after fds) := by
  cases fds with
  | nil => exact after.sizes_run _
  | cons fd rest => exact rfl

theorem shutdownLoop_resized {s : Nat × Nat} (after : After) (ids : List Id)
    (hs : c.sizes = s) : Resized after s (shutdownLoop after ids c) := by
  induction ids generalizing c with
  | nil =>
      rw [shutdownLoop, ← hs, ← sizes_dropFds]
      exact shutdownClose_resized _ after _
  | cons id rest ih =>
      have hflush := (sizes_flushStart c id).trans hs
      rw [shutdownLoop]
      generalize c.flushStart id = x at hflush
      obtain ⟨c₁, pc | res | _⟩ := x
      · exact hflush
      · exact ih hflush
      · exact hflush

theorem shutdownResume_resized {after : After} {pc : ShutdownPc}
    {reply : Reply} {x : Cache × Flow ShutdownPc Unit}
    (hresume : c.shutdownResume after pc reply = some x) :
    Resized after c.sizes x := by
  unfold shutdownResume at hresume
  split at hresume
  · cases hresume
    exact shutdownLoop_resized after _ rfl
  · obtain ⟨y, hy, rfl⟩ := Option.map_eq_some_iff.mp hresume
    have hflush := sizes_flushResume hy
    obtain ⟨c₁, pc₁ | res | _⟩ := y
    · exact hflush
    · exact shutdownLoop_resized after _ hflush
    · exact hflush
  · cases hresume
    exact shutdownClose_resized c after _
  · cases hresume

theorem sizes_evictFlush {x : Cache × Flow FlushAtPc (Except Errc Unit)}
    {next : Cache → Cache × Flow EvictPc Unit} (addr : Addr) (fd : Fd)
    (rest : Nat) (hx : x.1.sizes = c.sizes)
    (hnext : ∀ c', c'.sizes = c.sizes → (next c').1.sizes = c.sizes) :
    (evictFlush x addr fd rest next).1.sizes = c.sizes := by
  apply sizes_andThen hx
  intro c₁ _ hc₁
  apply hnext
  rw [evictDone, sizes_erasePage, sizes_modifyEntry, hc₁]

theorem sizes_evict (size : Nat) (c : Cache) :
    (evict size c).1.sizes = c.sizes := by
  induction size generalizing c with
  | zero => rfl
  | succ size ih =>
      rw [evict]
      split
      · rfl
      · next addr hlast =>
          dsimp only
          split
          · exact ih _
          · split_ifs
            · split
              · exact sizes_modifyEntry _ _ _
              · apply sizes_evictFlush
                · exact (sizes_flushAt _ addr).trans (sizes_modifyEntry _ _ _)
                · exact fun c' hc' => (ih c').trans hc'
            · exact (ih _).trans (sizes_erasePage _ _)

theorem sizes_evictResume {pc : EvictPc} {reply : Reply}
    {x : Cache × Flow EvictPc Unit}
    (hresume : c.evictResume pc reply = some x) : x.1.sizes = c.sizes := by
  have hevict : ∀ rest c', c'.sizes = c.sizes →
      (evict rest c').1.sizes = c.sizes :=
    fun rest c' hc' => (sizes_evict rest c').trans hc'
  unfold evictResume at hresume
  split at hresume
  · cases hresume
    apply sizes_evictFlush _ _ _ _ (hevict _)
    exact (sizes_flushAt _ _).trans (sizes_modifyEntry _ _ _)
  · cases hresume
    exact hevict _ _ (sizes_modifyEntry _ _ _)
  · obtain ⟨y, hy, rfl⟩ := Option.map_eq_some_iff.mp hresume
    exact sizes_evictFlush _ _ _ (sizes_flushAtResume hy) (hevict _)
  · cases hresume

theorem sizes_evictExcess (c : Cache) : c.evictExcess.1.sizes = c.sizes := by
  unfold evictExcess
  split_ifs
  · exact sizes_evict _ c
  · rfl

theorem sizes_readAtFinish {π : Type} (c : Cache) (r : Range) (addr : Addr) :
    (c.readAtFinish (π := π) r addr).1.sizes = c.sizes := by
  unfold readAtFinish
  split_ifs
  · exact sizes_modifyEntry _ _ _
  · rfl

theorem sizes_readAtLookup (c : Cache) (r : Range) :
    (c.readAtLookup r).1.sizes = c.sizes := by
  unfold readAtLookup
  split
  · rfl
  · split
    · exact sizes_readAtFinish c r _
    · split <;> rfl

theorem sizes_readAtInsert (c : Cache) (r : Range) (fut : Fut)
    (bytes : List Byte) : (c.readAtInsert r fut bytes).1.sizes = c.sizes := by
  unfold readAtInsert
  dsimp only
  split
  · exact sizes_emplaceFront c _
  · apply sizes_andThen
    · exact (sizes_evictExcess _).trans (sizes_emplaceFront c _)
    · exact fun c' _ hc' => (sizes_readAtFinish c' r _).trans hc'

theorem sizes_readAtResume {r : Range} {pc : ReadAtPc} {reply : Reply}
    {x : Cache × Flow ReadAtPc (Except Errc (List Byte))}
    (hresume : c.readAtResume r pc reply = some x) :
    x.1.sizes = c.sizes := by
  unfold readAtResume at hresume
  split at hresume
  · dsimp only at hresume
    split at hresume <;> cases hresume
    · exact sizes_modifyEntry _ _ _
    · exact (sizes_readAtLookup _ r).trans (sizes_modifyEntry _ _ _)
  · split at hresume
    · cases hresume
    · split_ifs at hresume <;> cases hresume
      · exact sizes_readAtLookup c r
      · exact sizes_modifyEntry _ _ _
  · cases hresume
    exact sizes_modifyEntry c r.id _
  · cases hresume
    exact sizes_modifyEntry _ _ _
  · split at hresume <;> cases hresume
    · exact sizes_modifyEntry _ _ _
    · exact sizes_readAtInsert c r _ _
  · cases hresume
    exact sizes_modifyEntry _ _ _
  · obtain ⟨y, hy, rfl⟩ := Option.map_eq_some_iff.mp hresume
    apply sizes_andThen (sizes_evictResume hy)
    exact fun c' _ hc' => (sizes_readAtFinish c' r _).trans hc'
  · cases hresume

theorem sizes_writeAtFinish {π : Type} (c : Cache) (r : Range)
    (input : List Byte) (addr : Addr) :
    (c.writeAtFinish (π := π) r input addr).1.sizes = c.sizes := by
  unfold writeAtFinish
  split_ifs <;> rfl

theorem sizes_writeAtLookup (c : Cache) (r : Range) (input : List Byte) :
    (c.writeAtLookup r input).1.sizes = c.sizes := by
  unfold writeAtLookup
  split
  · rfl
  · split
    · exact sizes_writeAtFinish c r input _
    · apply sizes_andThen
      · exact (sizes_evictExcess _).trans (sizes_emplaceFront c _)
      · exact fun c' _ hc' => (sizes_writeAtFinish c' r input _).trans hc'

theorem sizes_writeAtResume {r : Range} {input : List Byte} {pc : WriteAtPc}
    {reply : Reply} {x : Cache × Flow WriteAtPc (Except Errc Nat)}
    (hresume : c.writeAtResume r input pc reply = some x) :
    x.1.sizes = c.sizes := by
  unfold writeAtResume at hresume
  split at hresume
  · split at hresume <;> cases hresume
    · rfl
    · exact sizes_writeAtLookup c r input
  · split at hresume
    · cases hresume
    · split_ifs at hresume <;> cases hresume
      · exact sizes_writeAtLookup c r input
      · rfl
  · obtain ⟨y, hy, rfl⟩ := Option.map_eq_some_iff.mp hresume
    apply sizes_andThen (sizes_evictResume hy)
    exact fun c' _ hc' => (sizes_writeAtFinish c' r input _).trans hc'
  · cases hresume

theorem sizes_truncatePage (c : Cache) (key : PageKey) (addr : Addr)
    (oldSize newSize : Nat) :
    (c.truncatePage key addr oldSize newSize).1.sizes = c.sizes := by
  unfold truncatePage
  dsimp only
  split_ifs
  · rfl
  · exact sizes_erasePage _ key
  · rfl
  · exact sizes_emplaceFront c _
  all_goals rfl

theorem sizes_truncateLoop (id : Id) (oldSize newSize : Nat)
    (indices : List Nat) (c : Cache) :
    (truncateLoop id oldSize newSize indices c).1.sizes = c.sizes := by
  induction indices generalizing c with
  | nil => rfl
  | cons index rest ih =>
      rw [truncateLoop]
      split
      · rfl
      · apply sizes_andThen (sizes_truncatePage c _ _ oldSize newSize)
        exact fun c' _ hc' => (ih c').trans hc'

theorem sizes_truncatePages (c : Cache) (id : Id) (oldSize newSize : Nat)
    (first : Option (Nat × Addr)) :
    (c.truncatePages id oldSize newSize first).1.sizes = c.sizes := by
  unfold truncatePages
  split
  · rfl
  · split_ifs
    · split
      · rfl
      · exact sizes_truncateLoop id oldSize newSize _ c
    · rfl

theorem sizes_truncateResume {oldSize newSize : Nat} {pc : TruncatePc}
    {reply : Reply} {x : Cache × Flow TruncatePc Unit}
    (hresume : c.truncateResume id oldSize newSize pc reply = some x) :
    x.1.sizes = c.sizes := by
  have hpages : ∀ first (c' : Cache), c'.sizes = c.sizes →
      (c'.truncatePages id oldSize newSize first).1.sizes = c.sizes :=
    fun first c' hc' =>
      (sizes_truncatePages c' id oldSize newSize first).trans hc'
  unfold truncateResume at hresume
  split at hresume
  · cases hresume
    unfold truncateStart
    split
    · rfl
    · exact sizes_andThen (sizes_evict _ c) fun c' _ hc' => hpages _ c' hc'
  · obtain ⟨y, hy, rfl⟩ := Option.map_eq_some_iff.mp hresume
    exact sizes_andThen (sizes_evictResume hy) fun c' _ hc' => hpages _ c' hc'
  · cases hresume

theorem sizes_extract (c : Cache) (id : Id) :
    (c.extract id).1.sizes = c.sizes := by
  unfold extract
  split
  · rfl
  · dsimp only
    split_ifs <;> rfl

theorem sizes_invalidateOneResume {shouldFlush : Bool} {pc : FlushPc}
    {reply : Reply} {x : Cache × Flow FlushPc Unit}
    (hresume : c.invalidateOneResume id shouldFlush pc reply = some x) :
    x.1.sizes = c.sizes := by
  unfold invalidateOneResume at hresume
  split_ifs at hresume
  · obtain ⟨y, hy, rfl⟩ := Option.map_eq_some_iff.mp hresume
    apply sizes_andThen (sizes_flushResume hy)
    exact fun c' _ hc' => (sizes_extract c' id).trans hc'
  · split at hresume <;> cases hresume
    exact sizes_extract c id

theorem sizes_takeStale (c : Cache) (mark : Id × FdKind) :
    (c.takeStale mark).1.sizes = c.sizes := by
  obtain ⟨id, kind⟩ := mark
  unfold takeStale
  dsimp only
  split
  · rfl
  · split
    all_goals
      split_ifs
      · exact sizes_modifyEntry _ _ _
      · rfl

theorem sizes_takeStales (marks : List (Id × FdKind)) (c : Cache) :
    (takeStales marks c).1.sizes = c.sizes := by
  induction marks generalizing c with
  | nil => rfl
  | cons mark rest ih => exact (ih _).trans (sizes_takeStale c mark)

theorem sizes_dropFree (c : Cache) : c.dropFree.sizes = c.sizes := by
  unfold dropFree
  generalize c.table.keys.filter _ = ids
  induction ids generalizing c with
  | nil => rfl
  | cons id rest ih => exact ih _

theorem sizes_cleanClose (c : Cache) (fds : List Fd) :
    (c.cleanClose fds).1.sizes = c.sizes := by
  cases fds with
  | nil => exact sizes_dropFree c
  | cons fd rest => rfl

theorem sizes_cleanStaleFdsResume {pc : ClosePc} {reply : Reply}
    {x : Cache × Flow ClosePc Unit}
    (hresume : c.cleanStaleFdsResume pc reply = some x) :
    x.1.sizes = c.sizes := by
  unfold cleanStaleFdsResume at hresume
  split at hresume
  · cases hresume
    exact (sizes_cleanClose _ _).trans (sizes_takeStales _ c)
  · cases hresume
    exact sizes_cleanClose c _
  · cases hresume

theorem sizes_newLookup (c : Cache) (id : Id) (path : Path) :
    (c.newLookup id path).sizes = c.sizes := by
  unfold newLookup
  split <;> rfl

theorem sizes_hintOpen (c : Cache) (id : Id) (path : Path) (mode : OpenMode) :
    (c.hintOpen id path mode).1.sizes = c.sizes := by
  have hnew := sizes_newLookup c id path
  unfold hintOpen
  dsimp only
  split
  · exact hnew
  · split_ifs
    · exact hnew
    all_goals exact (sizes_modifyEntry _ _ _).trans hnew

theorem sizes_hintClose (c : Cache) (id : Id) (mode : OpenMode) :
    (c.hintClose id mode).1.sizes = c.sizes := by
  unfold hintClose
  split
  · rfl
  · dsimp only
    split_ifs
    · rfl
    all_goals exact sizes_modifyEntry _ _ _

end Cache

namespace Task

open Cache

/-- What the end of a task sets. -/
def after : Task → After
  | .shutdown after _ => after
  | _ => .nothing

variable {c c' : Cache} {task task' : Task} {reply : Reply}

theorem sizes_ofFlow {π α : Type} {await : π → Task} {done : α → Task}
    {x : Cache × Flow π α} (hflow : ofFlow await done x = (c', task'))
    (hawait : ∀ pc, (await pc).after = .nothing)
    (hdone : ∀ value, (done value).after = .nothing)
    (hx : x.1.sizes = c.sizes) :
    c'.sizes = c.sizes ∧ task'.after = .nothing := by
  obtain ⟨c₁, pc | value | _⟩ := x
  · cases hflow
    exact ⟨hx, hawait pc⟩
  · cases hflow
    exact ⟨hx, hdone value⟩
  · cases hflow
    exact ⟨hx, rfl⟩

/-- A task keeps the sizes until it ends, if it does not crash. -/
theorem resume_sizes (hresume : task.resume c reply = some (c', task')) :
    c'.sizes = c.sizes ∧ (task'.after = task.after ∨ task' = .crashed) ∨
      c'.sizes = task.after.resize c.sizes ∧ task'.after = .nothing := by
  cases task with
  | shutdown after pc =>
      obtain ⟨x, hx, hflow⟩ := Option.map_eq_some_iff.mp hresume
      have hresized := Cache.shutdownResume_resized hx
      obtain ⟨c₁, pc' | value | _⟩ := x
      · cases hflow
        exact .inl ⟨hresized, .inl rfl⟩
      · cases hflow
        exact .inr ⟨hresized, rfl⟩
      · cases hflow
        exact .inl ⟨hresized, .inr rfl⟩
  | readAt r pc =>
      obtain ⟨x, hx, hflow⟩ := Option.map_eq_some_iff.mp hresume
      exact .inr (sizes_ofFlow hflow (fun _ => rfl) (fun _ => rfl)
        (sizes_readAtResume hx))
  | writeAt r input pc =>
      obtain ⟨x, hx, hflow⟩ := Option.map_eq_some_iff.mp hresume
      exact .inr (sizes_ofFlow hflow (fun _ => rfl) (fun _ => rfl)
        (sizes_writeAtResume hx))
  | flush id pc =>
      obtain ⟨x, hx, hflow⟩ := Option.map_eq_some_iff.mp hresume
      exact .inr (sizes_ofFlow hflow (fun _ => rfl) (fun _ => rfl)
        (sizes_flushResume hx))
  | truncate id oldSize newSize pc =>
      obtain ⟨x, hx, hflow⟩ := Option.map_eq_some_iff.mp hresume
      exact .inr (sizes_ofFlow hflow (fun _ => rfl) (fun _ => rfl)
        (sizes_truncateResume hx))
  | invalidateOne id shouldFlush pc =>
      obtain ⟨x, hx, hflow⟩ := Option.map_eq_some_iff.mp hresume
      exact .inr (sizes_ofFlow hflow (fun _ => rfl) (fun _ => rfl)
        (sizes_invalidateOneResume hx))
  | cleanStaleFds pc =>
      obtain ⟨x, hx, hflow⟩ := Option.map_eq_some_iff.mp hresume
      exact .inr (sizes_ofFlow hflow (fun _ => rfl) (fun _ => rfl)
        (sizes_cleanStaleFdsResume hx))
  | _ => cases hresume

theorem resume_sizes_of_nothing
    (hresume : task.resume c reply = some (c', task'))
    (hafter : task.after = .nothing) :
    c'.sizes = c.sizes ∧ task'.after = .nothing := by
  rcases resume_sizes hresume with ⟨hsizes, heq | rfl⟩ | ⟨hsizes, hdone⟩
  · exact ⟨hsizes, heq.trans hafter⟩
  · exact ⟨hsizes, rfl⟩
  · rw [hafter] at hsizes
    exact ⟨hsizes, hdone⟩

end Task

namespace Call

open Cache

/-- What a call sets when it has ended. -/
def after : Call → After
  | .setPageSize size => .setPageSize size
  | .setMaxPages count => .setMaxPages count
  | _ => .nothing

theorem sizes_start (call : Call) (c : Cache) :
    (call.start c).1.sizes = c.sizes := by
  cases call with
  | hintOpen id path mode => exact sizes_hintOpen c id path mode
  | hintClose id mode => exact sizes_hintClose c id mode
  | read id len offset =>
      unfold start
      dsimp only
      split <;> rfl
  | write id input offset =>
      unfold start
      dsimp only
      split
      · rfl
      · exact sizes_modifyEntry c id _
  | rename id path => exact sizes_modifyEntry c id _
  | _ => rfl

/-- The tasks of a call set what the call sets. -/
theorem after_start (call : Call) (c : Cache) :
    ∀ task ∈ (call.start c).2, task.after = call.after := by
  intro task htask
  cases call with
  | read id len offset =>
      unfold start at htask
      dsimp only at htask
      split at htask
      · rw [List.mem_singleton.mp htask]
        rfl
      · obtain ⟨r, -, rfl⟩ := List.mem_map.mp htask
        rfl
  | write id input offset =>
      unfold start at htask
      dsimp only at htask
      split at htask
      · rw [List.mem_singleton.mp htask]
        rfl
      · obtain ⟨r, -, rfl⟩ := List.mem_map.mp htask
        rfl
  | _ =>
      rw [List.mem_singleton.mp htask]
      rfl

end Call

end Madbfs
