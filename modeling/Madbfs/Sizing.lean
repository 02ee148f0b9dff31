/-
The sizes of the cache, from the command line to the requests that change them.
The server handles one request after the other, while the filesystem uses the
cache.  The sizes are powers of two at any time: the page size stays between
its two limits, and a new page size leaves the memory budget as it is, or
raises it to the fewest pages there may be.
-/
import Madbfs.Cache.Sizes
import Madbfs.Filesystem
import Mathlib.Algebra.Order.GroupWithZero.Basic

namespace Madbfs

/-- `ParsedOpt::Caching`, in MiB and KiB. -/
structure Caching where
  cachesize : Nat
  pagesize : Nat
deriving Repr, DecidableEq

/-- The sizes `args::parse` makes of the options `--cache-size` and
`--page-size`. -/
def parseCaching (cacheSize pageSize : Int32) : Option Caching :=
  if cacheSize.toInt ≤ 0 then none
  else if pageSize.toInt ≤ 0 then none
  else some {
    cachesize := max (Cache.bitCeil cacheSize.toInt.toNat) 128
    pagesize := min 4096 (max 64 (Cache.bitCeil pageSize.toInt.toNat)) }

namespace Caching

/-- What `operations::init` makes of them. -/
def pageSize (caching : Caching) : Nat :=
  caching.pagesize * 1024

def maxPages (caching : Caching) : Nat :=
  caching.cachesize * 1024 * 1024 / caching.pageSize

end Caching

namespace Filesystem

/-- What the handlers of the two sizes multiply or round up on the way, for
their replies as well. -/
def IpcOp.values (c : Cache) : IpcOp → List Nat
  | .invalidateCache => []
  | .setPageSize kib =>
      let newSize := min highestPageSize
        (max lowestPageSize (Cache.bitCeil (kib.toNat * 1024)))
      let newMax := max lowestMaxPages
        (Cache.bitCeil (c.maxPages * c.pageSize / newSize))
      [kib.toNat * 1024, Cache.bitCeil (kib.toNat * 1024),
        c.maxPages * c.pageSize,
        Cache.bitCeil (c.maxPages * c.pageSize / newSize), newMax * newSize]
  | .setCacheSize mib =>
      let newMax := max lowestMaxPages (Cache.bitCeil
        (mib.toNat * 1024 * 1024 / max c.pageSize 1))
      [mib.toNat * 1024, mib.toNat * 1024 * 1024,
        Cache.bitCeil (mib.toNat * 1024 * 1024 / max c.pageSize 1),
        c.maxPages * c.pageSize, newMax * c.pageSize]

end Filesystem

namespace Cache

/-- `page_size * max_pages`. -/
def budget (c : Cache) : Nat :=
  c.pageSize * c.maxPages

/-- The sizes as powers of two. -/
structure Sized (c : Cache) (page pages : Nat) : Prop where
  pageSize : c.pageSize = 2 ^ page
  maxPages : c.maxPages = 2 ^ pages
  le_page : 16 ≤ page
  page_le : page ≤ 22
  pages_le : pages ≤ 36

theorem Sized.congr {c c' : Cache} {page pages : Nat}
    (h : Sized c page pages) (hsizes : c'.sizes = c.sizes) :
    Sized c' page pages := by
  obtain ⟨hpage, hpages⟩ := Prod.mk.inj hsizes
  exact ⟨hpage.trans h.pageSize, hpages.trans h.maxPages, h.le_page, h.page_le,
    h.pages_le⟩

theorem bitCeil_pow (k : Nat) : bitCeil (2 ^ k) = 2 ^ k := by
  rw [bitCeil, Nat.clog_pow 2 k Nat.one_lt_two]

theorem max_pow (a b : Nat) : max (2 ^ a) (2 ^ b) = 2 ^ max a b :=
  (pow_right_mono₀ (show 1 ≤ 2 by decide)).map_max.symm

theorem min_pow (a b : Nat) : min (2 ^ a) (2 ^ b) = 2 ^ min a b :=
  (pow_right_mono₀ (show 1 ≤ 2 by decide)).map_min.symm

/-- Rounding up a quotient of powers of two, also when it is zero. -/
theorem bitCeil_pow_div (a b : Nat) :
    bitCeil (2 ^ a / 2 ^ b) = 2 ^ (a - b) := by
  by_cases hle : b ≤ a
  · rw [Nat.pow_div hle Nat.two_pos, bitCeil_pow]
  · have hlt : 2 ^ a < 2 ^ b := Nat.pow_lt_pow_right Nat.one_lt_two (by omega)
    rw [Nat.div_eq_of_lt hlt, show a - b = 0 by omega]
    rfl

/-- The settings that keep the sizes in their limits. -/
def After.InLimits : After → Prop
  | .nothing => True
  | .setPageSize size => ∃ page, 16 ≤ page ∧ page ≤ 22 ∧ size = 2 ^ page
  | .setMaxPages count => ∃ pages, pages ≤ 36 ∧ count = 2 ^ pages

theorem Sized.run {c : Cache} {page pages : Nat} (h : Sized c page pages)
    {after : After} (hafter : after.InLimits) :
    ∃ page pages, Sized (after.run c) page pages := by
  cases after with
  | nothing => exact ⟨page, pages, h⟩
  | setPageSize size =>
      obtain ⟨page', hle, hle', hsize⟩ := hafter
      exact ⟨page', pages, hsize, h.maxPages, hle, hle', h.pages_le⟩
  | setMaxPages count =>
      obtain ⟨pages', hle, hcount⟩ := hafter
      exact ⟨page, pages', h.pageSize, hcount, h.le_page, h.page_le, hle⟩

end Cache

/-- A call that is a `shutdown` and what it sets. -/
def Call.Shuts (call : Call) : Prop :=
  ∀ c, call.start c = (c, [.shutdown call.after .start])

/-- What calls make of the sizes, one after the other. -/
def resizes (calls : List Call) (s : Nat × Nat) : Nat × Nat :=
  calls.foldl (fun s call => call.after.resize s) s

namespace Filesystem

open Cache

variable {c : Cache} {page pages : Nat}

/-- The new page size of `SetPageSize`, within its limits. -/
theorem newSize_eq (kib : UInt32) : ∃ k, 16 ≤ k ∧ k ≤ 22 ∧
    min highestPageSize (max lowestPageSize (bitCeil (kib.toNat * 1024))) =
      2 ^ k := by
  have hlow : lowestPageSize = 2 ^ 16 := rfl
  have hhigh : highestPageSize = 2 ^ 22 := rfl
  refine ⟨min 22 (max 16 (Nat.clog 2 (kib.toNat * 1024))), by omega, by omega,
    ?_⟩
  rw [hlow, hhigh, bitCeil, max_pow, min_pow]

/-- The new number of pages of `SetPageSize`. -/
theorem newMax_eq (h : Sized c page pages) (k : Nat) :
    max lowestMaxPages (bitCeil (c.maxPages * c.pageSize / 2 ^ k)) =
      2 ^ max 7 (pages + page - k) := by
  have hlow : lowestMaxPages = 2 ^ 7 := rfl
  rw [h.pageSize, h.maxPages, ← Nat.pow_add, bitCeil_pow_div, hlow, max_pow]

/-- The new number of pages of `SetCacheSize`. -/
theorem newMax_of_mib (h : Sized c page pages) (mib : UInt32) :
    ∃ count, page + count ≤ 52 ∧
      bitCeil (mib.toNat * 1024 * 1024 / max c.pageSize 1) ≤ 2 ^ 36 ∧
      max lowestMaxPages
        (bitCeil (mib.toNat * 1024 * 1024 / max c.pageSize 1)) = 2 ^ count := by
  have hlow : lowestMaxPages = 2 ^ 7 := rfl
  have hpage := h.page_le
  have hpage' := h.le_page
  have hone : max c.pageSize 1 = 2 ^ page := by
    rw [h.pageSize]
    exact Nat.max_eq_left Nat.one_le_two_pow
  have hmib : mib.toNat < 2 ^ 32 := mib.toNat_lt
  have hquot : mib.toNat * 1024 * 1024 / 2 ^ page ≤ 2 ^ (52 - page) := by
    rw [← Nat.pow_div (by omega) Nat.two_pos]
    apply Nat.div_le_div_right
    omega
  have hclog := Nat.clog_le_of_le_pow hquot
  refine ⟨max 7 (Nat.clog 2 (mib.toNat * 1024 * 1024 / 2 ^ page)), by omega, ?_,
    ?_⟩
  · rw [hone, bitCeil]
    exact Nat.pow_le_pow_right Nat.two_pos (by omega)
  · rw [hone, hlow, bitCeil, max_pow]

/-- Nothing the handlers compute leaves 64 bits. -/
theorem values_lt (h : Sized c page pages) (op : IpcOp) :
    ∀ v ∈ op.values c, v < 2 ^ 64 := by
  have hpow : ∀ {k : Nat}, k < 64 → 2 ^ k < 2 ^ 64 :=
    fun hk => Nat.pow_lt_pow_right Nat.one_lt_two hk
  have hpage := h.page_le
  have hpages := h.pages_le
  have hbudget : c.maxPages * c.pageSize = 2 ^ (pages + page) := by
    rw [h.pageSize, h.maxPages, Nat.pow_add]
  intro v hv
  cases op with
  | invalidateCache => cases hv
  | setPageSize kib =>
      obtain ⟨k, hlow, hhigh, hk⟩ := newSize_eq kib
      have hkib : kib.toNat < 2 ^ 32 := kib.toNat_lt
      have hceil : Nat.clog 2 (kib.toNat * 1024) ≤ 42 :=
        Nat.clog_le_of_le_pow (by omega)
      have hmax := newMax_eq h k
      simp only [IpcOp.values, hk, hmax, List.mem_cons, List.not_mem_nil,
        or_false] at hv
      rcases hv with rfl | rfl | rfl | rfl | rfl
      · omega
      · rw [bitCeil]
        exact hpow (by omega)
      · rw [hbudget]
        exact hpow (by omega)
      · rw [hbudget, bitCeil_pow_div]
        exact hpow (by omega)
      · rw [← Nat.pow_add]
        exact hpow (by omega)
  | setCacheSize mib =>
      obtain ⟨count, hcount, hceil, hmax⟩ := newMax_of_mib h mib
      have hmib : mib.toNat < 2 ^ 32 := mib.toNat_lt
      simp only [IpcOp.values, hmax, List.mem_cons, List.not_mem_nil,
        or_false] at hv
      rcases hv with rfl | rfl | rfl | rfl | rfl
      · omega
      · omega
      · exact Nat.lt_of_le_of_lt hceil (hpow (by omega))
      · rw [hbudget]
        exact hpow (by omega)
      · rw [h.pageSize, ← Nat.pow_add]
        exact hpow (by omega)

/-- The calls of an operation shut the cache down and set sizes within the
limits. -/
theorem calls_inLimits (h : Sized c page pages) (hsum : page + pages ≤ 52)
    (op : IpcOp) : ∀ call ∈ op.calls c, call.after.InLimits ∧ call.Shuts := by
  have hlow := h.le_page
  intro call hcall
  cases op with
  | invalidateCache =>
      rw [List.mem_singleton.mp hcall]
      exact ⟨trivial, fun _ => rfl⟩
  | setPageSize kib =>
      obtain ⟨k, hk, hk', hsize⟩ := newSize_eq kib
      rw [IpcOp.calls, hsize, newMax_eq h] at hcall
      rcases List.mem_cons.mp hcall with rfl | hlast
      · exact ⟨⟨k, hk, hk', rfl⟩, fun _ => rfl⟩
      · rw [List.mem_singleton.mp hlast]
        exact ⟨⟨_, by omega, rfl⟩, fun _ => rfl⟩
  | setCacheSize mib =>
      obtain ⟨count, hcount, -, hmax⟩ := newMax_of_mib h mib
      rw [IpcOp.calls, hmax] at hcall
      rw [List.mem_singleton.mp hcall]
      exact ⟨⟨count, by omega, rfl⟩, fun _ => rfl⟩

/-- What an operation makes of the sizes: a new page size keeps the budget, or
raises it to the fewest pages. -/
theorem resizes_calls (h : Sized c page pages) (hsum : page + pages ≤ 52)
    (op : IpcOp) : ∃ page' pages',
      resizes (op.calls c) c.sizes = (2 ^ page', 2 ^ pages') ∧
      page' + pages' ≤ 52 ∧
      ∀ kib, op = .setPageSize kib →
        page' + pages' = max (page' + 7) (page + pages) := by
  have hpage := h.page_le
  have hsizes : c.sizes = (2 ^ page, 2 ^ pages) :=
    Prod.ext h.pageSize h.maxPages
  cases op with
  | invalidateCache =>
      exact ⟨page, pages, hsizes, hsum, fun kib hkib => by cases hkib⟩
  | setPageSize kib =>
      obtain ⟨k, hk, hk', hsize⟩ := newSize_eq kib
      rw [IpcOp.calls, hsize, newMax_eq h]
      exact ⟨k, max 7 (pages + page - k), rfl, by omega, fun _ _ => by omega⟩
  | setCacheSize mib =>
      obtain ⟨count, hcount, -, hmax⟩ := newMax_of_mib h mib
      rw [IpcOp.calls, hmax, hsizes]
      exact ⟨page, count, rfl, hcount, fun kib hkib => by cases hkib⟩

end Filesystem

open Cache Filesystem

/-- `ipc::Server::run` and the cache that its handlers share with the
filesystem.  It handles one operation after the other; `awaits` holds the task
that the handler waits for and the calls it makes after that. -/
structure Server where
  pool : Pool
  awaits : Option (Nat × List Call)

namespace Server

/-- What happens: a call that is not made by a handler, a task that goes on,
an operation that arrives, and a handler that goes on. -/
inductive Event where
  | call (call : Call)
  | resume (i : Nat) (reply : Reply)
  | handle (op : IpcOp)
  | goOn

def Event.isHandle : Event → Bool
  | .handle _ => true
  | _ => false

/-- What `operations::init` starts with. -/
def init (caching : Caching) : Server :=
  ⟨⟨Cache.create caching.pageSize caching.maxPages, [], []⟩, none⟩

/-- A handler makes its calls up to where it waits for one of them. -/
def make (s : Server) : List Call → Server
  | [] => { s with awaits := none }
  | call :: rest => ⟨s.pool.call call, some (s.pool.tasks.length, rest)⟩

/-- Only the handlers call `set_page_size` and `set_max_pages`. -/
def step (s : Server) : Event → Option Server
  | .call call =>
      if call.after = .nothing then
        some { s with pool := s.pool.call call }
      else none
  | .resume i reply =>
      (s.pool.resume i reply).map fun pool => { s with pool := pool }
  | .handle op =>
      match s.awaits with
      | none => some (s.make (op.calls s.pool.cache))
      | some _ => none
  | .goOn =>
      match s.awaits with
      | none => none
      | some (i, rest) =>
          if (s.pool.tasks[i]?).any Task.isDone then some (s.make rest)
          else none

/-- The sizes are in their limits, and the handler that is going on will make
`aim` of them. -/
structure Aims (s : Server) (aim : Nat × Nat) : Prop where
  sized : ∃ page pages, Sized s.pool.cache page pages
  quiet : ∀ (i : Nat) (task : Task), s.pool.tasks[i]? = some task →
    (∀ rest, s.awaits ≠ some (i, rest)) → task.after = .nothing
  settled : s.awaits = none → s.pool.cache.sizes = aim
  limits : ∀ i rest, s.awaits = some (i, rest) →
    ∀ call ∈ rest, call.after.InLimits ∧ call.Shuts
  awaited : ∀ i rest, s.awaits = some (i, rest) →
    ∃ task, s.pool.tasks[i]? = some task ∧ task.after.InLimits ∧
      (task = .crashed ∨
        resizes rest (task.after.resize s.pool.cache.sizes) = aim)

variable {s s' : Server} {aim : Nat × Nat}

/-- A handler that goes on, or starts, when no task will set a size. -/
theorem aims_make {calls : List Call}
    (hsized : ∃ page pages, Sized s.pool.cache page pages)
    (hquiet : ∀ task ∈ s.pool.tasks, task.after = .nothing)
    (hcalls : ∀ call ∈ calls, call.after.InLimits ∧ call.Shuts)
    (haim : resizes calls s.pool.cache.sizes = aim) :
    (s.make calls).Aims aim := by
  cases calls with
  | nil =>
      exact {
        sized := hsized
        quiet := fun i task htask _ =>
          hquiet task (List.mem_of_getElem? htask)
        settled := fun _ => haim
        limits := fun _ _ h => by cases h
        awaited := fun _ _ h => by cases h }
  | cons call rest =>
      obtain ⟨⟨hlimits, hshuts⟩, hrest⟩ := List.forall_mem_cons.mp hcalls
      have hpool : s.pool.call call =
          ⟨s.pool.cache, s.pool.tasks ++ [.shutdown call.after .start],
            s.pool.stale⟩ := by
        rw [Pool.call, hshuts]
      have hlast : (s.pool.tasks ++ [Task.shutdown call.after .start])[
          s.pool.tasks.length]? = some (.shutdown call.after .start) := by
        simp
      constructor
      · simpa only [make, hpool] using hsized
      · intro i task htask hi
        simp only [make, hpool] at htask hi
        by_cases hlt : i < s.pool.tasks.length
        · rw [List.getElem?_append_left hlt] at htask
          exact hquiet task (List.mem_of_getElem? htask)
        · have hle := (List.getElem?_eq_some_iff.mp htask).1
          rw [List.length_append, List.length_singleton] at hle
          have heq : s.pool.tasks.length = i := by omega
          exact absurd (by rw [heq]) (hi rest)
      · exact fun h => by cases h
      · intro i rest' h
        cases h
        exact hrest
      · intro i rest' h
        cases h
        simp only [make, hpool]
        exact ⟨_, hlast, hlimits, .inr haim⟩

theorem Aims.call {call : Call} (h : s.Aims aim)
    (hafter : call.after = .nothing) :
    Aims { s with pool := s.pool.call call } aim := by
  have hsizes : (s.pool.call call).cache.sizes = s.pool.cache.sizes :=
    call.sizes_start s.pool.cache
  obtain ⟨page, pages, hsized⟩ := h.sized
  constructor
  · exact ⟨page, pages, hsized.congr hsizes⟩
  · intro i task htask hi
    change (s.pool.tasks ++ (call.start s.pool.cache).2)[i]? = _ at htask
    by_cases hlt : i < s.pool.tasks.length
    · rw [List.getElem?_append_left hlt] at htask
      exact h.quiet i task htask hi
    · rw [List.getElem?_append_right (Nat.le_of_not_lt hlt)] at htask
      rw [← hafter]
      exact call.after_start s.pool.cache task (List.mem_of_getElem? htask)
  · exact fun hnone => hsizes.trans (h.settled hnone)
  · exact h.limits
  · intro i rest hi
    obtain ⟨task, htask, hlimits, haim⟩ := h.awaited i rest hi
    refine ⟨task, ?_, hlimits, ?_⟩
    · have hlt := (List.getElem?_eq_some_iff.mp htask).1
      exact (List.getElem?_append_left hlt).trans htask
    · dsimp only
      rw [hsizes]
      exact haim

/-- A task that crashes sets no size. -/
theorem Aims.crash {i : Nat} (h : s.Aims aim)
    (hlt : i < s.pool.tasks.length) :
    Aims { s with pool :=
      ⟨s.pool.cache, s.pool.tasks.set i .crashed, s.pool.stale⟩ } aim := by
  constructor
  · exact h.sized
  · intro j task htask hj
    change (s.pool.tasks.set i .crashed)[j]? = some task at htask
    rcases eq_or_ne i j with rfl | hne
    · rw [List.getElem?_set_self hlt] at htask
      rw [← Option.some.inj htask]
      rfl
    · rw [List.getElem?_set_ne hne] at htask
      exact h.quiet j task htask hj
  · exact h.settled
  · exact h.limits
  · intro j rest hj
    obtain ⟨task, htask, hlimits, haim⟩ := h.awaited j rest hj
    rcases eq_or_ne i j with rfl | hne
    · exact ⟨.crashed, List.getElem?_set_self hlt, trivial, .inl rfl⟩
    · exact ⟨task, (List.getElem?_set_ne hne).trans htask, hlimits, haim⟩

theorem Aims.resume {i : Nat} {reply : Reply} {pool : Pool} (h : s.Aims aim)
    (hresume : s.pool.resume i reply = some pool) :
    Aims { s with pool := pool } aim := by
  obtain ⟨task, c', task', htask, hgo, hpool⟩ := Pool.resume_cases hresume
  have hlt : i < s.pool.tasks.length :=
    (List.getElem?_eq_some_iff.mp htask).1
  obtain ⟨-, rfl⟩ | ⟨-, -, rfl⟩ := hpool
  case inr => exact h.crash hlt
  obtain ⟨page, pages, hsized⟩ := h.sized
  by_cases hi : ∃ rest, s.awaits = some (i, rest)
  · -- the task that the handler waits for
    obtain ⟨rest, hi⟩ := hi
    obtain ⟨task₁, htask₁, hlimits, haim⟩ := h.awaited i rest hi
    obtain rfl := Option.some.inj (htask.symm.trans htask₁)
    have hcrash : task ≠ .crashed := by
      rintro rfl
      cases hgo
    have haim := haim.resolve_left hcrash
    have hstep := Task.resume_sizes hgo
    constructor
    · rcases hstep with ⟨hsizes, -⟩ | ⟨hsizes, -⟩
      · exact ⟨page, pages, hsized.congr hsizes⟩
      · obtain ⟨page', pages', hrun⟩ := hsized.run hlimits
        exact ⟨page', pages',
          hrun.congr (hsizes.trans (task.after.sizes_run _).symm)⟩
    · intro j task₂ htask₂ hj
      have hne : i ≠ j := by
        rintro rfl
        exact hj rest hi
      rw [List.getElem?_set_ne hne] at htask₂
      exact h.quiet j task₂ htask₂ hj
    · intro hnone
      rw [show s.awaits = none from hnone] at hi
      cases hi
    · exact h.limits
    · intro j rest' hj
      obtain ⟨rfl, rfl⟩ := Prod.mk.inj (Option.some.inj (hi.symm.trans hj))
      refine ⟨task', List.getElem?_set_self hlt, ?_⟩
      rcases hstep with ⟨hsizes, heq | rfl⟩ | ⟨hsizes, hdone⟩
      · rw [heq, hsizes]
        exact ⟨hlimits, .inr haim⟩
      · exact ⟨trivial, .inl rfl⟩
      · rw [hdone, hsizes]
        exact ⟨trivial, .inr haim⟩
  · -- another task
    have hafter := h.quiet i task htask fun rest hrest => hi ⟨rest, hrest⟩
    obtain ⟨hsizes, hafter'⟩ := Task.resume_sizes_of_nothing hgo hafter
    constructor
    · exact ⟨page, pages, hsized.congr hsizes⟩
    · intro j task₂ htask₂ hj
      by_cases hne : i = j
      · subst hne
        rw [List.getElem?_set_self hlt] at htask₂
        rw [← Option.some.inj htask₂]
        exact hafter'
      · rw [List.getElem?_set_ne hne] at htask₂
        exact h.quiet j task₂ htask₂ hj
    · exact fun hnone => hsizes.trans (h.settled hnone)
    · exact h.limits
    · intro j rest hj
      obtain ⟨task₁, htask₁, hlimits, haim⟩ := h.awaited j rest hj
      have hne : i ≠ j := by
        rintro rfl
        exact hi ⟨rest, hj⟩
      refine ⟨task₁, (List.getElem?_set_ne hne).trans htask₁, hlimits, ?_⟩
      dsimp only
      rw [hsizes]
      exact haim

/-- No task will set a size when the awaited one is over. -/
theorem Aims.quiet_of_isDone {i : Nat} {rest : List Call} (h : s.Aims aim)
    (hi : s.awaits = some (i, rest))
    (hdone : (s.pool.tasks[i]?).any Task.isDone) :
    (∀ task ∈ s.pool.tasks, task.after = .nothing) ∧
      resizes rest s.pool.cache.sizes = aim := by
  obtain ⟨task, htask, -, haim⟩ := h.awaited i rest hi
  rw [htask, Option.any_some] at hdone
  have hafter : task.after = .nothing := by
    cases task with
    | shutdown after pc => cases hdone
    | _ => rfl
  constructor
  · intro task₁ hmem
    obtain ⟨j, hj⟩ := List.mem_iff_getElem?.mp hmem
    by_cases heq : i = j
    · subst heq
      rw [← Option.some.inj (htask.symm.trans hj)]
      exact hafter
    · apply h.quiet j task₁ hj
      intro rest' hrest
      exact heq (congrArg Prod.fst (Option.some.inj (hi.symm.trans hrest)))
  · rw [hafter] at haim
    apply haim.resolve_left
    rintro rfl
    cases hdone

theorem Aims.step {event : Event} (h : s.Aims aim)
    (hstep : s.step event = some s') (hevent : event.isHandle = false) :
    s'.Aims aim := by
  cases event with
  | call call =>
      simp only [Server.step] at hstep
      split_ifs at hstep with hafter
      cases hstep
      exact h.call hafter
  | resume i reply =>
      obtain ⟨pool, hpool, rfl⟩ := Option.map_eq_some_iff.mp hstep
      exact h.resume hpool
  | handle op => cases hevent
  | goOn =>
      simp only [Server.step] at hstep
      split at hstep
      · cases hstep
      · next i rest hi =>
          split_ifs at hstep with hdone
          cases hstep
          obtain ⟨hquiet, haim⟩ := h.quiet_of_isDone hi hdone
          exact aims_make h.sized hquiet (h.limits i rest hi) haim

/-- An operation that arrives when the last one has been handled. -/
theorem Aims.handle {op : IpcOp} {page pages : Nat}
    (h : s.Aims (2 ^ page, 2 ^ pages)) (hsum : page + pages ≤ 52)
    (hstep : s.step (.handle op) = some s') :
    s.pool.cache.sizes = (2 ^ page, 2 ^ pages) ∧
      ∃ page' pages', s'.Aims (2 ^ page', 2 ^ pages') ∧ page' + pages' ≤ 52 ∧
        ∀ kib, op = .setPageSize kib →
          page' + pages' = max (page' + 7) (page + pages) := by
  simp only [Server.step] at hstep
  split at hstep
  · next hnone =>
      cases hstep
      have hsizes := h.settled hnone
      obtain ⟨page₁, pages₁, hsized⟩ := h.sized
      obtain ⟨hpage, hpages⟩ := Prod.mk.inj hsizes
      obtain rfl := Nat.pow_right_injective (Nat.le_refl 2)
        (hsized.pageSize.symm.trans hpage)
      obtain rfl := Nat.pow_right_injective (Nat.le_refl 2)
        (hsized.maxPages.symm.trans hpages)
      obtain ⟨page', pages', haim, hsum', hbudget⟩ :=
        resizes_calls hsized hsum op
      refine ⟨hsizes, page', pages', ?_, hsum', hbudget⟩
      refine aims_make h.sized ?_ (calls_inLimits hsized hsum op) haim
      intro task hmem
      obtain ⟨i, hi⟩ := List.mem_iff_getElem?.mp hmem
      exact h.quiet i task hi fun rest hrest => by
        rw [hnone] at hrest
        cases hrest
  · cases hstep

/-- The server starts within the limits. -/
theorem sized_init {cacheSize pageSize : Int32} {caching : Caching}
    (hparse : parseCaching cacheSize pageSize = some caching) :
    ∃ page pages, Sized (init caching).pool.cache page pages ∧
      page + pages ≤ 52 := by
  unfold parseCaching at hparse
  split_ifs at hparse with hcache hpage
  have hcaching := Option.some.inj hparse
  have hlt : cacheSize.toInt < 2 ^ 31 := cacheSize.toInt_lt
  have hclog : Nat.clog 2 cacheSize.toInt.toNat ≤ 31 :=
    Nat.clog_le_of_le_pow (by omega)
  generalize hc : max (Nat.clog 2 cacheSize.toInt.toNat) 7 = c
  generalize hq : min 12 (max 6 (Nat.clog 2 pageSize.toInt.toNat)) = q
  have hcachesize : caching.cachesize = 2 ^ c := by
    rw [← hcaching, ← hc]
    exact max_pow _ 7
  have hpagesize : caching.pagesize = 2 ^ q := by
    rw [← hcaching, ← hq, ← min_pow, ← max_pow]
    rfl
  have hbytes : caching.pageSize = 2 ^ (q + 10) := by
    rw [Caching.pageSize, hpagesize, Nat.pow_add]
  have hcount : caching.maxPages = 2 ^ (c + 20 - (q + 10)) := by
    have htotal : 2 ^ c * 1024 * 1024 = 2 ^ (c + 20) := by
      rw [Nat.mul_assoc, Nat.pow_add]
    rw [Caching.maxPages, hbytes, hcachesize, htotal,
      Nat.pow_div (by omega) Nat.two_pos]
  refine ⟨q + 10, c + 20 - (q + 10), ⟨?_, hcount, ?_, ?_, ?_⟩, ?_⟩
  · change bitCeil caching.pageSize = _
    rw [hbytes, bitCeil_pow]
  all_goals omega

theorem aims_init {cacheSize pageSize : Int32} {caching : Caching}
    (hparse : parseCaching cacheSize pageSize = some caching) :
    ∃ page pages, (init caching).Aims (2 ^ page, 2 ^ pages) ∧
      page + pages ≤ 52 := by
  obtain ⟨page, pages, hsized, hsum⟩ := sized_init hparse
  refine ⟨page, pages, ?_, hsum⟩
  have hempty : (init caching).make [] = init caching := rfl
  rw [← hempty]
  refine aims_make ⟨page, pages, hsized⟩ ?_ ?_ ?_
  · exact fun task hmem => absurd hmem List.not_mem_nil
  · exact fun call hmem => absurd hmem List.not_mem_nil
  · exact Prod.ext hsized.pageSize hsized.maxPages

/-- From the command line on the sizes are powers of two in their limits, in
every state, and nothing that a handler computes of them leaves 64 bits.  A
new page size keeps a budget of at least 128 of its pages, and raises a smaller
one to that. -/
theorem sizes_of_runs {cacheSize pageSize : Int32} {caching : Caching}
    (hparse : parseCaching cacheSize pageSize = some caching)
    {events : List Event} {s : Server}
    (hruns : Runs step (fun _ _ _ => True) (init caching) events s) :
    ((∃ k, s.pool.cache.pageSize = 2 ^ k) ∧
      64 * 1024 ≤ s.pool.cache.pageSize ∧
      s.pool.cache.pageSize ≤ 4 * 1024 * 1024) ∧
    (∃ k, s.pool.cache.maxPages = 2 ^ k) ∧
    (∀ op : IpcOp, ∀ v ∈ op.values s.pool.cache, v < 2 ^ 64) ∧
    ∀ kib s₁ rest s₂, s.step (.handle (.setPageSize kib)) = some s₁ →
      Runs step (fun _ event _ => event.isHandle = false) s₁ rest s₂ →
      s₂.awaits = none →
      (128 * s₂.pool.cache.pageSize ≤ s.pool.cache.budget →
        s₂.pool.cache.budget = s.pool.cache.budget) ∧
      (s.pool.cache.budget < 128 * s₂.pool.cache.pageSize →
        s₂.pool.cache.budget = 128 * s₂.pool.cache.pageSize) ∧
      s.pool.cache.budget ≤ s₂.pool.cache.budget := by
  obtain ⟨page, pages, haims, hsum⟩ := hruns.preserves
    (I := fun s => ∃ page pages, s.Aims (2 ^ page, 2 ^ pages) ∧
      page + pages ≤ 52)
    (by
      rintro s s' event hstep - ⟨page, pages, haims, hsum⟩
      cases event with
      | handle op =>
          obtain ⟨-, page', pages', haims', hsum', -⟩ :=
            haims.handle hsum hstep
          exact ⟨page', pages', haims', hsum'⟩
      | _ => exact ⟨page, pages, haims.step hstep rfl, hsum⟩)
    (aims_init hparse)
  obtain ⟨page₁, pages₁, hsized⟩ := haims.sized
  refine ⟨⟨⟨page₁, hsized.pageSize⟩, ?_, ?_⟩, ⟨pages₁, hsized.maxPages⟩,
    values_lt hsized, ?_⟩
  · rw [hsized.pageSize]
    exact Nat.pow_le_pow_right Nat.two_pos hsized.le_page
  · rw [hsized.pageSize]
    exact Nat.pow_le_pow_right Nat.two_pos hsized.page_le
  · intro kib s₁ rest s₂ hstep hrest hnone
    obtain ⟨hsizes, page', pages', haims₁, -, hbudget⟩ :=
      haims.handle hsum hstep
    have haims₂ := hrest.preserves
      (I := fun s => s.Aims (2 ^ page', 2 ^ pages'))
      (fun hstep hguard h => h.step hstep hguard) haims₁
    obtain ⟨hpage, hpages⟩ := Prod.mk.inj hsizes
    obtain ⟨hpage', hpages'⟩ := Prod.mk.inj (haims₂.settled hnone)
    have hold : s.pool.cache.budget = 2 ^ (page + pages) := by
      rw [budget, hpage, hpages, Nat.pow_add]
    have hnew : s₂.pool.cache.budget = 2 ^ (page' + pages') := by
      rw [budget, hpage', hpages', Nat.pow_add]
    have hfewest : 128 * s₂.pool.cache.pageSize = 2 ^ (page' + 7) := by
      rw [hpage', Nat.pow_add, Nat.mul_comm]
    rw [hold, hnew, hfewest, hbudget kib rfl, ← max_pow]
    omega

set_option maxRecDepth 4000 in
/-- The defaults of 256 MiB and 128 KiB, and pages of 256 KiB after them. -/
theorem sizes_of_runs_default : ∃ events s,
    Runs step (fun _ _ _ => True) (init ⟨256, 128⟩) events s ∧
      s.pool.cache.pageSize = 2 ^ 18 ∧ s.pool.cache.maxPages = 2 ^ 10 ∧
      s.pool.cache.budget = (init ⟨256, 128⟩).pool.cache.budget := by
  have hparse : parseCaching 256 128 = some ⟨256, 128⟩ := rfl
  have hall := (sizes_of_runs hparse (.nil (init ⟨256, 128⟩))).2.2.2 256
  exact ⟨[.handle (.setPageSize 256), .resume 0 .go, .goOn, .resume 1 .go,
    .goOn], _, .cons rfl trivial (.cons rfl trivial (.cons rfl trivial
      (.cons rfl trivial (.cons rfl trivial (.nil _))))), rfl, rfl,
    (hall _ [.resume 0 .go, .goOn, .resume 1 .go, .goOn] _ rfl (.cons rfl rfl
      (.cons rfl rfl (.cons rfl rfl (.cons rfl rfl (.nil _))))) rfl).1
        (by decide)⟩

end Server

end Madbfs
