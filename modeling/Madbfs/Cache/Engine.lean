/-
What an eviction does to the cache.  Between two suspension points it is a
sequence of four moves on the cache and the pages that evictions hold: a page
leaves the list and is held, a held page without changes is dropped, a page
without valid bytes is marked clean, and a counter of running requests moves.
Every invariant that these moves keep is kept by eviction.
-/
import Mathlib.Data.Multiset.AddSub
import Mathlib.Logic.Relation
import Madbfs.Cache.Executor

namespace Madbfs

open Bytes

namespace Flow

variable {π ρ α β : Type}

/-- What holds where the text up to the next suspension point ends.  Nothing
is said about a run that dereferenced a dangling iterator. -/
def Ensures (x : Cache × Flow π α) (await : Cache → π → Prop)
    (done : Cache → α → Prop) : Prop :=
  match x with
  | (c, .await pc) => await c pc
  | (c, .done value) => done c value
  | (_, .crash) => True

theorem Ensures.mono {x : Cache × Flow π α} {await await' : Cache → π → Prop}
    {done done' : Cache → α → Prop} (hx : Ensures x await done)
    (hawait : ∀ c pc, await c pc → await' c pc)
    (hdone : ∀ c value, done c value → done' c value) :
    Ensures x await' done' := by
  obtain ⟨c, pc | value | _⟩ := x
  · exact hawait c pc hx
  · exact hdone c value hx
  · trivial

/-- The rule for a nested `co_await`. -/
theorem Ensures.andThen {x : Cache × Flow π α} {wrap : π → ρ}
    {rest : Cache → α → Cache × Flow ρ β} {await : Cache → ρ → Prop}
    {done : Cache → β → Prop}
    (hx : Ensures x (fun c pc => await c (wrap pc))
      (fun c value => Ensures (rest c value) await done)) :
    Ensures (Flow.andThen x wrap rest) await done := by
  obtain ⟨c, pc | value | _⟩ := x
  · exact hx
  · exact hx
  · trivial

end Flow

namespace Cache

theorem lookup_erasePage (c : Cache) (key : PageKey) (id : Id) :
    (c.erasePage key).lookup id =
      if id = key.id then (c.lookup key.id).map
        fun entry => { entry with pages := entry.pages.erase key.index }
      else c.lookup id := by
  simp only [erasePage, lookup_modifyEntry]

theorem slot_erasePage (c : Cache) (key key' : PageKey) :
    (c.erasePage key).slot key' =
      if key' = key then none else c.slot key' := by
  obtain ⟨id, index⟩ := key
  obtain ⟨id', index'⟩ := key'
  simp only [slot, lookup_erasePage, PageKey.mk.injEq]
  by_cases hid : id' = id
  · subst hid
    cases hentry : c.lookup id' with
    | none => simp
    | some entry =>
        by_cases hindex : index' = index
        · subst hindex
          simp
        · simp [hindex, AList.lookup_erase_ne hindex]
  · simp [hid]

theorem lookup_of_slot {c : Cache} {key : PageKey} {addr : Addr}
    (hslot : c.slot key = some addr) :
    ∃ entry, c.lookup key.id = some entry ∧
      entry.pages.lookup key.index = some addr := by
  simpa [slot, Option.bind_eq_some_iff] using hslot

section Projections

variable (c : Cache) (key : PageKey)

@[simp] theorem erasePage_lru : (c.erasePage key).lru = c.lru := by
  simp [erasePage]

@[simp] theorem erasePage_heap : (c.erasePage key).heap = c.heap := by
  simp [erasePage]

@[simp] theorem erasePage_nextAddr :
    (c.erasePage key).nextAddr = c.nextAddr := by
  simp [erasePage]

@[simp] theorem erasePage_pageSize :
    (c.erasePage key).pageSize = c.pageSize := by
  simp [erasePage]

@[simp] theorem erasePage_maxPages :
    (c.erasePage key).maxPages = c.maxPages := by
  simp [erasePage]

@[simp] theorem erasePage_readQueue :
    (c.erasePage key).readQueue = c.readQueue := by
  simp [erasePage]

@[simp] theorem erasePage_promises :
    (c.erasePage key).promises = c.promises := by
  simp [erasePage]

end Projections

/-- One move of an eviction, on the cache and the pages that evictions hold. -/
inductive Move : Cache × Multiset Addr → Cache × Multiset Addr → Prop
  | inflight (c : Cache) (held : Multiset Addr) (id : Id) (n : Int) :
      Move (c, held) (c.modifyEntry id (addWriteInflight n), held)
  | lose (c : Cache) (held : Multiset Addr) (rest : List Addr) (addr : Addr)
      (hlru : c.lru = rest ++ [addr])
      (hentry : c.lookup (c.heap addr).key.id = none) :
      Move (c, held) ({ c with lru := rest }, held)
  | pop (c : Cache) (held : Multiset Addr) (rest : List Addr) (addr : Addr)
      (hlru : c.lru = rest ++ [addr]) :
      Move (c, held) ({ c with lru := rest }, addr ::ₘ held)
  | drop (c : Cache) (held : Multiset Addr) (addr : Addr)
      (hclean : (c.heap addr).dirty = false) :
      Move (c, addr ::ₘ held) (c.erasePage (c.heap addr).key, held)
  | clean (c : Cache) (held : Multiset Addr) (addr : Addr)
      (hsize : (c.heap addr).size = 0) :
      Move (c, held) (c.setDirty addr false, held)

abbrev Moves := Relation.ReflTransGen Move

/-- An invariant that each move keeps is kept by any number of them. -/
theorem Moves.preserves {I : Cache × Multiset Addr → Prop}
    (hmove : ∀ {s t}, Move s t → I s → I t) {s t : Cache × Multiset Addr}
    (hmoves : Moves s t) (hs : I s) : I t := by
  induction hmoves with
  | refl => exact hs
  | tail _ hlast ih => exact hmove hlast ih

end Cache

/-- The page an eviction holds. -/
def EvictPc.page : EvictPc → Addr
  | .opening page _ => page
  | .flushing page _ _ _ => page

/-- How many pages it still has to take after this one. -/
def EvictPc.rest : EvictPc → Nat
  | .opening _ rest => rest
  | .flushing _ _ rest _ => rest

/-- How many bytes of the page the device has, once a reply that is still to
be delivered is counted. -/
def FlushAtPc.sent : FlushAtPc → Option Reply → Nat
  | .queued _, _ => 0
  | .writing written _, some (.written (.ok n)) => written + n
  | .writing written _, _ => written

/-- Where `flush_at` is suspended first. -/
def FlushAtPc.Fresh (c : Cache) (addr : Addr) : FlushAtPc → Prop
  | .queued fut => c.readQueue.lookup (c.heap addr).key = some fut
  | .writing written len =>
      written = 0 ∧ len = (c.heap addr).size ∧ 0 < (c.heap addr).size

/-- Where a round of `evict` is suspended first. -/
def EvictPc.Fresh (c : Cache) : EvictPc → Prop
  | .opening page _ => (c.heap page).dirty = true
  | .flushing page fd _ pc => pc.Fresh c page ∧
      ∀ entry, c.lookup (c.heap page).key.id = some entry →
        entry.writeFd = some fd

namespace Cache

/-- The rounds of an eviction that starts with the pages `start` held and
leaves those of `held`, and its own page if it is suspended. -/
def EvictRuns (c : Cache) (start held : Multiset Addr)
    (x : Cache × Flow EvictPc Unit) : Prop :=
  Flow.Ensures x
    (fun c' pc => Moves (c, start) (c', pc.page ::ₘ held) ∧ pc.Fresh c')
    (fun c' _ => Moves (c, start) (c', held))

theorem EvictRuns.head {c c' : Cache} {start start' held : Multiset Addr}
    {x : Cache × Flow EvictPc Unit} (hhead : Moves (c, start) (c', start'))
    (hx : EvictRuns c' start' held x) : EvictRuns c start held x :=
  Flow.Ensures.mono hx (fun _ _ h => ⟨hhead.trans h.1, h.2⟩)
    (fun _ _ h => hhead.trans h)

/-- A finished round drops its page. -/
theorem evictDone_moves {c : Cache} {addr : Addr} (held : Multiset Addr)
    (hclean : (c.heap addr).dirty = false) :
    Moves (c, addr ::ₘ held) (c.evictDone addr, held) := by
  have hinflight := Move.inflight c (addr ::ₘ held) (c.heap addr).key.id (-1)
  have hdrop := Move.drop
    (c.modifyEntry (c.heap addr).key.id (addWriteInflight (-1))) held addr
    (by simpa using hclean)
  rw [modifyEntry_heap] at hdrop
  exact (Relation.ReflTransGen.single hinflight).tail hdrop

theorem flushAt_evictRuns {c : Cache} {addr : Addr} {fd : Fd} {rest : Nat}
    {held : Multiset Addr}
    (hfd : ∀ entry, c.lookup (c.heap addr).key.id = some entry →
      entry.writeFd = some fd)
    {x : Cache × Flow FlushAtPc (Except Errc Unit)}
    (hx : x = c.flushAtLoop addr 0 ∨
      ∃ fut, c.readQueue.lookup (c.heap addr).key = some fut ∧
        x = (c, .await (.queued fut)))
    (hnext : ∀ c', EvictRuns c' held held (evict rest c')) :
    EvictRuns c (addr ::ₘ held) held
      (evictFlush x addr fd rest (evict rest)) := by
  rcases hx with rfl | ⟨fut, hfut, rfl⟩
  · unfold flushAtLoop evictFlush
    split
    · next hpos =>
        exact ⟨Relation.ReflTransGen.refl, ⟨rfl, by simp, hpos⟩, hfd⟩
    · next hsize =>
        apply EvictRuns.head _ (hnext _)
        refine (Relation.ReflTransGen.single
          (Move.clean c (addr ::ₘ held) addr (by omega))).trans ?_
        exact evictDone_moves held (by simp [setDirty, modifyPage, Page.setDirty])
  · exact ⟨Relation.ReflTransGen.refl, hfut, hfd⟩

theorem evict_evictRuns (size : Nat) (c : Cache) (held : Multiset Addr) :
    EvictRuns c held held (evict size c) := by
  induction size generalizing c with
  | zero => exact Relation.ReflTransGen.refl
  | succ size ih =>
      unfold evict
      split
      · exact Relation.ReflTransGen.refl
      · next addr hlast =>
          have hlru : c.lru = c.lru.dropLast ++ [addr] :=
            (List.dropLast_append_getLast? addr hlast).symm
          have hpop := Relation.ReflTransGen.single
            (Move.pop c held c.lru.dropLast addr hlru)
          dsimp only
          split
          · next hentry =>
              exact (ih _).head (Relation.ReflTransGen.single
                (Move.lose c held _ addr hlru hentry))
          · next entry hentry =>
              split
              · next hdirty =>
                  refine EvictRuns.head (hpop.tail
                    (Move.inflight _ _ (c.heap addr).key.id 1)) ?_
                  split
                  · refine ⟨Relation.ReflTransGen.refl, ?_⟩
                    simpa [EvictPc.Fresh] using hdirty
                  · next fd hfd =>
                      refine flushAt_evictRuns ?_ ?_ ih
                      · intro entry' hentry'
                        rw [modifyEntry_heap, lookup_modifyEntry,
                          if_pos rfl] at hentry'
                        rw [hentry] at hentry'
                        obtain rfl := Option.some.inj hentry'
                        exact hfd
                      · unfold flushAt
                        split
                        · next fut hfut => exact .inr ⟨fut, hfut, rfl⟩
                        · exact .inl rfl
              · next hclean =>
                  refine (ih _).head (hpop.tail
                    (Move.drop _ held addr (by simpa using hclean)))

/-- `flush_at` is answered with a failure: by the device, or by the fetch it
waited for. -/
def Refused (c : Cache) : FlushAtPc → Reply → Prop
  | .queued fut, .go => ∃ err, c.promises fut = some err ∧ err ≠ ⟨0⟩
  | .writing _ _, .written (.error _) => True
  | _, _ => False

/-- `flush_at` is resumed without a failure. -/
def Took (c : Cache) : FlushAtPc → Reply → Prop
  | .queued fut, .go => c.promises fut = some ⟨0⟩
  | .writing _ _, .written (.ok _) => True
  | _, _ => False

/-- A resumed `flush_at` goes on with its loop after the bytes the device has
taken, or returns the failure. -/
theorem flushAtResume_cases {c : Cache} {addr : Addr} {pc : FlushAtPc}
    {reply : Reply} {x : Cache × Flow FlushAtPc (Except Errc Unit)}
    (hx : c.flushAtResume addr pc reply = some x) :
    (Took c pc reply ∧ x = c.flushAtLoop addr (pc.sent (some reply))) ∨
      (Refused c pc reply ∧ ∃ err, x = (c, .done (.error err))) := by
  unfold flushAtResume at hx
  split at hx
  · next fut =>
      split at hx
      · cases hx
      · next err hready =>
          split at hx
          · next herr =>
              subst herr
              exact .inl ⟨hready, (Option.some.inj hx).symm⟩
          · next herr =>
              exact .inr ⟨⟨err, hready, herr⟩, err, (Option.some.inj hx).symm⟩
  · exact .inl ⟨trivial, (Option.some.inj hx).symm⟩
  · next err => exact .inr ⟨trivial, err, (Option.some.inj hx).symm⟩
  · cases hx

/-- How a resumed eviction begins: the cache and the pages held once the reply
is taken in, from where the rounds go on. -/
inductive EvictPrefix (c : Cache) (held : Multiset Addr) :
    EvictPc → Reply → Cache → Multiset Addr → Prop
  | opened (addr : Addr) (rest : Nat) (fd : Fd) :
      EvictPrefix c held (.opening addr rest) (.opened (.ok fd))
        (c.modifyEntry (c.heap addr).key.id (setWriteFd (some fd)))
        (addr ::ₘ held)
  | failed (addr : Addr) (rest : Nat) (err : Errc) :
      EvictPrefix c held (.opening addr rest) (.opened (.error err))
        (c.modifyEntry (c.heap addr).key.id (addWriteInflight (-1))) held
  | sent (addr : Addr) (fd : Fd) (rest : Nat) (pc : FlushAtPc) (reply : Reply)
      (htook : Took c pc reply)
      (hsent : (c.heap addr).size ≤ pc.sent (some reply)) :
      EvictPrefix c held (.flushing addr fd rest pc) reply
        (c.setDirty addr false) (addr ::ₘ held)
  | unsent (addr : Addr) (fd : Fd) (rest : Nat) (pc : FlushAtPc)
      (reply : Reply) (hrefused : Refused c pc reply) :
      EvictPrefix c held (.flushing addr fd rest pc) reply
        (c.evictDone addr) held

/-- Everything a resumed eviction can do: it asks the device to take the rest
of the page, or goes on with its rounds. -/
theorem evictResume_cases {c : Cache} {pc : EvictPc} {reply : Reply}
    {x : Cache × Flow EvictPc Unit} (held : Multiset Addr)
    (hx : c.evictResume pc reply = some x) :
    (∃ addr fd rest pc', pc = .flushing addr fd rest pc' ∧
      Took c pc' reply ∧ pc'.sent (some reply) < (c.heap addr).size ∧
      x = (c, .await (.flushing addr fd rest (.writing (pc'.sent (some reply))
        ((c.heap addr).size - pc'.sent (some reply)))))) ∨
    ∃ c' start, EvictPrefix c held pc reply c' start ∧
      EvictRuns c' start held x := by
  unfold evictResume at hx
  split at hx
  · next addr rest fd =>
      obtain rfl := Option.some.inj hx
      refine .inr ⟨_, _, .opened addr rest fd, ?_⟩
      refine flushAt_evictRuns ?_ ?_ fun c' => evict_evictRuns rest c' held
      · intro entry hentry
        rw [modifyEntry_heap, lookup_modifyEntry, if_pos rfl] at hentry
        obtain ⟨entry', -, rfl⟩ := Option.map_eq_some_iff.mp hentry
        rfl
      · unfold flushAt
        split
        · next fut hfut => exact .inr ⟨fut, hfut, rfl⟩
        · exact .inl rfl
  · next addr rest err =>
      obtain rfl := Option.some.inj hx
      exact .inr ⟨_, _, .failed addr rest err, evict_evictRuns rest _ held⟩
  · next addr fd rest pc' =>
      obtain ⟨y, hy, rfl⟩ := Option.map_eq_some_iff.mp hx
      rcases flushAtResume_cases hy with ⟨htook, rfl⟩ | ⟨hrefused, err, rfl⟩
      · by_cases hmore : pc'.sent (some reply) < (c.heap addr).size
        · refine .inl ⟨addr, fd, rest, pc', rfl, htook, hmore, ?_⟩
          simp [evictFlush, flushAtLoop, hmore, Flow.andThen]
        · refine .inr ⟨_, _, .sent addr fd rest pc' reply htook (by omega), ?_⟩
          have hrounds : evictFlush
              (c.flushAtLoop addr (pc'.sent (some reply))) addr fd rest
              (evict rest) =
              evict rest ((c.setDirty addr false).evictDone addr) := by
            simp [evictFlush, flushAtLoop, hmore, Flow.andThen]
          rw [hrounds]
          refine EvictRuns.head (evictDone_moves held ?_)
            (evict_evictRuns rest _ held)
          simp [setDirty, modifyPage, Page.setDirty]
      · exact .inr ⟨_, _, .unsent addr fd rest pc' reply hrefused,
          evict_evictRuns rest _ held⟩
  · cases hx

theorem evictExcess_evictRuns (c : Cache) (held : Multiset Addr) :
    EvictRuns c held held c.evictExcess := by
  unfold evictExcess
  split
  · exact evict_evictRuns _ c held
  · exact Relation.ReflTransGen.refl

end Cache

theorem Task.resume_of_isDone {task : Task} (hdone : task.isDone = true)
    (c : Cache) (reply : Reply) : task.resume c reply = none := by
  cases task with
  | didRead r res => rfl
  | didWrite r res => rfl
  | finished res => rfl
  | _ => cases hdone

namespace Pool

variable {p p' : Pool} {i : Nat} {reply : Reply}

theorem resume_cases (hresume : p.resume i reply = some p') :
    ∃ task c' task', p.tasks[i]? = some task ∧
      task.resume p.cache reply = some (c', task') ∧
      ((i ∈ p.stale → task.follows p.cache reply = false) ∧
          p' = ⟨c', p.tasks.set i task', p.stale ++ p.strays i c'⟩ ∨
        i ∈ p.stale ∧ task.follows p.cache reply = true ∧
          p' = ⟨p.cache, p.tasks.set i .crashed, p.stale⟩) := by
  unfold Pool.resume at hresume
  obtain ⟨task, htask, hmap⟩ := Option.bind_eq_some_iff.mp hresume
  obtain ⟨⟨c', task'⟩, hstep, rfl⟩ := Option.map_eq_some_iff.mp hmap
  refine ⟨task, c', task', htask, hstep, ?_⟩
  split_ifs with hstale
  · exact .inr ⟨hstale.1, hstale.2, rfl⟩
  · refine .inl ⟨fun hmem => ?_, rfl⟩
    exact Bool.eq_false_iff.mpr fun hfollows => hstale ⟨hmem, hfollows⟩

theorem mem_strays {c : Cache} {j : Nat} : j ∈ p.strays i c ↔
    j ≠ i ∧ ∃ task id, p.tasks[j]? = some task ∧
      task.entry p.cache = some id ∧ (p.cache.lookup id).isSome ∧
      (c.lookup id).isNone := by
  simp only [strays, List.mem_filter, List.mem_range, Bool.and_eq_true,
    decide_eq_true_eq, Option.any_eq_true, Option.bind_eq_some_iff]
  constructor
  · rintro ⟨-, hne, id, ⟨task, htask, hid⟩, hold, hnew⟩
    exact ⟨hne, task, id, htask, hid, hold, hnew⟩
  · rintro ⟨hne, task, id, htask, hid, hold, hnew⟩
    exact ⟨(List.getElem?_eq_some_iff.mp htask).1, hne, id,
      ⟨task, htask, hid⟩, hold, hnew⟩

/-- The resumption of the only task there is. -/
theorem resume_alone {c : Cache} {task : Task}
    (hresume : resume ⟨c, [task], []⟩ i reply = some p') :
    ∃ c' task', task.resume c reply = some (c', task') ∧
      p' = ⟨c', [task'], []⟩ := by
  obtain ⟨task₁, c', task', htask, hstep, ⟨-, rfl⟩ | ⟨hstale, -⟩⟩ :=
    resume_cases hresume
  · cases i with
    | zero =>
        obtain rfl := Option.some.inj htask
        exact ⟨c', task', hstep, rfl⟩
    | succ i => cases htask
  · exact absurd hstale List.not_mem_nil

end Pool

end Madbfs
