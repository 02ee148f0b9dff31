/-
Frame conditions.  Whatever an operation does between two suspension points,
the paths of the entries, the keys of the pages and, but for a write, their
bytes stay; a page is only ever dropped or new.  The registered fetches change
only when a fetch starts or ends.
-/
import Madbfs.Cache.Sound

namespace Madbfs

open Bytes

namespace Cache

/-- What every operation keeps. -/
structure Keeps (s t : Cache × Multiset Addr) : Prop where
  path : ∀ id, t.1.pathOf id = s.1.pathOf id
  pageSize : t.1.pageSize = s.1.pageSize
  next : s.1.nextAddr ≤ t.1.nextAddr
  key : ∀ addr < s.1.nextAddr, (t.1.heap addr).key = (s.1.heap addr).key
  size : ∀ addr < s.1.nextAddr,
    (s.1.heap addr).size ≤ (t.1.heap addr).size
  live : ∀ addr < s.1.nextAddr, addr ∈ t.1.live t.2 → addr ∈ s.1.live s.2

/-- What everything but a write keeps. -/
structure KeepsData (s t : Cache × Multiset Addr) : Prop
    extends Keeps s t where
  data : ∀ addr < s.1.nextAddr, (t.1.heap addr).data = (s.1.heap addr).data
  size_eq : ∀ addr < s.1.nextAddr,
    (t.1.heap addr).size = (s.1.heap addr).size

section

variable {s t u : Cache × Multiset Addr} {c c' : Cache}
  {held : Multiset Addr}

theorem Keeps.trans (hst : Keeps s t) (htu : Keeps t u) : Keeps s u where
  path id := (htu.path id).trans (hst.path id)
  pageSize := htu.pageSize.trans hst.pageSize
  next := Nat.le_trans hst.next htu.next
  key addr hlt := (htu.key addr (Nat.lt_of_lt_of_le hlt hst.next)).trans
    (hst.key addr hlt)
  size addr hlt := Nat.le_trans (hst.size addr hlt)
    (htu.size addr (Nat.lt_of_lt_of_le hlt hst.next))
  live addr hlt hmem := hst.live addr hlt
    (htu.live addr (Nat.lt_of_lt_of_le hlt hst.next) hmem)

theorem KeepsData.trans (hst : KeepsData s t) (htu : KeepsData t u) :
    KeepsData s u where
  toKeeps := hst.toKeeps.trans htu.toKeeps
  data addr hlt := (htu.data addr (Nat.lt_of_lt_of_le hlt hst.next)).trans
    (hst.data addr hlt)
  size_eq addr hlt := (htu.size_eq addr
    (Nat.lt_of_lt_of_le hlt hst.next)).trans (hst.size_eq addr hlt)

/-- An operation that leaves the heap, the paths and the page size, and adds
no page. -/
theorem KeepsData.of_heap_eq {held' : Multiset Addr}
    (hheap : ∀ addr < c.nextAddr, (c'.heap addr).key = (c.heap addr).key ∧
      (c'.heap addr).data = (c.heap addr).data ∧
      (c'.heap addr).size = (c.heap addr).size)
    (hpath : ∀ id, c'.pathOf id = c.pathOf id)
    (hsize : c'.pageSize = c.pageSize) (hnext : c.nextAddr ≤ c'.nextAddr)
    (hlive : ∀ addr < c.nextAddr, addr ∈ c'.live held' →
      addr ∈ c.live held) :
    KeepsData (c, held) (c', held') where
  path := hpath
  pageSize := hsize
  next := hnext
  key addr hlt := (hheap addr hlt).1
  size addr hlt := Nat.le_of_eq (hheap addr hlt).2.2.symm
  live := hlive
  data addr hlt := (hheap addr hlt).2.1
  size_eq addr hlt := (hheap addr hlt).2.2

theorem KeepsData.refl (s : Cache × Multiset Addr) : KeepsData s s :=
  .of_heap_eq (fun _ _ => ⟨rfl, rfl, rfl⟩) (fun _ => rfl) rfl
    (Nat.le_refl _) (fun _ _ h => h)

theorem keepsData_modifyEntry (id : Id) {f : LookupEntry → LookupEntry}
    (hpath : ∀ entry, (f entry).path = entry.path) :
    KeepsData (c, held) (c.modifyEntry id f, held) :=
  .of_heap_eq (by simp) (c.pathOf_modifyEntry id hpath) (by simp)
    (by simp) (by simp [live])

theorem keepsData_setDirty (addr : Addr) (set : Bool) :
    KeepsData (c, held) (c.setDirty addr set, held) := by
  refine .of_heap_eq ?_ (fun _ => rfl) rfl (Nat.le_refl _) (fun _ _ h => h)
  intro addr' _
  rw [setDirty_heap]
  split_ifs <;> exact ⟨rfl, rfl, rfl⟩

theorem keepsData_erasePage (addr : Addr) (key : PageKey) :
    KeepsData (c, addr ::ₘ held) (c.erasePage key, held) := by
  refine .of_heap_eq (by simp) (c.pathOf_modifyEntry _ fun _ => rfl) (by simp)
    (by simp) ?_
  intro addr' _ hmem
  simp only [mem_live, erasePage_lru, Multiset.mem_cons] at hmem ⊢
  tauto

theorem Move.keepsData (hmove : Move s t) : KeepsData s t := by
  cases hmove with
  | inflight c held id n => exact keepsData_modifyEntry id fun _ => rfl
  | lose c held rest addr hlru hentry =>
      refine .of_heap_eq (fun _ _ => ⟨rfl, rfl, rfl⟩) (fun _ => rfl) rfl
        (Nat.le_refl _) ?_
      intro addr' _ hmem
      simp only [mem_live, hlru, List.mem_append] at hmem ⊢
      tauto
  | pop c held rest addr hlru =>
      refine .of_heap_eq (fun _ _ => ⟨rfl, rfl, rfl⟩) (fun _ => rfl) rfl
        (Nat.le_refl _) ?_
      intro addr' _ hmem
      simp only [mem_live, hlru, List.mem_append, Multiset.mem_cons,
        List.mem_singleton] at hmem ⊢
      tauto
  | drop c held addr hclean => exact keepsData_erasePage addr _
  | clean c held addr hsize => exact keepsData_setDirty addr false

theorem Act.keepsData {G : Grant} (hact : Act G s t) : KeepsData s t := by
  cases hact with
  | move s t hmove => exact hmove.keepsData
  | count c held id f hf => exact keepsData_modifyEntry id hf.path
  | readFd c held id fd hfd => exact keepsData_modifyEntry id fun _ => rfl
  | writeFd c held id fd hfd => exact keepsData_modifyEntry id fun _ => rfl
  | queue c held readQueue promises nextFut =>
      exact .of_heap_eq (fun _ _ => ⟨rfl, rfl, rfl⟩) (fun _ => rfl) rfl
        (Nat.le_refl _) (fun _ _ h => h)
  | insert c held page hpage =>
      refine .of_heap_eq ?_ (pathOf_emplaceFront c page) (by simp)
        (by simp) ?_
      · intro addr hlt
        rw [emplaceFront_heap, Function.update_of_ne (Nat.ne_of_lt hlt)]
        exact ⟨rfl, rfl, rfl⟩
      · intro addr hlt hmem
        rw [live_emplaceFront, Multiset.mem_cons] at hmem
        exact hmem.resolve_left (Nat.ne_of_lt hlt)
  | sent c held addr hsent => exact keepsData_setDirty addr false
  | splice c held addr hmem =>
      refine .of_heap_eq (fun _ _ => ⟨rfl, rfl, rfl⟩) (fun _ => rfl) rfl
        (Nat.le_refl _) ?_
      intro addr' _ hmem'
      rwa [live_splice hmem] at hmem'
  | discard c held addr hfault => exact keepsData_erasePage addr _
  | forget c held addr hfault =>
      refine .of_heap_eq (fun _ _ => ⟨rfl, rfl, rfl⟩) (fun _ => rfl) rfl
        (Nat.le_refl _) ?_
      intro addr' _ hmem
      simp only [mem_live, Multiset.mem_cons] at hmem ⊢
      tauto

theorem Acts.keepsData {G : Grant} (hacts : Acts G s t) : KeepsData s t :=
  hacts.preserves (I := KeepsData s)
    (fun hact h => h.trans hact.keepsData) (KeepsData.refl s)

theorem keeps_written (r : Range) (input : List Byte) {addr : Addr}
    (hmem : addr ∈ c.lru) :
    Keeps (c, held) (c.written r input addr, held) := by
  have hheap : ∀ addr', (c.written r input addr).heap addr' =
      if addr' = addr then ((c.heap addr).write (slice input
        (r.bufOffset c.pageSize) (r.localSize c.pageSize))
        (r.localOffset c.pageSize)).1.setDirty true else c.heap addr' := by
    intro addr'
    by_cases heq : addr' = addr
    · subst heq
      rw [if_pos rfl]
      exact Function.update_self _ _ _
    · rw [if_neg heq]
      exact Function.update_of_ne heq _ _
  refine ⟨fun _ => rfl, rfl, Nat.le_refl _, ?_, ?_, ?_⟩
  · intro addr' _
    change ((c.written r input addr).heap addr').key = _
    rw [hheap]
    split_ifs with heq
    · subst heq
      exact Page.write_key _ _ _
    · rfl
  · intro addr' _
    change _ ≤ ((c.written r input addr).heap addr').size
    rw [hheap]
    split_ifs with heq
    · subst heq
      exact Page.size_le_write _ _ _
    · exact Nat.le_refl _
  · intro addr' _ hmem'
    exact (live_splice hmem) ▸ hmem'

end

/-- What the page operations leave alone in an entry. -/
def head (entry : LookupEntry) : Path × Nat × Nat × Bool :=
  (entry.path, entry.reader, entry.writer, entry.dirty)

def headOf (c : Cache) (id : Id) : Option (Path × Nat × Nat × Bool) :=
  (c.lookup id).map head

theorem headOf_modifyEntry (c : Cache) (id : Id)
    {f : LookupEntry → LookupEntry}
    (hhead : ∀ entry, head (f entry) = head entry) (id' : Id) :
    (c.modifyEntry id f).headOf id' = c.headOf id' := by
  simp only [headOf, lookup_modifyEntry]
  split_ifs with heq
  · subst heq
    cases c.lookup id' with
    | none => rfl
    | some entry => simp [hhead]
  · rfl

theorem Act.headOf_eq {G : Grant} {s t : Cache × Multiset Addr}
    (hact : Act G s t) (id : Id) : t.1.headOf id = s.1.headOf id := by
  cases hact with
  | move s t hmove =>
      cases hmove with
      | inflight c held id' n =>
          exact headOf_modifyEntry _ _ (by intro entry; rfl) id
      | lose c held rest addr hlru hentry => rfl
      | pop c held rest addr hlru => rfl
      | drop c held addr hclean =>
          exact headOf_modifyEntry _ _ (by intro entry; rfl) id
      | clean c held addr hsize => rfl
  | count c held id' f hf =>
      refine c.headOf_modifyEntry id' (fun entry => ?_) id
      simp only [head, hf.path, hf.reader, hf.writer, hf.dirty]
  | readFd c held id' fd hfd =>
      exact headOf_modifyEntry _ _ (by intro entry; rfl) id
  | writeFd c held id' fd hfd =>
      exact headOf_modifyEntry _ _ (by intro entry; rfl) id
  | queue c held readQueue promises nextFut => rfl
  | insert c held page hpage =>
      refine headOf_modifyEntry _ _ (fun entry => ?_) id
      unfold emplaceIndex
      split <;> rfl
  | sent c held addr hsent => rfl
  | splice c held addr hmem => rfl
  | discard c held addr hfault =>
      exact headOf_modifyEntry _ _ (by intro entry; rfl) id
  | forget c held addr hfault => rfl

theorem Acts.headOf_eq {G : Grant} {s t : Cache × Multiset Addr}
    (hacts : Acts G s t) (id : Id) : t.1.headOf id = s.1.headOf id :=
  hacts.preserves (I := fun t => t.1.headOf id = s.1.headOf id)
    (fun hact h => (hact.headOf_eq id).trans h) rfl

/-- The registered fetches and their promises. -/
structure Futures where
  readQueue : AList (fun _ : PageKey => Fut)
  promises : Fut → Option Errc
  nextFut : Fut

def futures (c : Cache) : Futures where
  readQueue := c.readQueue
  promises := c.promises
  nextFut := c.nextFut

section

variable {s t : Cache × Multiset Addr} {c c' : Cache}
  {held : Multiset Addr} {r : Range}

theorem futures_modifyEntry (c : Cache) (id : Id)
    (f : LookupEntry → LookupEntry) :
    (c.modifyEntry id f).futures = c.futures := by
  simp [futures]

theorem Moves.futures_eq (hmoves : Moves s t) :
    t.1.futures = s.1.futures := by
  refine hmoves.preserves (I := fun t => t.1.futures = s.1.futures) ?_ rfl
  intro u v hmove hu
  rw [← hu]
  cases hmove with
  | inflight c held id n => exact futures_modifyEntry c id _
  | lose c held rest addr hlru hentry => rfl
  | pop c held rest addr hlru => rfl
  | drop c held addr hclean => exact futures_modifyEntry c _ _
  | clean c held addr hsize => rfl

theorem readAtFinish_futures {π : Type} (c : Cache) (r : Range)
    (addr : Addr) :
    (c.readAtFinish (π := π) r addr).1.futures = c.futures := by
  unfold readAtFinish
  split
  · exact futures_modifyEntry _ _ _
  · rfl

theorem writeAtFinish_futures {π : Type} (c : Cache) (r : Range)
    (input : List Byte) (addr : Addr) :
    (c.writeAtFinish (π := π) r input addr).1.futures = c.futures := by
  unfold writeAtFinish
  split <;> rfl

theorem EvictThen.futures_eq {π α : Type} {wrap : EvictPc → π}
    {finish : Cache → Cache × Flow π α} {start : Multiset Addr}
    {flow : Flow π α} (hthen : EvictThen c start held wrap finish c' flow)
    (hfinish : ∀ c, (finish c).1.futures = c.futures) :
    c'.futures = c.futures := by
  cases hthen with
  | await _ pc hmoves hfresh => exact hmoves.futures_eq
  | finish c₁ hmoves => exact (hfinish c₁).trans hmoves.futures_eq

theorem EvictPrefix.futures_eq {pc : EvictPc} {reply : Reply}
    {start : Multiset Addr} (hbegin : EvictPrefix c held pc reply c' start) :
    c'.futures = c.futures := by
  cases hbegin with
  | opened addr rest fd => exact futures_modifyEntry c _ _
  | failed addr rest err => exact futures_modifyEntry c _ _
  | sent addr fd rest pc reply htook hsent => rfl
  | unsent addr fd rest pc reply hrefused =>
      exact (futures_modifyEntry _ _ _).trans (futures_modifyEntry _ _ _)

theorem EvictStep.futures_eq {π α : Type} {wrap : EvictPc → π}
    {finish : Cache → Cache × Flow π α} {reply : Reply} {pc : EvictPc}
    {flow : Flow π α}
    (hstep : EvictStep c held wrap finish reply pc c' flow)
    (hfinish : ∀ c, (finish c).1.futures = c.futures) :
    c'.futures = c.futures := by
  cases hstep with
  | send addr fd rest pc htook hmore => rfl
  | rounds pc c₁ start _ _ hbegin hthen =>
      exact (hthen.futures_eq hfinish).trans hbegin.futures_eq

theorem WriteStep.futures_eq {input : List Byte} {pc : WriteAtPc}
    {reply : Reply} {flow : Flow WriteAtPc (Except Errc Nat)}
    (hstep : WriteStep c held r input pc reply c' flow)
    (hflow : flow ≠ .crash) : c'.futures = c.futures := by
  have hlooked : WriteLookup c held r input c' flow →
      c'.futures = c.futures := by
    intro hlookup
    cases hlookup with
    | hit addr hslot => exact writeAtFinish_futures c r input addr
    | miss entry hentry hslot _ _ hthen =>
        refine (hthen.futures_eq fun c' =>
          writeAtFinish_futures c' r input _).trans ?_
        simp [futures, emplaceFront]
  cases hstep with
  | crash => exact absurd rfl hflow
  | queue fut hqueue => rfl
  | start _ _ henter hlookup => exact hlooked hlookup
  | queued fut _ _ henter hlookup => exact hlooked hlookup
  | fail fut err hready herr => rfl
  | evict addr pc reply _ _ hstep =>
      exact hstep.futures_eq fun c' => writeAtFinish_futures c' r input addr

theorem FlushStep.futures_eq {id : Id} {pc : FlushPc} {reply : Reply}
    {flow : Flow FlushPc (Except Errc Unit)}
    (hstep : FlushStep c id pc reply c' flow) (hflow : flow ≠ .crash) :
    c'.futures = c.futures := by
  cases hstep with
  | crash => exact absurd rfl hflow
  | nothing hclean => rfl
  | «open» entry hentry hdirty hfd => rfl
  | openFail err => rfl
  | send index addr fd pc reply hslot hmem htook hmore => rfl
  | refused index addr fd pc reply err hrefused =>
      exact futures_modifyEntry c _ _
  | loop pc reply c₁ indices henter hruns =>
      have hpre : c₁.futures = c.futures := by
        cases henter with
        | start entry fd hentry hdirty hfd => exact futures_modifyEntry c _ _
        | opened entry fd hentry =>
            exact (futures_modifyEntry _ _ _).trans (futures_modifyEntry _ _ _)
        | sent entry index addr fd pc reply hentry hslot hmem htook hsent => rfl
      rw [← hpre]
      generalize (flushLoop id indices c₁).1 = cfinal at hruns ⊢
      generalize (flushLoop id indices c₁).2 = flow' at hruns hflow
      cases hruns with
      | crash => exact absurd rfl hflow
      | await _ index addr fd pc entry hmoves hslot hmem hfresh hentry hfd =>
          exact (hmoves 0).futures_eq
      | done c₂ hmoves =>
          exact (futures_modifyEntry _ _ _).trans (hmoves 0).futures_eq

/-- What a resumption of `read_at` does to the registered fetches: nothing, or
it starts a fetch, or it ends its own. -/
inductive ReadFutures (c : Cache) (r : Range) (pc : ReadAtPc) (reply : Reply)
    (flow : Flow ReadAtPc (Except Errc (List Byte))) : Futures → Prop
  | same (hpc : ∀ fd fut, pc ≠ .fetching fd fut)
      (hflow : ∀ fd fut, flow ≠ .await (.fetching fd fut)) :
      ReadFutures c r pc reply flow c.futures
  | starts (fd : Fd) (hflow : flow = .await (.fetching fd c.nextFut)) :
      ReadFutures c r pc reply flow (c.enqueue r.key).1.futures
  | inserts (fd : Fd) (fut fut' : Fut) (bytes : List Byte)
      (hpc : pc = .fetching fd fut) (hreply : reply = .fetched (.ok bytes))
      (hqueue : c.readQueue.lookup r.key = some fut')
      (hflow : ∀ fd fut, flow ≠ .await (.fetching fd fut)) :
      ReadFutures c r pc reply flow
        ((c.setPromise fut ⟨0⟩).dequeue r.key).futures
  | fails (fd : Fd) (fut : Fut) (err : Errc)
      (hpc : pc = .fetching fd fut) (hreply : reply = .fetched (.error err))
      (hflow : ∀ fd fut, flow ≠ .await (.fetching fd fut)) :
      ReadFutures c r pc reply flow ((c.setPromise fut err).dequeue r.key).futures
  | canceled (fd : Fd) (fut : Fut) (hpc : pc = .fetching fd fut)
      (hqueue : c.readQueue.lookup r.key = none)
      (hflow : ∀ fd fut, flow ≠ .await (.fetching fd fut)) :
      ReadFutures c r pc reply flow
        (c.setPromise fut Errc.operationCanceled).futures

theorem ReadLookup.futures {c₁ : Cache} {pc : ReadAtPc} {reply : Reply}
    {flow : Flow ReadAtPc (Except Errc (List Byte))}
    (hlookup : ReadLookup c₁ r c' flow) (heq : c₁.futures = c.futures)
    (hpc : ∀ fd fut, pc ≠ .fetching fd fut) :
    ReadFutures c r pc reply flow c'.futures := by
  cases hlookup with
  | hit addr hslot hmem =>
      rw [futures_modifyEntry, show (c₁.splice addr).futures = c₁.futures from
        rfl, heq]
      exact .same hpc fun _ _ h => (by cases h)
  | miss entry hentry hslot hfd =>
      rw [heq]
      exact .same hpc fun _ _ h => (by cases h)
  | fetch entry fd hentry hslot hfd =>
      have hnext : c₁.nextFut = c.nextFut := congrArg Futures.nextFut heq
      have hsame : (c₁.enqueue r.key).1.futures =
          (c.enqueue r.key).1.futures := by
        simp only [futures, Futures.mk.injEq] at heq
        simp only [futures, enqueue, heq.1, heq.2.1, heq.2.2]
      rw [hsame]
      exact .starts fd (by rw [hnext])

theorem not_evict_of_finish {addr : Addr} {c₁ : Cache}
    {flow : Flow ReadAtPc (Except Errc (List Byte))} {start : Multiset Addr}
    (hthen : EvictThen c₁ start held (.evicting addr)
      (fun c => c.readAtFinish r addr) c' flow) :
    ∀ fd fut, flow ≠ .await (.fetching fd fut) := by
  rintro fd fut rfl
  generalize hflow : Flow.await (ReadAtPc.fetching fd fut) = flow at hthen
  cases hthen with
  | await _ pc hmoves hfresh => cases hflow
  | finish c₂ hmoves =>
      unfold readAtFinish at hflow
      split at hflow <;> cases hflow

theorem ReadStep.futures {pc : ReadAtPc} {reply : Reply}
    {flow : Flow ReadAtPc (Except Errc (List Byte))}
    (hstep : ReadStep c held r pc reply c' flow) (hflow : flow ≠ .crash) :
    ReadFutures c r pc reply flow c'.futures := by
  cases hstep with
  | crash => exact absurd rfl hflow
  | queue fut hqueue =>
      rw [futures_modifyEntry]
      exact .same (fun _ _ h => (by cases h)) fun _ _ h => (by cases h)
  | start c₁ _ _ henter hlookup =>
      cases henter with
      | now hqueue =>
          exact hlookup.futures (futures_modifyEntry c _ _)
            fun _ _ h => (by cases h)
  | queued fut c₁ _ _ henter hlookup =>
      cases henter with
      | woken _ hready => exact hlookup.futures rfl fun _ _ h => (by cases h)
  | opened fd =>
      have hsame : ((c.modifyEntry r.id (setReadFd (some fd))).enqueue
          r.key).1.futures = (c.enqueue r.key).1.futures := by
        simp [Cache.futures, enqueue]
      rw [hsame]
      exact .starts fd rfl
  | fail pc reply c₁ err hfails =>
      rw [futures_modifyEntry]
      cases hfails with
      | queued fut err hready herr =>
          exact .same (fun _ _ h => (by cases h)) fun _ _ h => (by cases h)
      | opening err =>
          exact .same (fun _ _ h => (by cases h)) fun _ _ h => (by cases h)
      | canceled fd fut bytes hqueue =>
          exact .canceled fd fut rfl hqueue fun _ _ h => (by cases h)
      | fetching fd fut err =>
          exact .fails fd fut err rfl rfl fun _ _ h => (by cases h)
  | insert fd fut fut' bytes addr _ _ hqueue hslot hthen =>
      have hsame : c'.futures =
          ((c.setPromise fut ⟨0⟩).dequeue r.key).futures := by
        refine (hthen.futures_eq fun c => readAtFinish_futures c r addr).trans ?_
        simp [inserted, Cache.futures, setPromise, dequeue]
      rw [hsame]
      exact .inserts fd fut fut' bytes rfl rfl hqueue
        (not_evict_of_finish hthen)
  | evict addr pc reply _ _ hstep =>
      rw [hstep.futures_eq fun c => readAtFinish_futures c r addr]
      refine .same (fun _ _ h => (by cases h)) ?_
      cases hstep with
      | send addr fd rest pc htook hmore => exact fun _ _ h => (by cases h)
      | rounds pc c₁ start _ _ hbegin hthen => exact not_evict_of_finish hthen

end

end Cache

end Madbfs
