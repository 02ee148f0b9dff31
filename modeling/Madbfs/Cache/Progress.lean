/-
Operations end.  Every suspended task has some work left, every page in the
list may cost an eviction, and each step that is not a call uses up some of
this; so a run without calls is bounded.  While an operation is in progress,
the device can answer a request or a task can be resumed.
-/
import Madbfs.Cache.Serial

namespace Madbfs

open Bytes

/-- What the eviction of one page may cost. -/
def pageWork (pageSize : Nat) : Nat :=
  2 * pageSize + 8

/-- The work left where `flush_at` is suspended: two steps for every byte that
is still to be sent, at most. -/
def FlushAtPc.work (pageSize : Nat) : FlushAtPc → Nat
  | .queued _ => 2 * pageSize + 4
  | .writing written _ => 2 * (pageSize - written) + 4

def EvictPc.work (pageSize : Nat) : EvictPc → Nat
  | .opening _ _ => 2 * pageSize + 6
  | .flushing _ _ _ pc => pc.work pageSize

def ReadAtPc.work (pageSize : Nat) : ReadAtPc → Nat
  | .start => pageWork pageSize + 9
  | .queued _ => 0
  | .opening => pageWork pageSize + 6
  | .fetching _ _ => pageWork pageSize + 3
  | .evicting _ pc => pc.work pageSize + 1

def WriteAtPc.work (pageSize : Nat) : WriteAtPc → Nat
  | .start => pageWork pageSize + 3
  | .queued _ => 0
  | .evicting _ pc => pc.work pageSize + 1

/-- The pages of a file from which `flush` has something left to do. -/
def Cache.remaining (c : Cache) (id : Id) (p : Nat → Bool) : Nat :=
  ((c.lookup id).map fun entry => (entry.indices.filter p).length).getD 0

def FlushPc.work (c : Cache) (id : Id) : FlushPc → Nat
  | .start => pageWork c.pageSize * (c.remaining id fun _ => true) +
      pageWork c.pageSize + 6
  | .opening => pageWork c.pageSize * (c.remaining id fun _ => true) +
      pageWork c.pageSize + 3
  | .flushing index _ _ pc =>
      pageWork c.pageSize * c.remaining id (index < ·) + pc.work c.pageSize

/-- The work left for a task; an answer that is still to come counts. -/
def Task.work (c : Cache) (reply : Option Reply) (task : Task) : Nat :=
  let rest := if reply.isNone then 1 else 0
  match task with
  | .readAt _ pc => pc.work c.pageSize + rest
  | .writeAt _ _ pc => pc.work c.pageSize + rest
  | .flush id pc => pc.work c id + rest
  | _ => 0

def Task.works (c : Cache) : (Nat → Option Reply) → List Task → Nat
  | _, [] => 0
  | replies, task :: rest =>
      task.work c (replies 0) + works c (fun i => replies (i + 1)) rest

def World.work (w : World) : Nat :=
  pageWork w.pool.cache.pageSize * w.pool.cache.lru.length +
    Task.works w.pool.cache w.replies w.pool.tasks

namespace Cache

section

variable {c c' : Cache} {r : Range} {reply : Reply}

/-- An eviction takes as many pages from the list as it was asked for, and
those it still has to take are counted while it is suspended. -/
theorem evict_shorter (size : Nat) (c : Cache) :
    Flow.Ensures (evict size c)
      (fun c' pc => pc.rest < size ∧
        c'.lru.length + size = c.lru.length + pc.rest)
      (fun c' _ => c'.lru.length = c.lru.length - size) := by
  induction size generalizing c with
  | zero => rfl
  | succ size ih =>
      unfold evict
      split
      · next hlast =>
          rw [List.getLast?_eq_none_iff] at hlast
          change c.lru.length = _
          rw [hlast, List.length_nil, Nat.zero_sub]
      · next addr hlast =>
          have hpos : 0 < c.lru.length := by
            rw [List.length_pos_iff]
            rintro heq
            rw [heq] at hlast
            cases hlast
          have hlength : size < size + 1 ∧
              c.lru.dropLast.length + (size + 1) = c.lru.length + size := by
            rw [List.length_dropLast]
            omega
          have hnext : ∀ c', c'.lru.length = c.lru.dropLast.length →
              Flow.Ensures (evict size c')
                (fun c' pc => pc.rest < size + 1 ∧
                  c'.lru.length + (size + 1) = c.lru.length + pc.rest)
                (fun c' _ => c'.lru.length = c.lru.length - (size + 1)) := by
            intro c' heq
            rw [List.length_dropLast] at heq
            refine (ih c').mono (fun c₁ pc h => ?_) (fun c₁ _ h => ?_) <;>
              omega
          dsimp only
          split
          · exact hnext _ rfl
          · next entry hentry =>
              split
              · split
                · change _ ∧ (modifyEntry _ _ _).lru.length + _ = _
                  rw [modifyEntry_lru]
                  exact hlength
                · next fd hfd =>
                    refine Flow.Ensures.andThen ?_
                    unfold flushAt
                    split
                    · change _ ∧ (modifyEntry _ _ _).lru.length + _ = _
                      rw [modifyEntry_lru]
                      exact hlength
                    · unfold flushAtLoop
                      split
                      · change _ ∧ (modifyEntry _ _ _).lru.length + _ = _
                        rw [modifyEntry_lru]
                        exact hlength
                      · refine hnext _ ?_
                        simp [evictDone, setDirty, modifyPage]
              · exact hnext _ (by simp)

/-- An eviction of the excess leaves no more than the largest number of pages,
and those it still has to take. -/
theorem evictExcess_shorter (c : Cache) :
    Flow.Ensures c.evictExcess
      (fun c' pc => c'.lru.length < c.lru.length ∧
        c'.lru.length ≤ c.maxPages + pc.rest)
      (fun c' _ => c'.lru.length ≤ c.lru.length ∧
        c'.lru.length ≤ c.maxPages) := by
  unfold evictExcess
  split
  · refine (evict_shorter _ c).mono (fun c' pc h => ?_) fun c' _ h => ?_ <;>
      omega
  · change c.lru.length ≤ _ ∧ c.lru.length ≤ _
    omega

/-- A new eviction costs less than the page it has taken. -/
theorem evict_work (pageSize : Nat) (pc : EvictPc) {n m : Nat} (hlt : n < m) :
    pageWork pageSize * n + pc.work pageSize + 2 ≤ pageWork pageSize * m := by
  have hwork : pc.work pageSize ≤ 2 * pageSize + 6 := by
    cases pc with
    | opening page rest => exact Nat.le_refl _
    | flushing page fd rest fpc =>
        cases fpc <;> simp only [EvictPc.work, FlushAtPc.work] <;> omega
  have hmul : pageWork pageSize * (n + 1) ≤ pageWork pageSize * m :=
    Nat.mul_le_mul_left _ hlt
  rw [Nat.mul_succ] at hmul
  simp only [pageWork] at *
  omega

/-- The resumption of an eviction uses up work. -/
theorem evictResume_work {pc : EvictPc} {x : Cache × Flow EvictPc Unit}
    (hx : c.evictResume pc reply = some x)
    (hqueued : ∀ page fut, pc.wait ≠ .queued page fut)
    (hsize : (c.heap pc.page).size ≤ c.pageSize)
    (hreply : ∀ n, reply = .written (.ok n) → 0 < n) :
    Flow.Ensures x
      (fun c' pc' => pageWork c.pageSize * c'.lru.length +
        pc'.work c.pageSize + 1 <
          pageWork c.pageSize * c.lru.length + pc.work c.pageSize)
      (fun c' _ => c'.lru.length ≤ c.lru.length) := by
  have hpos : 0 < pc.work c.pageSize := by
    cases pc with
    | opening page rest => exact Nat.succ_pos _
    | flushing page fd rest fpc => cases fpc <;> exact Nat.succ_pos _
  have hnext : ∀ size c', c'.lru.length = c.lru.length →
      Flow.Ensures (evict size c')
        (fun c' pc' => pageWork c.pageSize * c'.lru.length +
          pc'.work c.pageSize + 1 <
            pageWork c.pageSize * c.lru.length + pc.work c.pageSize)
        (fun c' _ => c'.lru.length ≤ c.lru.length) := by
    intro size c' heq
    refine (evict_shorter size c').mono (fun c₁ pc' h => ?_) (fun c₁ _ h => ?_)
    · have hwork := evict_work c.pageSize pc'
        (by omega : c₁.lru.length < c.lru.length)
      omega
    · omega
  unfold evictResume at hx
  split at hx
  · next addr rest fd =>
      obtain rfl := Option.some.inj hx
      refine Flow.Ensures.andThen ?_
      unfold flushAt
      split
      · simp only [Flow.Ensures, modifyEntry_lru, EvictPc.work,
          FlushAtPc.work]
        omega
      · unfold flushAtLoop
        split
        · simp only [Flow.Ensures, modifyEntry_lru, EvictPc.work,
            FlushAtPc.work]
          omega
        · refine hnext rest _ ?_
          simp [evictDone, setDirty, modifyPage]
  · next addr rest err =>
      obtain rfl := Option.some.inj hx
      exact hnext rest _ (by simp)
  · next addr fd rest fpc =>
      obtain ⟨y, hy, rfl⟩ := Option.map_eq_some_iff.mp hx
      refine Flow.Ensures.andThen ?_
      rcases flushAtResume_cases hy with ⟨htook, rfl⟩ | ⟨hrefused, err, rfl⟩
      · cases fpc with
        | queued fut => exact absurd rfl (hqueued addr fut)
        | writing written len =>
            unfold Took at htook
            split at htook
            · next heq => cases heq
            · next written' len' n heq =>
                obtain ⟨rfl, rfl⟩ := FlushAtPc.writing.inj heq
                have hn := hreply n rfl
                unfold flushAtLoop
                split
                · next hmore =>
                    simp only [EvictPc.page] at hsize
                    simp only [FlushAtPc.sent] at hmore
                    simp only [Flow.Ensures, EvictPc.work, FlushAtPc.work,
                      FlushAtPc.sent]
                    omega
                · refine hnext rest _ ?_
                  simp [evictDone, setDirty, modifyPage]
            · exact htook.elim
      · refine hnext rest _ ?_
        simp [evictDone]
  · cases hx

theorem length_splice {addr : Addr} (hmem : addr ∈ c.lru) :
    (c.splice addr).lru.length = c.lru.length := by
  have hpos := List.length_pos_of_mem hmem
  simp only [splice, List.length_cons, List.length_erase_of_mem hmem]
  omega

theorem readAtFinish_work {π : Type} (c : Cache) (r : Range) (addr : Addr)
    (await : Cache → π → Prop) :
    Flow.Ensures (c.readAtFinish (π := π) r addr) await
      (fun c' _ => c'.lru.length = c.lru.length) := by
  unfold readAtFinish
  split
  · next hvalid =>
      change (modifyEntry _ _ _).lru.length = _
      rw [modifyEntry_lru]
      exact length_splice hvalid.2
  · trivial

theorem writeAtFinish_work {π : Type} (c : Cache) (r : Range)
    (input : List Byte) (addr : Addr) (await : Cache → π → Prop) :
    Flow.Ensures (c.writeAtFinish (π := π) r input addr) await
      (fun c' _ => c'.lru.length = c.lru.length) := by
  unfold writeAtFinish
  split
  · next hvalid => exact length_splice hvalid.2
  · trivial

/-- An eviction for a page that was inserted just now. -/
theorem evictExcess_work {π α : Type} (c : Cache) (wrap : EvictPc → π)
    (finish : Cache → Cache × Flow π α) (work : π → Nat) (total : Nat)
    (hwrap : ∀ pc : EvictPc, work (wrap pc) = pc.work c.pageSize + 1)
    (hfinish : ∀ c' await, Flow.Ensures (finish c') await
      (fun c'' _ => c''.lru.length = c'.lru.length))
    (htotal : pageWork c.pageSize * c.lru.length < total) :
    Flow.Ensures (Flow.andThen c.evictExcess wrap fun c _ => finish c)
      (fun c' pc' => pageWork c.pageSize * c'.lru.length + work pc' + 1 <
        total)
      (fun c' _ => pageWork c.pageSize * c'.lru.length < total) := by
  refine Flow.Ensures.andThen ?_
  refine (evictExcess_shorter c).mono (fun c' pc h => ?_) fun c' _ h => ?_
  · have hwork := evict_work c.pageSize pc h.1
    rw [hwrap]
    omega
  · refine (hfinish c' _).mono (fun _ _ h => h) fun c'' _ heq => ?_
    have hmul := Nat.mul_le_mul_left (pageWork c.pageSize) h.1
    rw [heq]
    omega

theorem readAtLookup_work (c : Cache) (r : Range) (total : Nat)
    (htotal : pageWork c.pageSize * c.lru.length + pageWork c.pageSize + 7 <
      total) :
    Flow.Ensures (c.readAtLookup r)
      (fun c' pc' => pageWork c.pageSize * c'.lru.length +
        pc'.work c.pageSize + 1 < total)
      (fun c' _ => pageWork c.pageSize * c'.lru.length < total) := by
  unfold readAtLookup
  split
  · trivial
  · split
    · next addr hpage =>
        refine (readAtFinish_work c r addr _).mono (fun _ _ h => h)
          fun c' _ heq => ?_
        rw [heq]
        omega
    · split
      · simp only [Flow.Ensures, ReadAtPc.work]
        omega
      · simp only [readAtFetch, Flow.Ensures, ReadAtPc.work, enqueue]
        omega

/-- The resumption of `read_at` uses up work. -/
theorem readAtResume_work {pc : ReadAtPc}
    {x : Cache × Flow ReadAtPc (Except Errc (List Byte))}
    (hx : c.readAtResume r pc reply = some x)
    (hcalm : (Task.readAt r pc).Calm)
    (hsize : ∀ page ∈ pc.held, (c.heap page).size ≤ c.pageSize)
    (hreply : ∀ n, reply = .written (.ok n) → 0 < n) :
    Flow.Ensures x
      (fun c' pc' => pageWork c.pageSize * c'.lru.length +
        pc'.work c.pageSize + 1 <
          pageWork c.pageSize * c.lru.length + pc.work c.pageSize)
      (fun c' _ => pageWork c.pageSize * c'.lru.length <
        pageWork c.pageSize * c.lru.length + pc.work c.pageSize) := by
  have hfail : ∀ (c' : Cache) (err : Errc), c'.lru = c.lru →
      0 < pc.work c.pageSize →
      Flow.Ensures (c'.readAtError r err)
        (fun c' pc' => pageWork c.pageSize * c'.lru.length +
          pc'.work c.pageSize + 1 <
            pageWork c.pageSize * c.lru.length + pc.work c.pageSize)
        (fun c' _ => pageWork c.pageSize * c'.lru.length <
          pageWork c.pageSize * c.lru.length + pc.work c.pageSize) := by
    intro c' err hlru hpos
    simp only [readAtError, Flow.Ensures, modifyEntry_lru, hlru]
    omega
  unfold readAtResume at hx
  split at hx
  · dsimp only at hx
    split at hx
    · next fut hqueue =>
        obtain rfl := Option.some.inj hx
        simp only [Flow.Ensures, modifyEntry_lru, ReadAtPc.work]
        omega
    · obtain rfl := Option.some.inj hx
      have hlookup := readAtLookup_work
        (c.modifyEntry r.id (addReadInflight 1)) r
        (pageWork c.pageSize * c.lru.length +
          ReadAtPc.work c.pageSize .start) (by
          simp only [modifyEntry_lru, modifyEntry_pageSize, ReadAtPc.work]
          omega)
      simpa only [modifyEntry_pageSize] using hlookup
  · next fut => exact hcalm.elim
  · next fd =>
      obtain rfl := Option.some.inj hx
      simp only [readAtFetch, Flow.Ensures, ReadAtPc.work, enqueue,
        modifyEntry_lru]
      omega
  · next err =>
      obtain rfl := Option.some.inj hx
      exact hfail c err rfl (Nat.succ_pos _)
  · next fd fut bytes =>
      split at hx
      · obtain rfl := Option.some.inj hx
        exact hfail _ _ rfl (Nat.succ_pos _)
      · obtain rfl := Option.some.inj hx
        unfold readAtInsert
        dsimp only
        split
        · trivial
        · next addr hslot =>
            have hexcess := evictExcess_work
              (((c.emplaceFront (c.fetchedPage r.key bytes)).setPromise fut
                ⟨0⟩).dequeue r.key) (.evicting addr)
              (fun c => c.readAtFinish r addr) (ReadAtPc.work c.pageSize)
              (pageWork c.pageSize * c.lru.length +
                ReadAtPc.work c.pageSize (.fetching fd fut)) (by
                intro pc
                simp [ReadAtPc.work, setPromise, dequeue])
              (fun c' await => readAtFinish_work c' r addr await) (by
                simp only [setPromise, dequeue, emplaceFront_lru,
                  emplaceFront_pageSize, List.length_cons, Nat.mul_succ,
                  ReadAtPc.work]
                omega)
            simpa [setPromise, dequeue] using hexcess
  · next fd fut err =>
      obtain rfl := Option.some.inj hx
      exact hfail _ _ rfl (Nat.succ_pos _)
  · next addr epc =>
      obtain ⟨y, hy, rfl⟩ := Option.map_eq_some_iff.mp hx
      have hevict := evictResume_work hy (fun page fut h => hcalm page fut h)
        (hsize epc.page (Multiset.mem_singleton_self _)) hreply
      refine Flow.Ensures.andThen (hevict.mono (fun c' pc' h => ?_)
        fun c' _ h => ?_)
      · simp only [ReadAtPc.work]
        omega
      · refine (readAtFinish_work c' r addr _).mono (fun _ _ h => h)
          fun c'' _ heq => ?_
        have hmul := Nat.mul_le_mul_left (pageWork c.pageSize) h
        simp only [ReadAtPc.work]
        rw [heq]
        omega
  · cases hx

/-- The resumption of `write_at` uses up work. -/
theorem writeAtResume_work {input : List Byte} {pc : WriteAtPc}
    {x : Cache × Flow WriteAtPc (Except Errc Nat)}
    (hx : c.writeAtResume r input pc reply = some x)
    (hcalm : (Task.writeAt r input pc).Calm)
    (hsize : ∀ page ∈ pc.held, (c.heap page).size ≤ c.pageSize)
    (hreply : ∀ n, reply = .written (.ok n) → 0 < n) :
    Flow.Ensures x
      (fun c' pc' => pageWork c.pageSize * c'.lru.length +
        pc'.work c.pageSize + 1 <
          pageWork c.pageSize * c.lru.length + pc.work c.pageSize)
      (fun c' _ => pageWork c.pageSize * c'.lru.length <
        pageWork c.pageSize * c.lru.length + pc.work c.pageSize) := by
  unfold writeAtResume at hx
  split at hx
  · split at hx
    · next fut hqueue =>
        obtain rfl := Option.some.inj hx
        simp only [Flow.Ensures, WriteAtPc.work]
        omega
    · obtain rfl := Option.some.inj hx
      unfold writeAtLookup
      split
      · trivial
      · split
        · next addr hpage =>
            refine (writeAtFinish_work c r input addr _).mono (fun _ _ h => h)
              fun c' _ heq => ?_
            simp only [WriteAtPc.work]
            rw [heq]
            omega
        · have hexcess := evictExcess_work
            (c.emplaceFront (c.emptyPage r.key)) (.evicting c.nextAddr)
            (fun c' => c'.writeAtFinish r input c.nextAddr)
            (WriteAtPc.work c.pageSize)
            (pageWork c.pageSize * c.lru.length +
              WriteAtPc.work c.pageSize .start) (by
              intro pc
              simp [WriteAtPc.work])
            (fun c' await => writeAtFinish_work c' r input _ await) (by
              simp only [emplaceFront_lru, emplaceFront_pageSize,
                List.length_cons, Nat.mul_succ, WriteAtPc.work]
              omega)
          rw [emplaceFront_pageSize] at hexcess
          exact hexcess
  · next fut => exact hcalm.elim
  · next addr epc =>
      obtain ⟨y, hy, rfl⟩ := Option.map_eq_some_iff.mp hx
      have hevict := evictResume_work hy (fun page fut h => hcalm page fut h)
        (hsize epc.page (Multiset.mem_singleton_self _)) hreply
      refine Flow.Ensures.andThen (hevict.mono (fun c' pc' h => ?_)
        fun c' _ h => ?_)
      · simp only [WriteAtPc.work]
        omega
      · refine (writeAtFinish_work c' r input addr _).mono (fun _ _ h => h)
          fun c'' _ heq => ?_
        have hmul := Nat.mul_le_mul_left (pageWork c.pageSize) h
        simp only [WriteAtPc.work]
        rw [heq]
        omega
  · cases hx

theorem remaining_of_lookup {id : Id} {entry : LookupEntry}
    (hentry : c.lookup id = some entry) (p : Nat → Bool) :
    c.remaining id p = (entry.indices.filter p).length := by
  rw [remaining, hentry]
  rfl

/-- The loop of `flush` leaves the list and the page tables, and suspends at
one of its indices. -/
theorem flushLoop_frame (id : Id) (indices : List Nat) (c : Cache) :
    Flow.Ensures (flushLoop id indices c)
      (fun c' pc => c'.lru = c.lru ∧ c'.table = c.table ∧
        ∃ index addr fd fpc, pc = .flushing index addr fd fpc ∧
          index ∈ indices)
      (fun c' _ => c'.lru = c.lru) := by
  induction indices generalizing c with
  | nil =>
      unfold flushLoop
      exact modifyEntry_lru c id _
  | cons index rest ih =>
      rcases flushLoop_round id index rest c with
        hcrash | ⟨addr, fd, pc, heq⟩ | ⟨c₁, heq, -, -, hlru, htable⟩
      · generalize flushLoop id (index :: rest) c = x at hcrash ⊢
        obtain ⟨c', flow⟩ := x
        obtain rfl : flow = .crash := hcrash
        trivial
      · rw [heq]
        exact ⟨rfl, rfl, index, addr, fd, pc, rfl, List.mem_cons_self⟩
      · rw [heq]
        refine (ih c₁).mono (fun c' pc h => ?_) fun c' _ h => h.trans hlru
        obtain ⟨hlru', htable', index', addr, fd, fpc, rfl, hmem⟩ := h
        exact ⟨hlru'.trans hlru, htable'.trans htable, index', addr, fd, fpc,
          rfl, List.mem_cons_of_mem _ hmem⟩

theorem length_filter_lt {indices : List Nat} {index : Nat}
    (hmem : index ∈ indices) (p : Nat → Bool) (hp : p index = true)
    (hsub : ∀ k, index < k → p k = true) :
    (indices.filter (index < ·)).length < (indices.filter p).length := by
  induction indices with
  | nil => cases hmem
  | cons head rest ih =>
      have hle : ((rest.filter (index < ·)).length) ≤
          (rest.filter p).length := by
        apply List.Sublist.length_le
        apply List.monotone_filter_right
        intro k hk
        exact hsub k (of_decide_eq_true hk)
      rcases List.mem_cons.mp hmem with rfl | hrest
      · rw [List.filter_cons_of_neg (by simp), List.filter_cons_of_pos hp,
          List.length_cons]
        omega
      · have hlt := ih hrest
        by_cases hhead : index < head
        · rw [List.filter_cons_of_pos (by simpa using hhead),
            List.filter_cons_of_pos (hsub head hhead), List.length_cons,
            List.length_cons]
          omega
        · rw [List.filter_cons_of_neg (by simpa using hhead)]
          by_cases hphead : p head = true
          · rw [List.filter_cons_of_pos hphead, List.length_cons]
            omega
          · rw [List.filter_cons_of_neg hphead]
            exact hlt

/-- How `flush` reaches its loop, in terms of the work left. -/
theorem FlushEnters.work {id : Id} {pc : FlushPc} {c₁ : Cache}
    {indices : List Nat} (henter : FlushEnters c id pc reply c₁ indices) :
    c₁.lru = c.lru ∧ c₁.pageSize = c.pageSize ∧
      (∃ entry p, c₁.lookup id = some entry ∧
        indices = entry.indices.filter p ∧
        ∀ k index, p k = true → k < index → p index = true) ∧
      pageWork c.pageSize * indices.length + 4 ≤ pc.work c id := by
  have hall : ∀ entry : LookupEntry,
      entry.indices = entry.indices.filter fun _ => true := by
    intro entry
    exact (List.filter_true entry.indices).symm
  cases henter with
  | start entry fd hentry hdirty hfd =>
      refine ⟨by simp, by simp, ⟨addWriteInflight 1 entry, fun _ => true, ?_,
        hall entry, fun _ _ _ _ => rfl⟩, ?_⟩
      · rw [lookup_modifyEntry, if_pos rfl, hentry]
        rfl
      · rw [FlushPc.work, remaining_of_lookup hentry, ← hall entry]
        omega
  | opened entry fd hentry =>
      refine ⟨by simp, by simp, ⟨addWriteInflight 1 (setWriteFd (some fd)
        entry), fun _ => true, ?_, hall entry, fun _ _ _ _ => rfl⟩, ?_⟩
      · rw [lookup_modifyEntry, if_pos rfl, lookup_modifyEntry, if_pos rfl,
          hentry]
        rfl
      · have hpos : 0 < pageWork c.pageSize := Nat.succ_pos _
        rw [FlushPc.work, remaining_of_lookup hentry, ← hall entry]
        omega
  | sent entry index addr fd fpc reply hentry hslot hmem htook hsent =>
      refine ⟨rfl, rfl, ⟨entry, (index < ·), hentry, rfl, ?_⟩, ?_⟩
      · intro k index' hk hlt
        simp only [decide_eq_true_eq] at hk ⊢
        omega
      · simp only [FlushPc.work, remaining_of_lookup hentry]
        cases fpc <;> simp only [FlushAtPc.work] <;> omega

/-- The resumption of `flush` uses up work. -/
theorem FlushStep.work {id : Id} {pc : FlushPc}
    {flow : Flow FlushPc (Except Errc Unit)}
    (hstep : FlushStep c id pc reply c' flow)
    (hcalm : (Task.flush id pc).Calm)
    (hsize : ∀ index page, c.slot ⟨id, index⟩ = some page → page ∈ c.lru →
      (c.heap page).size ≤ c.pageSize)
    (hreply : ∀ n, reply = .written (.ok n) → 0 < n) (hflow : flow ≠ .crash) :
    (∀ pc', flow = .await pc' → pageWork c'.pageSize * c'.lru.length +
      pc'.work c' id + 1 <
        pageWork c.pageSize * c.lru.length + pc.work c id) ∧
    (∀ res, flow = .done res → pageWork c.pageSize * c'.lru.length <
      pageWork c.pageSize * c.lru.length + pc.work c id) := by
  cases hstep with
  | crash => exact absurd rfl hflow
  | nothing hclean =>
      refine ⟨fun _ h => (by cases h), fun _ _ => ?_⟩
      simp only [FlushPc.work]
      omega
  | «open» entry hentry hdirty hfd =>
      refine ⟨?_, fun _ h => (by cases h)⟩
      rintro pc' h
      obtain rfl := Flow.await.inj h
      simp only [FlushPc.work]
      omega
  | openFail err =>
      refine ⟨fun _ h => (by cases h), fun _ _ => ?_⟩
      simp only [FlushPc.work]
      omega
  | send index addr fd fpc _ hslot hmem htook hmore =>
      refine ⟨?_, fun _ h => (by cases h)⟩
      rintro pc' h
      obtain rfl := Flow.await.inj h
      have hpage := hsize index addr hslot hmem
      cases fpc with
      | queued fut => exact absurd rfl (hcalm addr fut)
      | writing written len =>
          unfold Took at htook
          split at htook
          · next heq => cases heq
          · next written' len' n heq =>
              obtain ⟨rfl, rfl⟩ := FlushAtPc.writing.inj heq
              have hn := hreply n rfl
              simp only [FlushAtPc.sent] at hmore
              simp only [FlushPc.work, FlushAtPc.work, FlushAtPc.sent]
              omega
          · exact htook.elim
  | refused index addr fd fpc _ err hrefused =>
      refine ⟨fun _ h => (by cases h), fun _ _ => ?_⟩
      simp only [FlushPc.work, modifyEntry_lru]
      cases fpc <;> simp only [FlushAtPc.work] <;> omega
  | loop pc _ c₁ indices henter hruns =>
      obtain ⟨hlru, hpageSize, ⟨entry, p, hentry, rfl, hp⟩, hwork⟩ :=
        henter.work
      have hframe := flushLoop_frame id (entry.indices.filter p) c₁
      generalize hloop : flushLoop id (entry.indices.filter p) c₁ = x at *
      obtain ⟨c₂, flow'⟩ := x
      refine ⟨?_, ?_⟩
      · rintro pc' h
        obtain rfl : flow' = .await pc' := h
        obtain ⟨hlru', htable', index, addr, fd, fpc, rfl, hmem⟩ := hframe
        have hindex := List.mem_filter.mp hmem
        have hlt := length_filter_lt hindex.1 p hindex.2
          fun k hk => hp index k hindex.2 hk
        have hentry' : c₂.lookup id = some entry := by
          rw [lookup, htable']
          exact hentry
        have hsize' : c₂.pageSize = c.pageSize := by
          cases hruns with
          | await _ _ _ _ _ _ hmoves hslot hmem' hfresh hentry hfd =>
              exact ((hmoves 0).acts ⟨fun _ _ _ => True, fun _ _ => True,
                fun _ _ => True, True, fun _ _ => True⟩).keepsData.pageSize.trans hpageSize
        have hnew : FlushPc.work c₂ id (.flushing index addr fd fpc) =
            pageWork c.pageSize * (entry.indices.filter (index < ·)).length +
              fpc.work c.pageSize := by
          rw [FlushPc.work, remaining_of_lookup hentry', hsize']
        change pageWork c₂.pageSize * c₂.lru.length +
          FlushPc.work c₂ id (.flushing index addr fd fpc) + 1 < _
        rw [hnew, hsize', hlru', hlru]
        have hmul := Nat.mul_le_mul_left (pageWork c.pageSize) hlt
        rw [Nat.mul_succ] at hmul
        have hfpc : fpc.work c.pageSize ≤ 2 * c.pageSize + 4 := by
          cases fpc <;> simp only [FlushAtPc.work] <;> omega
        have hpage : pageWork c.pageSize = 2 * c.pageSize + 8 := rfl
        omega
      · rintro res h
        obtain rfl : flow' = .done res := h
        have hlru' : c₂.lru = c₁.lru := hframe
        change pageWork c.pageSize * c₂.lru.length < _
        rw [hlru', hlru]
        omega

end

end Cache

namespace Task

/-- The work left when one task moves on and the others keep theirs. -/
theorem works_set (c c' : Cache) (replies : Nat → Option Reply)
    (task' : Task) (reply : Option Reply) {tasks : List Task} {i : Nat}
    {task : Task}
    (htask : tasks[i]? = some task)
    (hothers : ∀ (j : Nat) (task₁ : Task), j ≠ i →
      tasks[j]? = some task₁ → task₁.work c' (replies j) = task₁.work c (replies j)) :
    works c' (Function.update replies i reply) (tasks.set i task') +
        task.work c (replies i) =
      works c replies tasks + task'.work c' reply := by
  induction tasks generalizing i replies with
  | nil => cases htask
  | cons head rest ih =>
      cases i with
      | zero =>
          obtain rfl := Option.some.inj htask
          have hrest : ∀ (rest : List Task) (replies' : Nat → Option Reply),
              (∀ (j : Nat) (task₁ : Task), rest[j]? = some task₁ →
                task₁.work c' (replies' j) = task₁.work c (replies' j)) →
              works c' replies' rest = works c replies' rest := by
            intro rest
            induction rest with
            | nil => exact fun _ _ => rfl
            | cons head rest ih =>
                intro replies' h
                have hhead := h 0 head rfl
                have htail := ih (fun i => replies' (i + 1))
                  fun j task₁ hj => h (j + 1) task₁ hj
                simp only [works, hhead, htail]
          have htail := hrest rest (fun i => replies (i + 1))
            fun j task₁ hj => hothers (j + 1) task₁ (by omega) hj
          simp only [List.set_cons_zero, works, Function.update_self]
          rw [show (fun i => Function.update replies 0 reply (i + 1)) =
            fun i => replies (i + 1) from funext fun i =>
              Function.update_of_ne (by omega) _ _, htail]
          omega
      | succ i =>
          have hhead := hothers 0 head (by omega) rfl
          have htail := ih (i := i) (fun j => replies (j + 1))
            htask fun j task₁ hne hj =>
              hothers (j + 1) task₁ (by omega) hj
          simp only [List.set_cons_succ, works]
          rw [show (fun j => Function.update replies (i + 1) reply (j + 1)) =
            Function.update (fun j => replies (j + 1)) i reply from
              funext fun j => by
                by_cases heq : j = i
                · subst heq
                  rw [Function.update_self, Function.update_self]
                · rw [Function.update_of_ne heq,
                    Function.update_of_ne (by omega)],
            Function.update_of_ne (by omega), hhead]
          omega

/-- The request of a task is part of its work. -/
theorem work_answer {c : Cache} {task : Task} {request : Request}
    (hplain : task.Plain) (hrequest : task.request c = some request)
    (reply : Reply) : task.work c (some reply) < task.work c none := by
  cases task with
  | readAt r pc => simp [work]
  | writeAt r input pc => simp [work]
  | flush id pc => simp [work]
  | didRead r res => cases hrequest
  | didWrite r res => cases hrequest
  | finished res => cases hrequest
  | _ => exact hplain.elim

/-- A task can go on: the device can answer its request, or it can be
resumed. -/
def Ready (c : Cache) (reply : Option Reply) (task : Task) : Prop :=
  (reply = none ∧ (task.request c).isSome) ∨
    (task.resume c (reply.getD .go)).isSome

/-- A suspended eviction can go on. -/
theorem evict_ready {S : Id → Prop} {c : Cache} {d : Device}
    {held : Multiset Addr} {reply : Option Reply} {pc : EvictPc}
    (hsound : c.Sound S d held) (hmem : pc.page ∈ held)
    (hwait : pc.wait.Sound S c d held reply)
    (hqueued : ∀ page fut, pc.wait ≠ .queued page fut) :
    (reply = none ∧ (evictRequest c pc).isSome) ∨
      (c.evictResume pc (reply.getD .go)).isSome := by
  cases pc with
  | opening page rest =>
      cases reply with
      | none =>
          refine .inl ⟨rfl, ?_⟩
          have hsome : (c.lookup (c.heap page).key.id).isSome :=
            hsound.layout.lookup_isSome (Cache.mem_live.mpr (.inr hmem))
          simpa [evictRequest] using hsome
      | some rep =>
          obtain ⟨fd, rfl, -⟩ := hwait.2 rep rfl
          exact .inr rfl
  | flushing page fd rest fpc =>
      cases fpc with
      | queued fut => exact absurd rfl (hqueued page fut)
      | writing written len =>
          cases reply with
          | none => exact .inl ⟨rfl, rfl⟩
          | some rep =>
              obtain ⟨n, -, -, rfl⟩ := hwait.2.2.2 rep rfl
              exact .inr rfl

theorem ready {S : Id → Prop} {c : Cache} {d : Device}
    {held : Multiset Addr} {reply : Option Reply} {task : Task}
    (hplain : task.Plain) (hnot : task.isDone = false) (hcalm : task.Calm)
    (hsound : c.Sound S d held) (hheld : ∀ page ∈ task.held, page ∈ held)
    (hwait : task.wait.Sound S c d held reply) : task.Ready c reply := by
  have hopen : ∀ id mode, (c.pathOf id).isSome →
      ((c.lookup id).map fun entry =>
        Request.open entry.path mode).isSome := by
    intro id mode hsome
    simpa [Cache.pathOf] using hsome
  cases task with
  | readAt r pc =>
      cases pc with
      | start =>
          obtain rfl : reply = none := hwait
          refine .inr ?_
          simp only [resume, Cache.readAtResume, Option.getD_none,
            Option.isSome_map]
          split <;> rfl
      | queued fut => exact hcalm.elim
      | opening =>
          cases reply with
          | none => exact .inl ⟨rfl, hopen r.id .read hwait.1⟩
          | some rep =>
              obtain ⟨fd, rfl, -⟩ := hwait.2 rep rfl
              exact .inr rfl
      | fetching fd fut =>
          cases reply with
          | none => exact .inl ⟨rfl, rfl⟩
          | some rep =>
              obtain ⟨bytes, rfl⟩ := hwait.2.2.2.2 rep rfl
              refine .inr ?_
              simp only [resume, Cache.readAtResume, Option.getD_some,
                Option.isSome_map]
              split <;> rfl
      | evicting addr epc =>
          rcases evict_ready hsound
              (hheld epc.page (Multiset.mem_singleton_self _)) hwait
              hcalm with hrequest | hresume
          · exact .inl hrequest
          · refine .inr ?_
            simpa only [resume, Cache.readAtResume, Option.isSome_map] using
              hresume
  | writeAt r input pc =>
      cases pc with
      | start =>
          obtain rfl : reply = none := hwait
          refine .inr ?_
          simp only [resume, Cache.writeAtResume, Option.getD_none,
            Option.isSome_map]
          split <;> rfl
      | queued fut => exact hcalm.elim
      | evicting addr epc =>
          rcases evict_ready hsound
              (hheld epc.page (Multiset.mem_singleton_self _)) hwait
              hcalm with hrequest | hresume
          · exact .inl hrequest
          · refine .inr ?_
            simpa only [resume, Cache.writeAtResume, Option.isSome_map] using
              hresume
  | flush id pc =>
      cases pc with
      | start =>
          obtain rfl : reply = none := hwait
          exact .inr rfl
      | opening =>
          cases reply with
          | none => exact .inl ⟨rfl, hopen id .write hwait.1⟩
          | some rep =>
              obtain ⟨fd, rfl, -⟩ := hwait.2 rep rfl
              exact .inr rfl
      | flushing index addr fd fpc =>
          cases fpc with
          | queued fut => exact absurd rfl (hcalm addr fut)
          | writing written len =>
              by_cases hvalid : c.slot ⟨id, index⟩ = some addr ∧ addr ∈ c.lru
              · cases reply with
                | none =>
                    refine .inl ⟨rfl, ?_⟩
                    simp only [request, flushRequest, if_pos hvalid,
                      flushAtRequest]
                    rfl
                | some rep =>
                    obtain ⟨n, -, -, rfl⟩ := hwait.2.2.2 rep rfl
                    refine .inr ?_
                    simp only [resume, Cache.flushResume, if_pos hvalid,
                      Cache.flushAtResume, Option.getD_some,
                      Option.isSome_map]
                    rfl
              · refine .inr ?_
                simp only [resume, Cache.flushResume, if_neg hvalid,
                  Option.isSome_map]
                rfl
  | didRead r res => cases hnot
  | didWrite r res => cases hnot
  | finished res => cases hnot
  | _ => exact hplain.elim

end Task

namespace World

section

variable {S : Id → Prop} {w w' : World} {i : Nat}

theorem Serial.exec_work (hserial : w.Serial S) {accept : Nat}
    (hexec : w.exec i accept = some w') : w'.work < w.work := by
  obtain ⟨task, request, htask, hrequest, hnone, rfl⟩ := exec_cases hexec
  have hplain := hserial.kept.sound.plain task (List.mem_of_getElem? htask)
  have hset := Task.works_set w.pool.cache w.pool.cache w.replies task
    (some (w.device.exec accept request).2) htask
    fun j task₁ _ _ => rfl
  have hless := Task.work_answer hplain hrequest
    (w.device.exec accept request).2
  have hsame : w.pool.tasks.set i task = w.pool.tasks := by
    apply List.ext_getElem?
    intro j
    rw [List.getElem?_set]
    split_ifs with heq hlt
    · rw [← heq, htask]
    · exact absurd (List.getElem?_eq_some_iff.mp htask).1 (heq ▸ hlt)
    · rfl
  rw [hsame, hnone] at hset
  simp only [work]
  omega

/-- What the answers in a serial run are. -/
theorem Serial.reply_pos (hserial : w.Serial S) {task : Task}
    (htask : w.pool.tasks[i]? = some task) {n : Nat}
    (hreply : (w.replies i).getD .go = .written (.ok n)) : 0 < n := by
  have hsome := Cache.getD_eq_of_ne_go hreply fun h => by cases h
  have hwait := hserial.kept.sound.waits i task htask
  generalize task.wait = wait at hwait
  cases wait with
  | other =>
      have hnone : w.replies i = none := hwait
      rw [hnone] at hsome
      cases hsome
  | opening id =>
      obtain ⟨fd, h, -⟩ := hwait.2 _ hsome
      cases h
  | openingPage page =>
      obtain ⟨fd, h, -⟩ := hwait.2 _ hsome
      cases h
  | fetching key fd fut =>
      obtain ⟨bytes, h⟩ := hwait.2.2.2.2 _ hsome
      cases h
  | queued page fut =>
      rw [hwait.2.1] at hsome
      cases hsome
  | sending page fd written len =>
      obtain ⟨n', hpos, -, h⟩ := hwait.2.2.2 _ hsome
      obtain rfl := Except.ok.inj (Reply.written.inj h)
      exact hpos

theorem Serial.resume_work (hserial : w.Serial S)
    (hresume : w.resume i = some w') (hintact : w'.Intact) :
    w'.work < w.work := by
  obtain ⟨task, c', task', others, hres⟩ :=
    hserial.resumption hresume hintact
  obtain ⟨task₀, c₀, task₀', htask₀, hstep, -, hworld⟩ :=
    hintact.resume_cases hresume
  obtain rfl := Option.some.inj (hres.task_eq.symm.trans htask₀)
  have hpool := congrArg World.pool (hres.world_eq.symm.trans hworld)
  obtain ⟨rfl, htasks, -⟩ := Pool.mk.inj hpool
  have htask' : task' = task₀' := by
    have h := congrArg (fun tasks : List Task => tasks[i]?) htasks
    simpa [List.getElem?_set_self hres.lt_length] using h
  subst htask'
  have hmem := List.mem_of_getElem? hres.task_eq
  have hcalm := hserial.calm task hmem
  have hsizes : ∀ page ∈ w.pool.cache.live (task.held + others),
      (w.pool.cache.heap page).size ≤ w.pool.cache.pageSize :=
    fun page hlive => (hres.sound.wf page hlive).size_le
  have hheld : ∀ page ∈ task.held,
      (w.pool.cache.heap page).size ≤ w.pool.cache.pageSize :=
    fun page hpage => hsizes page (Cache.mem_live.mpr
      (.inr (Multiset.mem_add.mpr (.inl hpage))))
  have hreply : ∀ n, (w.replies i).getD .go = .written (.ok n) → 0 < n :=
    fun n h => hserial.reply_pos hres.task_eq h
  have hpageSize : c'.pageSize = w.pool.cache.pageSize :=
    hres.keeps.pageSize
  have hset := Task.works_set w.pool.cache c' w.replies task' none
    hres.task_eq
    (fun j task₁ hne hj => by
      have hapart := hserial.apart i j task task₁ (Ne.symm hne) hres.task_eq hj
      cases task₁ with
      | readAt r pc => simp only [Task.work, hpageSize]
      | writeAt r input pc => simp only [Task.work, hpageSize]
      | flush id pc =>
          have hdone := hapart.done_of_flush
          rw [hres.resumes.not_done] at hdone
          cases hdone
      | _ => rfl)
  have hless : pageWork c'.pageSize * c'.lru.length + task'.work c' none <
      pageWork w.pool.cache.pageSize * w.pool.cache.lru.length +
        task.work w.pool.cache (w.replies i) := by
    have hresumes := hres.resumes
    cases hresumes with
    | readAwait r pc pc' _ _ =>
        obtain ⟨⟨c₁, flow⟩, hx, heq⟩ := Option.map_eq_some_iff.mp hstep
        have hwork := Cache.readAtResume_work hx hcalm hheld hreply
        cases flow with
        | await pc₁ =>
            obtain ⟨rfl, h⟩ := Prod.mk.inj heq
            obtain ⟨-, rfl⟩ := Task.readAt.inj h
            simp only [Task.work, hpageSize, Option.isNone_none, ↓reduceIte]
            exact Nat.lt_of_lt_of_le hwork (by omega)
        | done value => cases (Prod.mk.inj heq).2
        | crash => cases (Prod.mk.inj heq).2
    | readDone r pc _ res _ =>
        obtain ⟨⟨c₁, flow⟩, hx, heq⟩ := Option.map_eq_some_iff.mp hstep
        have hwork := Cache.readAtResume_work hx hcalm hheld hreply
        cases flow with
        | await pc₁ => cases (Prod.mk.inj heq).2
        | done value =>
            obtain ⟨rfl, -⟩ := Prod.mk.inj heq
            simp only [Task.work, hpageSize]
            exact Nat.lt_of_lt_of_le hwork (by omega)
        | crash => cases (Prod.mk.inj heq).2
    | writeAwait r input pc pc' _ _ =>
        obtain ⟨⟨c₁, flow⟩, hx, heq⟩ := Option.map_eq_some_iff.mp hstep
        have hwork := Cache.writeAtResume_work hx hcalm hheld hreply
        cases flow with
        | await pc₁ =>
            obtain ⟨rfl, h⟩ := Prod.mk.inj heq
            obtain ⟨-, -, rfl⟩ := Task.writeAt.inj h
            simp only [Task.work, hpageSize, Option.isNone_none, ↓reduceIte]
            exact Nat.lt_of_lt_of_le hwork (by omega)
        | done value => cases (Prod.mk.inj heq).2
        | crash => cases (Prod.mk.inj heq).2
    | writeDone r input pc _ res _ =>
        obtain ⟨⟨c₁, flow⟩, hx, heq⟩ := Option.map_eq_some_iff.mp hstep
        have hwork := Cache.writeAtResume_work hx hcalm hheld hreply
        cases flow with
        | await pc₁ => cases (Prod.mk.inj heq).2
        | done value =>
            obtain ⟨rfl, -⟩ := Prod.mk.inj heq
            simp only [Task.work, hpageSize]
            exact Nat.lt_of_lt_of_le hwork (by omega)
        | crash => cases (Prod.mk.inj heq).2
    | flushAwait id pc pc' _ hflush =>
        have hwork := (hflush.work hcalm (fun _ page _ hpage => hsizes page
          (Cache.mem_live_of_mem_lru hpage)) hreply fun h => by cases h).1 pc'
            rfl
        simp only [Task.work, Option.isNone_none, ↓reduceIte]
        exact Nat.lt_of_lt_of_le hwork (by omega)
    | flushDone id pc _ res hflush =>
        have hwork := (hflush.work hcalm (fun _ page _ hpage => hsizes page
          (Cache.mem_live_of_mem_lru hpage)) hreply fun h => by cases h).2 res
            rfl
        simp only [Task.work, hpageSize]
        exact Nat.lt_of_lt_of_le hwork (by omega)
  rw [hres.world_eq]
  simp only [work]
  omega

/-- A step that is not a call uses up work. -/
theorem Serial.work_lt {event : Event} (hstep : w.step event = some w')
    (hguard : w.OneAtATime event w' ∧ event.isCall = false)
    (hserial : w.Serial S) : w'.work < w.work := by
  cases event with
  | call call => cases hguard.2
  | exec i accept => exact hserial.exec_work hstep
  | resume i => exact hserial.resume_work hstep hguard.1

/-- A run without calls is bounded by the work that is left. -/
theorem Serial.length_le {events : List Event}
    (hruns : Runs World.step (fun w event w' =>
      w.OneAtATime event w' ∧ event.isCall = false) w events w')
    (hserial : w.Serial S) : events.length ≤ w.work :=
  hruns.length_le (I := Serial S)
    (fun hstep hguard hserial => hserial.step hstep hguard.1)
    (fun hstep hguard hserial => hserial.work_lt hstep hguard) hserial

/-- While an operation is in progress, some step other than a call is
possible. -/
theorem Serial.enabled (hserial : w.Serial S) (hbusy : ¬ w.pool.Idle) :
    ∃ event w', event.isCall = false ∧ w.step event = some w' := by
  unfold Pool.Idle at hbusy
  push Not at hbusy
  obtain ⟨task, hmem, hnot⟩ := hbusy
  obtain ⟨i, htask⟩ := List.mem_iff_getElem?.mp hmem
  have hsound := hserial.kept.sound
  have hready := Task.ready (hsound.plain task hmem) (by simpa using hnot)
    (hserial.calm task hmem) hsound.cache
    (fun page hpage => Task.held_le_heldAll htask hpage)
    (hsound.waits i task htask)
  rcases hready with ⟨hnone, hrequest⟩ | hresume
  · obtain ⟨request, hrequest⟩ := Option.isSome_iff_exists.mp hrequest
    have hexec : ∃ w', w.exec i 0 = some w' := by
      simp only [World.exec, hnone, htask, Option.bind_some, hrequest]
      exact ⟨_, rfl⟩
    obtain ⟨w', hexec⟩ := hexec
    exact ⟨.exec i 0, w', rfl, hexec⟩
  · obtain ⟨⟨c', task'⟩, hresume⟩ := Option.isSome_iff_exists.mp hresume
    have hstep : ∃ w', w.resume i = some w' := by
      simp only [World.resume, Pool.resume, htask, Option.bind_some, hresume,
        Option.map_some]
      exact ⟨_, rfl⟩
    obtain ⟨w', hstep⟩ := hstep
    exact ⟨.resume i, w', rfl, hstep⟩

end

end World

end Madbfs
