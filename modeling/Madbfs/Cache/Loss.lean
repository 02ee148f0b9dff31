/-
What an eviction may lose.  A page leaves the list before it is known whether
the device takes it, and nothing brings it back.  So the eviction keeps every
byte if and only if nothing that it waits for fails and every page with changes
that it takes belongs to a file with an entry.
-/
import Madbfs.Cache.Capacity
import Madbfs.Cache.Trace

namespace Madbfs

open Bytes

namespace Cache

/-- The reply tells an eviction that it cannot send its page: the file was not
opened, a write failed, or the fetch that `flush_at` waits for did. -/
def Fails (c : Cache) : EvictPc × Reply → Prop
  | (.opening _ _, .opened (.error _)) => True
  | (.flushing _ _ _ pc, reply) => Refused c pc reply
  | _ => False

/-- Nothing that was changed in the cache `c` is lost after an eviction.  The
dirty pages that have left the list are with the device, and a page that could
not be sent is still there. -/
structure LosesNothing (c : Cache) (log : List (EvictPc × Reply)) (c' : Cache) :
    Prop where
  accepted : ∀ addr ∈ c.lru, addr ∉ c'.lru → (c.heap addr).dirty = true →
    ∀ pos < (c.heap addr).size, Accepted EvictPc.sends log addr pos
  kept : ∀ event ∈ log, Fails c event →
    event.1.page ∈ c'.lru ∧ (c'.heap event.1.page).dirty = true ∧
      c'.slot (c'.heap event.1.page).key = some event.1.page

/-- Nothing that an eviction waits for fails. -/
def NothingFails (c : Cache) (log : List (EvictPc × Reply)) : Prop :=
  ∀ event ∈ log, ¬ Fails c event

/-- No page with changes among the last `size` pages is without an entry. -/
def NoOrphan (c : Cache) (size : Nat) : Prop :=
  ∀ addr ∈ c.lru.drop (c.lru.length - size), (c.heap addr).dirty = true →
    0 < (c.heap addr).size → (c.lookup (c.heap addr).key.id).isSome

/-- The page had no changes, or they are with the device. -/
def Saved (c : Cache) (log : List (EvictPc × Reply)) (addr : Addr) : Prop :=
  (c.heap addr).dirty = false ∨
    ∀ pos < (c.heap addr).size, Accepted EvictPc.sends log addr pos

/-- An eviction of the cache `c` accounts for every page it has taken. -/
structure Accounted (c : Cache) (log : List (EvictPc × Reply))
    (s : Cache × Multiset Addr) : Prop where
  lru : s.1.lru <+: c.lru
  held : ∀ addr ∈ s.2, addr ∈ c.lru ∧ addr ∉ s.1.lru
  key : ∀ addr, (s.1.heap addr).key = (c.heap addr).key
  size : ∀ addr, (s.1.heap addr).size = (c.heap addr).size
  promises : s.1.promises = c.promises
  lookup : ∀ id, (s.1.lookup id).isSome = (c.lookup id).isSome
  clean : ∀ addr, (s.1.heap addr).dirty = false → Saved c log addr
  gone : ∀ addr ∈ c.lru, addr ∉ s.1.lru → addr ∉ s.2 →
    Saved c log addr ∨ c.lookup (c.heap addr).key.id = none ∨
      ∃ event ∈ log, event.1.page = addr ∧ Fails c event
  seen : ∀ event ∈ log, event.1.page ∈ c.lru ∧ event.1.page ∉ s.1.lru ∧
    (c.lookup (c.heap event.1.page).key.id).isSome

section

variable {c c₁ c₂ c' : Cache} {log : List (EvictPc × Reply)}
  {held : Multiset Addr} {addr : Addr}

theorem Saved.cons (hsaved : Saved c log addr) (event : EvictPc × Reply) :
    Saved c (event :: log) addr := by
  rcases hsaved with hclean | haccepted
  · exact .inl hclean
  · exact .inr fun pos hlt => (haccepted pos hlt).cons event

theorem accounted_refl (c : Cache) : Accounted c [] (c, 0) where
  lru := List.prefix_refl _
  held := fun addr h => absurd h (Multiset.notMem_zero addr)
  key := fun _ => rfl
  size := fun _ => rfl
  promises := rfl
  lookup := fun _ => rfl
  clean := fun _ hclean => .inl hclean
  gone := fun _ hmem hnot => absurd hmem hnot
  seen := fun _ h => by cases h

theorem Accounted.modifyEntry (hacc : Accounted c log (c₁, held)) (id : Id)
    (f : LookupEntry → LookupEntry) :
    Accounted c log (c₁.modifyEntry id f, held) := by
  have hlookup := lookup_isSome_modifyEntry c₁ id
  obtain ⟨hlru, hheld, hkey, hsize, hpromises, hsome, hclean, hgone, hseen⟩ :=
    hacc
  refine ⟨?_, ?_, ?_, ?_, ?_, ?_, ?_, ?_, ?_⟩ <;>
    simpa only [modifyEntry_lru, modifyEntry_heap, modifyEntry_promises,
      hlookup]

/-- A page is marked clean that has nothing to lose. -/
theorem Accounted.setClean (hacc : Accounted c log (c₁, held))
    (hsaved : Saved c log addr) :
    Accounted c log (c₁.setDirty addr false, held) := by
  have hheap := setDirty_heap c₁ addr
  obtain ⟨hlru, hheld, hkey, hsize, hpromises, hsome, hclean, hgone, hseen⟩ :=
    hacc
  refine ⟨hlru, hheld, ?_, ?_, hpromises, hsome, ?_, hgone, hseen⟩
  · intro addr'
    change ((c₁.setDirty addr false).heap addr').key = _
    rw [hheap]
    split_ifs <;> exact hkey addr'
  · intro addr'
    change ((c₁.setDirty addr false).heap addr').size = _
    rw [hheap]
    split_ifs <;> exact hsize addr'
  · intro addr' hclean'
    change ((c₁.setDirty addr false).heap addr').dirty = false at hclean'
    rw [hheap] at hclean'
    split_ifs at hclean' with heq
    · rw [heq]
      exact hsaved
    · exact hclean addr' hclean'

/-- A held page is given up for a reason. -/
theorem Accounted.release (hacc : Accounted c log (c₁, addr ::ₘ held))
    (hreason : Saved c log addr ∨
      ∃ event ∈ log, event.1.page = addr ∧ Fails c event) :
    Accounted c log (c₁, held) := by
  obtain ⟨hlru, hheld, hkey, hsize, hpromises, hsome, hclean, hgone, hseen⟩ :=
    hacc
  refine ⟨hlru, fun addr' hmem => hheld addr' (Multiset.mem_cons_of_mem hmem),
    hkey, hsize, hpromises, hsome, hclean, ?_, hseen⟩
  intro addr' hmem hnot hfree
  by_cases heq : addr' = addr
  · subst heq
    rcases hreason with hsaved | hfailed
    · exact .inl hsaved
    · exact .inr (.inr hfailed)
  · refine hgone addr' hmem hnot ?_
    intro hin
    rcases Multiset.mem_cons.mp hin with h | h
    · exact heq h
    · exact hfree h

theorem Accounted.move (hnodup : c.lru.Nodup) {s t : Cache × Multiset Addr}
    (hmove : Move s t) (hacc : Accounted c log s) : Accounted c log t := by
  have hlast : ∀ {c₁ : Cache} {held : Multiset Addr} {rest : List Addr}
      {addr : Addr}, Accounted c log (c₁, held) → c₁.lru = rest ++ [addr] →
      rest <+: c.lru ∧ addr ∈ c.lru ∧ addr ∉ rest ∧
        ∀ addr' ∉ rest, addr' = addr ∨ addr' ∉ c₁.lru := by
    intro c₁ held rest addr hacc hlru
    have hsub : c₁.lru <+: c.lru := hacc.lru
    have hnodup₁ := hnodup.sublist hsub.sublist
    rw [hlru, List.nodup_append] at hnodup₁
    refine ⟨List.IsPrefix.trans ⟨[addr], hlru.symm⟩ hsub,
      hsub.subset (by simp [hlru]), ?_, ?_⟩
    · exact fun hmem => hnodup₁.2.2 addr hmem addr (List.mem_singleton_self _)
        rfl
    · intro addr' hnot
      by_cases heq : addr' = addr
      · exact .inl heq
      · exact .inr (by simp [hlru, hnot, heq])
  cases hmove with
  | inflight c₁ held id n => exact hacc.modifyEntry id _
  | lose c₁ held rest addr hlru hentry =>
      obtain ⟨hrest, hmem, hnot, hcases⟩ := hlast hacc hlru
      obtain ⟨-, hheld, hkey, hsize, hpromises, hsome, hclean, hgone, hseen⟩ :=
        hacc
      refine ⟨hrest, fun addr' h => ⟨(hheld addr' h).1, fun hin =>
        (hheld addr' h).2 (by simp [hlru, hin])⟩, hkey, hsize, hpromises,
        hsome, hclean, ?_, fun event h => ⟨(hseen event h).1, fun hin =>
          (hseen event h).2.1 (by simp [hlru, hin]), (hseen event h).2.2⟩⟩
      intro addr' hmem' hout hfree
      rcases hcases addr' hout with rfl | hout'
      · refine .inr (.inl ?_)
        have hnone := hsome (c.heap addr').key.id
        rw [← show (c₁.heap addr').key = (c.heap addr').key from hkey addr']
          at hnone ⊢
        rw [hentry] at hnone
        exact Option.isNone_iff_eq_none.mp (by simpa using hnone.symm)
      · exact hgone addr' hmem' hout' hfree
  | pop c₁ held rest addr hlru =>
      obtain ⟨hrest, hmem, hnot, hcases⟩ := hlast hacc hlru
      obtain ⟨-, hheld, hkey, hsize, hpromises, hsome, hclean, hgone, hseen⟩ :=
        hacc
      refine ⟨hrest, ?_, hkey, hsize, hpromises, hsome, hclean, ?_,
        fun event h => ⟨(hseen event h).1, fun hin =>
          (hseen event h).2.1 (by simp [hlru, hin]), (hseen event h).2.2⟩⟩
      · intro addr' h
        rcases Multiset.mem_cons.mp h with rfl | h
        · exact ⟨hmem, hnot⟩
        · exact ⟨(hheld addr' h).1, fun hin =>
            (hheld addr' h).2 (by simp [hlru, hin])⟩
      · intro addr' hmem' hout hfree
        rcases hcases addr' hout with rfl | hout'
        · exact absurd (Multiset.mem_cons_self _ _) hfree
        · exact hgone addr' hmem' hout' fun h =>
            hfree (Multiset.mem_cons_of_mem h)
  | drop c₁ held addr hclean =>
      exact (hacc.release (.inl (hacc.clean addr hclean))).modifyEntry _ _
  | clean c₁ held addr hsize =>
      apply hacc.setClean
      refine .inr fun pos hlt => ?_
      rw [← hacc.size addr] at hlt
      change pos < (c₁.heap addr).size at hlt
      omega

theorem Accounted.moves (hnodup : c.lru.Nodup) {s t : Cache × Multiset Addr}
    (hmoves : Moves s t) (hacc : Accounted c log s) : Accounted c log t :=
  hmoves.preserves (fun hmove h => h.move hnodup hmove) hacc

/-- A reply is noted. -/
theorem Accounted.note {pc : EvictPc} (hacc : Accounted c log (c₁, {pc.page}))
    (hsome : (c.lookup (c.heap pc.page).key.id).isSome) (reply : Reply) :
    Accounted c ((pc, reply) :: log) (c₁, {pc.page}) := by
  have hpage := hacc.held pc.page (Multiset.mem_singleton_self _)
  obtain ⟨hlru, hheld, hkey, hsize, hpromises, hsome', hclean, hgone, hseen⟩ :=
    hacc
  refine ⟨hlru, hheld, hkey, hsize, hpromises, hsome',
    fun addr h => (hclean addr h).cons _, ?_, ?_⟩
  · intro addr hmem hnot hfree
    rcases hgone addr hmem hnot hfree with h | h | ⟨event, hevent, hrest⟩
    · exact .inl (h.cons _)
    · exact .inr (.inl h)
    · exact .inr (.inr ⟨event, List.mem_cons_of_mem _ hevent, hrest⟩)
  · intro event hevent
    rcases List.mem_cons.mp hevent with rfl | h
    · exact ⟨hpage.1, hpage.2, hsome⟩
    · exact hseen event h

/-- How a suspended eviction goes on. -/
theorem Accounted.next {pc : EvictPc} {reply : Reply} {start : Multiset Addr}
    (hbegin : EvictPrefix c₁ 0 pc reply c₂ start)
    (hacc : Accounted c log (c₁, {pc.page}))
    (hreached : Reached EvictPc.sends log pc)
    (hsome : (c.lookup (c.heap pc.page).key.id).isSome) :
    Accounted c ((pc, reply) :: log) (c₂, start) := by
  have hnote := hacc.note hsome reply
  cases hbegin with
  | opened addr rest fd => exact hnote.modifyEntry _ _
  | failed addr rest err =>
      refine Accounted.modifyEntry (hnote.release (.inr ?_)) _ _
      exact ⟨_, List.mem_cons_self, rfl, trivial⟩
  | sent addr fd rest pc' reply htook hsent =>
      refine hnote.setClean (.inr fun pos hlt => ?_)
      rw [← hacc.size addr] at hlt
      exact hreached.sent rfl htook pos (Nat.lt_of_lt_of_le hlt hsent)
  | unsent addr fd rest pc' reply hrefused =>
      refine Accounted.modifyEntry (Accounted.modifyEntry
        (hnote.release (.inr ?_)) _ _) _ _
      refine ⟨_, List.mem_cons_self, rfl, ?_⟩
      have hpromises : c₁.promises = c.promises := hacc.promises
      unfold Fails
      unfold Refused at hrefused ⊢
      rw [← hpromises]
      exact hrefused

/-- An eviction waits for a page of a file with an entry. -/
def HasEntry (c : Cache) (pc : EvictPc) : Prop :=
  (c.lookup (c.heap pc.page).key.id).isSome

theorem flushAt_hasEntry {fd : Fd} {rest : Nat}
    (hsome : (c.lookup (c.heap addr).key.id).isSome)
    {x : Cache × Flow FlushAtPc (Except Errc Unit)}
    (hx : x = c.flushAtLoop addr 0 ∨ ∃ fut, x = (c, .await (.queued fut)))
    (hnext : ∀ c', Flow.Ensures (evict rest c') HasEntry fun _ _ => True) :
    Flow.Ensures (evictFlush x addr fd rest (evict rest)) HasEntry
      fun _ _ => True := by
  rcases hx with rfl | ⟨fut, rfl⟩
  · unfold flushAtLoop evictFlush
    split
    · exact hsome
    · exact hnext _
  · exact hsome

theorem flushAt_cases (c : Cache) (addr : Addr) :
    c.flushAt addr = c.flushAtLoop addr 0 ∨
      ∃ fut, c.flushAt addr = (c, .await (.queued fut)) := by
  unfold flushAt
  split
  · next fut _ => exact .inr ⟨fut, rfl⟩
  · exact .inl rfl

theorem evict_hasEntry (size : Nat) (c : Cache) :
    Flow.Ensures (evict size c) HasEntry fun _ _ => True := by
  induction size generalizing c with
  | zero => trivial
  | succ size ih =>
      unfold evict
      split
      · trivial
      · next addr hlast =>
          dsimp only
          split
          · exact ih _
          · next entry hentry =>
              have hsome : ((modifyEntry { c with lru := c.lru.dropLast }
                  (c.heap addr).key.id (addWriteInflight 1)).lookup
                  (c.heap addr).key.id).isSome := by
                rw [lookup_isSome_modifyEntry, hentry]
                rfl
              split
              · split
                · change (lookup _ ((modifyEntry _ _ _).heap addr).key.id).isSome
                  rw [modifyEntry_heap]
                  exact hsome
                · refine flushAt_hasEntry ?_ (flushAt_cases _ _) ih
                  rw [modifyEntry_heap]
                  exact hsome
              · exact ih _

theorem evictResume_hasEntry {pc : EvictPc} {reply : Reply}
    {x : Cache × Flow EvictPc Unit} (hentry : HasEntry c pc)
    (hx : c.evictResume pc reply = some x) :
    Flow.Ensures x HasEntry fun _ _ => True := by
  unfold evictResume at hx
  split at hx
  · obtain rfl := Option.some.inj hx
    refine flushAt_hasEntry ?_ (flushAt_cases _ _) (evict_hasEntry _)
    rw [modifyEntry_heap, lookup_isSome_modifyEntry]
    exact hentry
  · obtain rfl := Option.some.inj hx
    exact evict_hasEntry _ _
  · obtain ⟨y, hy, rfl⟩ := Option.map_eq_some_iff.mp hx
    rcases flushAtResume_cases hy with ⟨-, rfl⟩ | ⟨-, err, rfl⟩
    · unfold flushAtLoop evictFlush
      split
      · exact hentry
      · exact evict_hasEntry _ _
    · exact evict_hasEntry _ _
  · cases hx

/-- The states of an eviction of `size` pages that runs alone. -/
def EvictTrace (c : Cache) (size : Nat) (t : Trace EvictPc Unit) : Prop :=
  Flow.Ensures (t.cache, t.flow)
    (fun c' pc => Accounted c t.log (c', {pc.page}) ∧ HasEntry c' pc ∧
      Reached EvictPc.sends t.log pc ∧
      c'.lru.length + size = c.lru.length + pc.rest)
    (fun c' _ => Accounted c t.log (c', 0) ∧
      c'.lru.length = c.lru.length - size)

theorem reached_of_evictFresh {pc : EvictPc} (hfresh : pc.Fresh c) :
    Reached EvictPc.sends log pc := by
  cases pc with
  | opening page rest => exact reached_of_none rfl
  | flushing page fd rest pc => exact reached_of_fresh rfl hfresh.1

theorem evictTrace_start (hnodup : c.lru.Nodup) (size : Nat) :
    EvictTrace c size (.start (evict size c)) := by
  have hruns := evict_evictRuns size c 0
  have hlength := evict_shorter size c
  have hentry := evict_hasEntry size c
  unfold Trace.start EvictTrace
  generalize evict size c = x at hruns hlength hentry
  obtain ⟨c', pc | _ | _⟩ := x
  · exact ⟨(accounted_refl c).moves hnodup hruns.1, hentry,
      reached_of_evictFresh hruns.2, hlength.2⟩
  · exact ⟨(accounted_refl c).moves hnodup hruns, hlength⟩
  · trivial

theorem EvictTrace.step (hnodup : c.lru.Nodup) {size : Nat}
    {t t' : Trace EvictPc Unit} {reply : Reply} (htrace : EvictTrace c size t)
    (hstep : t.step evictResume reply = some t') : EvictTrace c size t' := by
  obtain ⟨pc, x, hflow, hx, rfl⟩ := Trace.step_cases hstep
  unfold EvictTrace at htrace
  rw [hflow] at htrace
  obtain ⟨hacc, hentry, hreached, hlength⟩ := htrace
  have hsome : (c.lookup (c.heap pc.page).key.id).isSome := by
    have hkey : (t.cache.heap pc.page).key = (c.heap pc.page).key :=
      hacc.key pc.page
    rw [← hkey, ← hacc.lookup]
    exact hentry
  have hshorter := evictResume_shorter hx
  have hnext := evictResume_hasEntry hentry hx
  rcases evictResume_cases 0 hx with
    ⟨addr, fd, rest, fpc, rfl, htook, -, rfl⟩ | ⟨c₂, start, hbegin, hruns⟩
  · refine ⟨hacc.note hsome reply, hentry, ?_, hlength⟩
    intro addr' written hsends pos hlt
    obtain ⟨rfl, rfl⟩ := Prod.mk.inj (Option.some.inj hsends)
    exact hreached.sent rfl htook pos hlt
  · have hacc' := hacc.next hbegin hreached hsome
    unfold EvictTrace
    obtain ⟨c', pc' | _ | _⟩ := x
    · have hrounds : c'.lru.length + pc.rest = _ := hshorter
      have hlength' : c'.lru.length + size = c.lru.length + pc'.rest := by
        omega
      exact ⟨hacc'.moves hnodup hruns.1, hnext,
        reached_of_evictFresh hruns.2, hlength'⟩
    · have hrounds : c'.lru.length = _ := hshorter
      have hlength' : c'.lru.length = c.lru.length - size := by omega
      exact ⟨hacc'.moves hnodup hruns, hlength'⟩
    · trivial

/-- What an eviction that runs alone may lose.  Any cache, any number of pages
and any replies: the eviction keeps every changed byte, and every page that
could not be sent, if and only if nothing that it waits for fails and no page
with changes that it takes is without an entry. -/
theorem evict_losesNothing_iff (hnodup : c.lru.Nodup) {size : Nat}
    {replies : List Reply}
    (hruns : Trace.AnyRuns evictResume (.start (evict size c)) replies
      ⟨c', .done (), log⟩) :
    LosesNothing c log c' ↔ NothingFails c log ∧ NoOrphan c size := by
  obtain ⟨hacc, hlength⟩ : EvictTrace c size ⟨c', .done (), log⟩ :=
    hruns.preserves (fun hstep _ h => h.step hnodup hstep)
      (evictTrace_start hnodup size)
  have htake : c'.lru = c.lru.take (c.lru.length - size) := by
    rw [← hlength]
    exact List.prefix_iff_eq_take.mp hacc.lru
  constructor
  · rintro ⟨haccepted, hkept⟩
    refine ⟨fun event hevent hfails => ?_, fun addr hmem hdirty hpos => ?_⟩
    · exact (hacc.seen event hevent).2.1 (hkept event hevent hfails).1
    · have hnot : addr ∉ c'.lru := by
        rw [htake]
        rw [← List.take_append_drop (c.lru.length - size) c.lru,
          List.nodup_append] at hnodup
        exact fun h => hnodup.2.2 addr h addr hmem rfl
      obtain ⟨pc, written, n, hevent, hsends, -, -⟩ :=
        haccepted addr (List.mem_of_mem_drop hmem) hnot hdirty 0 hpos
      have hpage : pc.page = addr := by
        cases pc with
        | opening page rest => cases hsends
        | flushing page fd rest fpc =>
            cases fpc with
            | queued fut => cases hsends
            | writing written len =>
                exact (Prod.mk.inj (Option.some.inj hsends)).1
      have hseen := (hacc.seen _ hevent).2.2
      rw [hpage] at hseen
      exact hseen
  · rintro ⟨hfails, horphan⟩
    refine ⟨fun addr hmem hnot hdirty pos hlt => ?_,
      fun event hevent h => absurd h (hfails event hevent)⟩
    rcases hacc.gone addr hmem hnot (Multiset.notMem_zero addr) with
      hsaved | hnone | ⟨event, hevent, -, h⟩
    · rcases hsaved with hclean | haccepted
      · rw [hclean] at hdirty
        cases hdirty
      · exact haccepted pos hlt
    · have hdrop : addr ∈ c.lru.drop (c.lru.length - size) := by
        rw [← List.take_append_drop (c.lru.length - size) c.lru] at hmem
        rw [htake] at hnot
        exact (List.mem_append.mp hmem).resolve_left hnot
      have hsome := horphan addr hdrop hdirty (Nat.zero_lt_of_lt hlt)
      rw [hnone] at hsome
      cases hsome
    · exact absurd h (hfails event hevent)

end

end Cache

namespace Unsent

/-- A cache with one page, which has a byte that the device does not. -/
def cache : Cache :=
  { Cache.create 4 1 with
    lru := [0]
    heap := fun _ => ⟨⟨⟨1⟩, 0⟩, [7, 0, 0, 0], 1, 4, true⟩
    table := AList.singleton ⟨1⟩ { LookupEntry.create ["f"] with
      pages := AList.singleton 0 0
      dirty := true }
    nextAddr := 1 }

/-- What an eviction of the page waits for when nothing fails. -/
def sent : List (EvictPc × Reply) :=
  [(.flushing 0 3 0 (.writing 0 1), .written (.ok 1)),
    (.opening 0 0, .opened (.ok 3))]

theorem evict_losesNothing_iff_sent :
    ∃ c' : Cache, c'.lru = [] ∧ Cache.LosesNothing cache sent c' := by
  have hruns : ∃ c', Trace.AnyRuns Cache.evictResume
      (.start (Cache.evict 1 cache)) [.opened (.ok 3), .written (.ok 1)]
      ⟨c', .done (), sent⟩ ∧ c'.lru = [] :=
    ⟨_, .cons rfl trivial (.cons rfl trivial (.nil _)), rfl⟩
  obtain ⟨c', hruns, hlru⟩ := hruns
  refine ⟨c', hlru,
    (Cache.evict_losesNothing_iff (by decide) hruns).mpr ⟨?_, ?_⟩⟩
  · intro event hevent
    rcases List.mem_cons.mp hevent with rfl | hevent
    · exact id
    · obtain rfl := List.mem_singleton.mp hevent
      exact id
  · intro addr _ _ _
    rfl

/-- The page is lost when its file cannot be opened. -/
theorem evict_loses_page : ¬ ∀ (c c' : Cache) (size : Nat)
    (replies : List Reply) (log : List (EvictPc × Reply)),
    c.lru.Nodup → Trace.AnyRuns Cache.evictResume
      (.start (Cache.evict size c)) replies ⟨c', .done (), log⟩ →
    Cache.LosesNothing c log c' := by
  intro hall
  have hruns : Trace.AnyRuns Cache.evictResume
      (.start (Cache.evict 1 cache)) [.opened (.error Errc.ioError)]
      ⟨_, .done (), [(.opening 0 0, .opened (.error Errc.ioError))]⟩ :=
    .cons rfl trivial (.nil _)
  have hkeeps := hall cache _ 1 _ _ (by decide) hruns
  have hkept := (hkeeps.kept _ List.mem_cons_self trivial).1
  exact absurd hkept (by decide)

end Unsent

end Madbfs
