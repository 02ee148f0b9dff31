/-
What the operations of the cache use where they are suspended.  A read that
has begun uses the descriptor for reading of its file, a `flush` in its loop
the one for writing, and an eviction the one for writing of the file whose
page it holds.  Each of them is counted by the entry of the file.
-/
import Madbfs.Cache.Inflight

namespace Madbfs

open Bytes

/-- What a suspended operation relies on: the descriptors it uses, the pages
it holds, and the fetch it has registered. -/
structure Stake (π : Type) where
  uses : Cache → π → Multiset (Id × FdKind)
  held : π → Multiset Addr
  fetches : π → Option PageKey

namespace Cache

def evictStake : Stake EvictPc where
  uses c pc := {((c.heap pc.page).key.id, .write)}
  held pc := {pc.page}
  fetches _ := none

def readStake (r : Range) : Stake ReadAtPc where
  uses c pc := match pc with
    | .start => 0
    | .evicting _ pc => evictStake.uses c pc + {(r.id, .read)}
    | _ => {(r.id, .read)}
  held := ReadAtPc.held
  fetches pc := match pc with
    | .fetching _ _ => some r.key
    | _ => none

def writeStake : Stake WriteAtPc where
  uses c pc := match pc with
    | .evicting _ pc => evictStake.uses c pc
    | _ => 0
  held := WriteAtPc.held
  fetches _ := none

def flushStake (id : Id) : Stake FlushPc where
  uses _ pc := match pc with
    | .flushing _ _ _ _ => {(id, .write)}
    | _ => 0
  held _ := 0
  fetches _ := none

variable {π ρ α β : Type}

def usesOf (stake : Stake π) (c : Cache) : Flow π α → Multiset (Id × FdKind)
  | .await pc => stake.uses c pc
  | .done _ => 0
  | .crash => 0

def fetchesOf (stake : Stake π) : Flow π α → Option PageKey
  | .await pc => stake.fetches pc
  | .done _ => none
  | .crash => none

/-- The text up to the next suspension point, of an operation that uses `own`
where it begins. -/
structure Settles (stake : Stake π) (c : Cache)
    (own : Multiset (Id × FdKind)) (x : Cache × Flow π α) : Prop where
  tally : Tally (c, own) (x.1, usesOf stake x.1 x.2)
  held : ∀ addr ∈ heldBy stake.held x.2, addr < x.1.nextAddr
  queue : ∀ key, (x.1.readQueue.lookup key).isSome →
    (c.readQueue.lookup key).isSome ∨ fetchesOf stake x.2 = some key

section Rules

variable {stake : Stake π} {c c₁ : Cache}
  {own own₁ : Multiset (Id × FdKind)}

theorem Settles.head {x : Cache × Flow π α}
    (hshift : Shift (c, own) (c₁, own₁)) (hx : Settles stake c₁ own₁ x) :
    Settles stake c own x where
  tally := hshift.toTally.trans hx.tally
  held := hx.held
  queue key h := (hx.queue key h).imp_left (hshift.queue key)

theorem settles_done (hshift : Shift (c, own) (c₁, 0)) (value : α) :
    Settles stake c own (c₁, .done value) where
  tally := hshift.toTally
  held _ hmem := absurd hmem (Multiset.notMem_zero _)
  queue key h := .inl (hshift.queue key h)

theorem settles_crash (hshift : Shift (c, own) (c₁, own₁)) :
    Settles stake c own ((c₁, .crash) : Cache × Flow π α) where
  tally := (hshift.trans (shift_drop c₁ own₁)).toTally
  held _ hmem := absurd hmem (Multiset.notMem_zero _)
  queue key h := .inl (hshift.queue key h)

theorem settles_await {pc : π} (hshift : Shift (c, own) (c₁, stake.uses c₁ pc))
    (hheld : ∀ addr ∈ stake.held pc, addr < c₁.nextAddr) :
    Settles stake c own ((c₁, .await pc) : Cache × Flow π α) where
  tally := hshift.toTally
  held := hheld
  queue key h := .inl (hshift.queue key h)

/-- The rule for a nested eviction, of an operation that uses `extra` in the
meantime. -/
theorem Settles.evicting {stake' : Stake ρ} {x : Cache × Flow EvictPc Unit}
    {wrap : EvictPc → ρ} {rest : Cache → Cache × Flow ρ β}
    {extra : Multiset (Id × FdKind)} (hx : Settles evictStake c own x)
    (huses : ∀ c pc, stake'.uses c (wrap pc) = evictStake.uses c pc + extra)
    (hheld : ∀ pc, stake'.held (wrap pc) = {pc.page})
    (hrest : ∀ c, Settles stake' c extra (rest c)) :
    Settles stake' c (own + extra)
      (Flow.andThen x wrap fun c _ => rest c) := by
  obtain ⟨c₁, pc | value | _⟩ := x
  · refine ⟨?_, ?_, fun key h => .inl ?_⟩
    · have hframe := hx.tally.frame extra
      change Tally _ (c₁, stake'.uses c₁ (wrap pc))
      rw [huses]
      exact hframe
    · intro addr hmem
      change addr ∈ stake'.held (wrap pc) at hmem
      rw [hheld] at hmem
      exact hx.held addr hmem
    · exact (hx.queue key h).resolve_right fun hfetch => (by cases hfetch)
  · have hframe := hx.tally.frame extra
    have hqueue : ∀ key, (c₁.readQueue.lookup key).isSome →
        (c.readQueue.lookup key).isSome := fun key h =>
      (hx.queue key h).resolve_right fun hfetch => (by cases hfetch)
    change Tally (c, own + extra) (c₁, 0 + extra) at hframe
    rw [zero_add] at hframe
    exact (hrest c₁).head ⟨hframe, hqueue⟩
  · have hqueue : ∀ key, (c₁.readQueue.lookup key).isSome →
        (c.readQueue.lookup key).isSome := fun key h =>
      (hx.queue key h).resolve_right fun hfetch => (by cases hfetch)
    exact settles_crash ⟨hx.tally.frame extra, hqueue⟩

end Rules

section Evict

variable {c : Cache} {addr : Addr}

theorem shift_setDirty (c : Cache) (addr : Addr) (set : Bool)
    (uses : Multiset (Id × FdKind)) :
    Shift (c, uses) (c.setDirty addr set, uses) :=
  shift_modifyPage c addr rfl uses

theorem flushAtLoop_shift (c : Cache) (addr : Addr) (written : Nat)
    (uses : Multiset (Id × FdKind)) :
    Shift (c, uses) ((c.flushAtLoop addr written).1, uses) := by
  unfold flushAtLoop
  split
  · exact .refl _
  · exact shift_setDirty c addr false uses

theorem flushAt_shift (c : Cache) (addr : Addr)
    (uses : Multiset (Id × FdKind)) :
    Shift (c, uses) ((c.flushAt addr).1, uses) := by
  unfold flushAt
  split
  · exact .refl _
  · exact flushAtLoop_shift c addr 0 uses

theorem flushAtResume_shift {pc : FlushAtPc} {reply : Reply}
    {x : Cache × Flow FlushAtPc (Except Errc Unit)}
    (hx : c.flushAtResume addr pc reply = some x)
    (uses : Multiset (Id × FdKind)) : Shift (c, uses) (x.1, uses) := by
  rcases flushAtResume_cases hx with ⟨-, rfl⟩ | ⟨-, err, rfl⟩
  · exact flushAtLoop_shift c addr _ uses
  · exact .refl _

theorem evictDone_shift (c : Cache) (addr : Addr) :
    Shift (c, {((c.heap addr).key.id, .write)}) (c.evictDone addr, 0) := by
  have hrelease := shift_subWriteInflight c (c.heap addr).key.id 0
  exact hrelease.trans (shift_erasePage _ _ 0)

/-- One round of an eviction from `flush_at` on. -/
theorem evictFlush_settles {x : Cache × Flow FlushAtPc (Except Errc Unit)}
    (hx : ∀ uses, Shift (c, uses) (x.1, uses)) (fd : Fd) (rest : Nat)
    (hlisted : c.Listed) (hlt : addr < c.nextAddr)
    {next : Cache → Cache × Flow EvictPc Unit}
    (hnext : ∀ c, Listed c → Settles evictStake c 0 (next c)) :
    Settles evictStake c {((c.heap addr).key.id, .write)}
      (evictFlush x addr fd rest next) := by
  have hkey := (hx 0).key addr hlt
  have hnextAddr := (hx 0).next
  have hshift := hx {((c.heap addr).key.id, .write)}
  obtain ⟨c₁, pc | value | _⟩ := x
  · apply settles_await
    · change Shift _ (c₁, {((c₁.heap addr).key.id, .write)})
      rw [hkey]
      exact hshift
    · intro addr' hmem
      obtain rfl := Multiset.mem_singleton.mp hmem
      exact Nat.lt_of_lt_of_le hlt hnextAddr
  · have hdone := evictDone_shift c₁ addr
    rw [hkey] at hdone
    refine Settles.head (hshift.trans hdone) (hnext _ ?_)
    exact hdone.listed (hshift.listed hlisted)
  · exact settles_crash hshift

theorem evict_settles (size : Nat) (c : Cache) (hlisted : c.Listed) :
    Settles evictStake c 0 (evict size c) := by
  induction size generalizing c with
  | zero => exact settles_done (.refl _) ()
  | succ size ih =>
      unfold evict
      split
      · exact settles_done (.refl _) ()
      · next addr hlast =>
          have hmem : addr ∈ c.lru := List.mem_of_getLast? hlast
          have hlt := hlisted addr hmem
          have hpop : Shift (c, 0) ({ c with lru := c.lru.dropLast }, 0) :=
            shift_lru c (List.dropLast_subset c.lru) 0
          have hpopped := hpop.listed hlisted
          dsimp only
          split
          · exact (ih _ hpopped).head hpop
          · next entry hentry =>
              have hsome : (lookup { c with lru := c.lru.dropLast }
                  (c.heap addr).key.id).isSome :=
                Option.isSome_of_eq_some hentry
              have hlock := hpop.trans (shift_addWriteInflight hsome 0)
              split
              · split
                · apply settles_await
                  · change Shift _ (_, {(((modifyEntry _ _ _).heap
                      addr).key.id, .write)})
                    rw [modifyEntry_heap]
                    exact hlock
                  · intro addr' hmem'
                    obtain rfl := Multiset.mem_singleton.mp hmem'
                    exact Nat.lt_of_lt_of_le hlt hlock.next
                · next fd hfd =>
                  refine Settles.head hlock ?_
                  have hround := evictFlush_settles
                    (flushAt_shift (modifyEntry { c with lru := c.lru.dropLast }
                      (c.heap addr).key.id (addWriteInflight 1)) addr)
                    fd size (hlock.listed hlisted)
                    (Nat.lt_of_lt_of_le hlt hlock.next) ih
                  rw [modifyEntry_heap] at hround
                  exact hround
              · have herase := hpop.trans
                  (shift_erasePage _ (c.heap addr).key 0)
                exact (ih _ (herase.listed hlisted)).head herase

theorem evictExcess_settles (hlisted : c.Listed) :
    Settles evictStake c 0 c.evictExcess := by
  unfold evictExcess
  split
  · exact evict_settles _ c hlisted
  · exact settles_done (.refl _) ()

theorem evictResume_settles {pc : EvictPc} {reply : Reply}
    {x : Cache × Flow EvictPc Unit} (hlisted : c.Listed)
    (hlt : pc.page < c.nextAddr) (hx : c.evictResume pc reply = some x) :
    Settles evictStake c (evictStake.uses c pc) x := by
  have hrest : ∀ rest c, Listed c → Settles evictStake c 0 (evict rest c) :=
    evict_settles
  unfold evictResume at hx
  split at hx
  · next addr rest fd =>
      obtain rfl := Option.some.inj hx
      have hstore : Shift (c, {((c.heap addr).key.id, .write)})
          (c.modifyEntry (c.heap addr).key.id (setWriteFd (some fd)),
            {((c.heap addr).key.id, .write)}) :=
        shift_entry c _ (setWriteFd (some fd)) (fun _ _ => rfl)
          (fun _ _ => rfl) _
      refine Settles.head hstore ?_
      have hround := evictFlush_settles
        (flushAt_shift (c.modifyEntry (c.heap addr).key.id
          (setWriteFd (some fd))) addr) fd rest (hstore.listed hlisted)
        (Nat.lt_of_lt_of_le hlt hstore.next) (hrest rest)
      rw [modifyEntry_heap] at hround
      exact hround
  · next addr rest err =>
      obtain rfl := Option.some.inj hx
      have hrelease := shift_subWriteInflight c (c.heap addr).key.id 0
      exact (hrest rest _ (hrelease.listed hlisted)).head hrelease
  · next addr fd rest fpc =>
      obtain ⟨y, hy, rfl⟩ := Option.map_eq_some_iff.mp hx
      exact evictFlush_settles (flushAtResume_shift hy) fd rest hlisted hlt
        (hrest rest)
  · cases hx

end Evict

section Read

variable {c : Cache} {r : Range}

/-- The same stake of an operation that registers no fetch. -/
def silent (stake : Stake π) : Stake π :=
  { stake with fetches := fun _ => none }

theorem Settles.of_silent {stake : Stake π} {own : Multiset (Id × FdKind)}
    {x : Cache × Flow π α} (hx : Settles (silent stake) c own x) :
    Settles stake c own x := by
  obtain ⟨c₁, pc | value | _⟩ := x
  · exact ⟨hx.tally, hx.held, fun key h => .inl
      ((hx.queue key h).resolve_right fun hfetch => (by cases hfetch))⟩
  · exact ⟨hx.tally, hx.held, hx.queue⟩
  · exact ⟨hx.tally, hx.held, hx.queue⟩

theorem shift_splice {addr : Addr} (hmem : addr ∈ c.lru)
    (uses : Multiset (Id × FdKind)) :
    Shift (c, uses) (c.splice addr, uses) :=
  shift_lru c (List.cons_subset.mpr ⟨hmem, List.erase_subset⟩) uses

theorem readAtFinish_settles (stake : Stake π) (c : Cache) (r : Range)
    (addr : Addr) :
    Settles stake c {(r.id, .read)} (c.readAtFinish r addr) := by
  unfold readAtFinish
  split
  · next hvalid =>
      apply settles_done
      exact (shift_splice hvalid.2 _).trans (shift_subReadInflight _ r.id 0)
  · exact settles_crash (.refl _)

theorem readAtError_settles (c : Cache) (r : Range) (err : Errc) :
    Settles (readStake r) c {(r.id, .read)} (c.readAtError r err) :=
  settles_done (shift_subReadInflight c r.id 0) _

theorem readAtFetch_settles (c : Cache) (r : Range) (fd : Fd) :
    Settles (readStake r) c {(r.id, .read)} (c.readAtFetch r fd) where
  tally := ⟨rfl, List.Subset.refl _, Nat.le_refl _, fun _ _ => rfl, fun h => h,
    fun _ => Int.le_refl _⟩
  held _ hmem := absurd hmem (Multiset.notMem_zero _)
  queue key h := by
    by_cases hkey : key = r.key
    · exact .inr (congrArg some hkey.symm)
    · left
      simp only [readAtFetch, enqueue] at h
      split at h
      · exact h
      · rw [AList.lookup_insert_ne hkey] at h
        exact h

theorem readAtLookup_settles (c : Cache) (r : Range) :
    Settles (readStake r) c {(r.id, .read)} (c.readAtLookup r) := by
  unfold readAtLookup
  split
  · exact settles_crash (.refl _)
  · split
    · exact readAtFinish_settles (readStake r) c r _
    · split
      · apply settles_await (Shift.refl (c, {(r.id, .read)}))
        exact fun _ hmem => absurd hmem (Multiset.notMem_zero _)
      · exact readAtFetch_settles c r _

/-- The eviction that `read_at` ends with. -/
theorem readAtEvict_settles {x : Cache × Flow EvictPc Unit}
    {own : Multiset (Id × FdKind)} (hx : Settles evictStake c own x)
    (r : Range) (addr : Addr) :
    Settles (silent (readStake r)) c (own + {(r.id, .read)})
      (Flow.andThen x (.evicting addr) fun c _ => c.readAtFinish r addr) := by
  apply hx.evicting
  · exact fun _ _ => rfl
  · exact fun _ => rfl
  · exact fun c => readAtFinish_settles (silent (readStake r)) c r addr

/-- `read_at` once its page is in the table and its fetch is over. -/
theorem readAtInsert_settles (hlisted : c.Listed) (fut : Fut)
    (bytes : List Byte) :
    Settles (silent (readStake r)) c {(r.id, .read)}
      (c.readAtInsert r fut bytes) := by
  have hinsert := shift_emplaceFront c (c.fetchedPage r.key bytes)
    {(r.id, .read)}
  unfold readAtInsert
  dsimp only
  split
  · exact settles_crash hinsert
  · next addr hslot =>
      have hover := (hinsert.trans (shift_setPromise _ fut ⟨0⟩ _)).trans
        (shift_dequeue _ r.key _)
      have hevict := readAtEvict_settles
        (evictExcess_settles (hover.listed hlisted)) r addr
      rw [zero_add] at hevict
      exact hevict.head hover

theorem readAtResume_settles {pc : ReadAtPc} {reply : Reply}
    {x : Cache × Flow ReadAtPc (Except Errc (List Byte))}
    (hlisted : c.Listed)
    (hheld : ∀ addr ∈ ReadAtPc.held pc, addr < c.nextAddr)
    (hqueued : (c.readQueue.lookup r.key).isSome → (c.lookup r.id).isSome)
    (hx : c.readAtResume r pc reply = some x) :
    Settles (readStake r) c ((readStake r).uses c pc) x := by
  unfold readAtResume at hx
  split at hx
  · by_cases hentry : (c.lookup r.id).isSome
    · have hlock := shift_addReadInflight hentry 0
      dsimp only at hx
      split at hx
      · obtain rfl := Option.some.inj hx
        apply settles_await hlock
        exact fun _ hmem => absurd hmem (Multiset.notMem_zero _)
      · obtain rfl := Option.some.inj hx
        exact (readAtLookup_settles _ r).head hlock
    · have hnone : c.lookup r.id = none :=
        Option.not_isSome_iff_eq_none.mp hentry
      have hsame : c.modifyEntry r.id (addReadInflight 1) = c := by
        simp only [modifyEntry, hnone]
      dsimp only at hx
      rw [hsame] at hx
      split at hx
      · next fut hqueue =>
          exact absurd (hqueued (Option.isSome_of_eq_some hqueue)) hentry
      · obtain rfl := Option.some.inj hx
        simp only [readAtLookup, hnone]
        exact settles_crash (.refl _)
  · split at hx
    · cases hx
    · split at hx
      · obtain rfl := Option.some.inj hx
        exact readAtLookup_settles c r
      · obtain rfl := Option.some.inj hx
        exact readAtError_settles c r _
  · next fd =>
      obtain rfl := Option.some.inj hx
      have hstore := shift_entry c r.id (setReadFd (some fd))
        (fun _ _ => rfl) (fun _ _ => rfl) {(r.id, .read)}
      exact (readAtFetch_settles _ r fd).head hstore
  · obtain rfl := Option.some.inj hx
    exact readAtError_settles c r _
  · next fd fut bytes =>
      split at hx
      · obtain rfl := Option.some.inj hx
        exact (readAtError_settles _ r _).head (shift_setPromise c fut _ _)
      · obtain rfl := Option.some.inj hx
        exact (readAtInsert_settles hlisted fut bytes).of_silent
  · next fd fut err =>
      obtain rfl := Option.some.inj hx
      have hover := (shift_setPromise c fut err {(r.id, .read)}).trans
        (shift_dequeue _ r.key _)
      exact (readAtError_settles _ r err).head hover
  · next addr pc' =>
      obtain ⟨y, hy, rfl⟩ := Option.map_eq_some_iff.mp hx
      have hlt := hheld pc'.page (Multiset.mem_singleton_self _)
      exact (readAtEvict_settles (evictResume_settles hlisted hlt hy) r
        addr).of_silent
  · cases hx

theorem isSome_slot_emplaceFront {page : Page}
    (hentry : (c.lookup page.key.id).isSome) :
    ((c.emplaceFront page).slot page.key).isSome := by
  obtain ⟨entry, hentry⟩ := Option.isSome_iff_exists.mp hentry
  have hfront : (c.emplaceFront page).lookup page.key.id =
      some (emplaceIndex page.key.index c.nextAddr entry) := by
    unfold emplaceFront
    dsimp only
    rw [lookup_modifyEntry, if_pos rfl]
    exact congrArg _ hentry
  rw [slot, hfront, Option.bind_some]
  unfold emplaceIndex
  split
  · next addr hpage => exact Option.isSome_of_eq_some hpage
  · dsimp only
    rw [AList.lookup_insert]
    rfl

theorem readAtInsert_over (hlisted : c.Listed)
    (hentry : (c.lookup r.id).isSome) (fut : Fut) (bytes : List Byte) :
    (c.readAtInsert r fut bytes).1.readQueue.lookup r.key = none := by
  have hinsert := shift_emplaceFront c (c.fetchedPage r.key bytes) 0
  have hslot : ((c.emplaceFront (c.fetchedPage r.key bytes)).slot
      r.key).isSome := isSome_slot_emplaceFront hentry
  unfold readAtInsert
  dsimp only
  split
  · next hnone =>
      rw [hnone] at hslot
      cases hslot
  · next addr _ =>
      have hevict := readAtEvict_settles (evictExcess_settles (c :=
        ((c.emplaceFront (c.fetchedPage r.key bytes)).setPromise fut
          ⟨0⟩).dequeue r.key) (hinsert.listed hlisted)) r addr
      apply Option.not_isSome_iff_eq_none.mp
      intro hsome
      rcases hevict.queue r.key hsome with hqueue | hfetch
      · rw [lookup_dequeue, if_pos rfl] at hqueue
        cases hqueue
      · generalize (Flow.andThen (α := Unit) (β := Except Errc (List Byte)) _
          (ReadAtPc.evicting addr) _).2 = flow at hfetch
        cases flow <;> cases hfetch

/-- When a fetch is over its page is not registered any more. -/
theorem readAtResume_over {fd : Fd} {fut : Fut} {reply : Reply}
    {x : Cache × Flow ReadAtPc (Except Errc (List Byte))}
    (hlisted : c.Listed) (hentry : (c.lookup r.id).isSome)
    (hx : c.readAtResume r (.fetching fd fut) reply = some x) :
    x.1.readQueue.lookup r.key = none := by
  cases reply with
  | fetched res =>
      cases res with
      | ok bytes =>
          unfold readAtResume at hx
          dsimp only at hx
          split at hx
          · next hqueue =>
              obtain rfl := Option.some.inj hx
              rw [readAtError, modifyEntry_readQueue]
              exact hqueue
          · obtain rfl := Option.some.inj hx
            exact readAtInsert_over hlisted hentry fut bytes
      | error err =>
          obtain rfl := Option.some.inj hx
          rw [readAtError, modifyEntry_readQueue, lookup_dequeue, if_pos rfl]
  | _ => cases hx

end Read

section Write

variable {c : Cache} {r : Range} {input : List Byte}

theorem writeAtFinish_settles (stake : Stake π) (c : Cache) (r : Range)
    (input : List Byte) (addr : Addr) :
    Settles stake c 0 (c.writeAtFinish r input addr) := by
  unfold writeAtFinish
  split
  · next hvalid =>
      apply settles_done
      refine (shift_splice hvalid.2 0).trans (shift_modifyPage _ addr ?_ 0)
      exact Page.write_key _ _ _
  · exact settles_crash (.refl _)

/-- The eviction that `write_at` ends with. -/
theorem writeAtEvict_settles {x : Cache × Flow EvictPc Unit}
    {own : Multiset (Id × FdKind)} (hx : Settles evictStake c own x)
    (r : Range) (input : List Byte) (addr : Addr) :
    Settles writeStake c own
      (Flow.andThen x (.evicting addr) fun c _ =>
        c.writeAtFinish r input addr) := by
  rw [← add_zero own]
  apply hx.evicting
  · exact fun _ _ => (add_zero _).symm
  · exact fun _ => rfl
  · exact fun c => writeAtFinish_settles writeStake c r input addr

theorem writeAtLookup_settles (hlisted : c.Listed) :
    Settles writeStake c 0 (c.writeAtLookup r input) := by
  unfold writeAtLookup
  split
  · exact settles_crash (.refl _)
  · split
    · exact writeAtFinish_settles writeStake c r input _
    · have hinsert := shift_emplaceFront c (c.emptyPage r.key) 0
      exact (writeAtEvict_settles
        (evictExcess_settles (hinsert.listed hlisted)) r input
        c.nextAddr).head hinsert

theorem writeAtResume_settles {pc : WriteAtPc} {reply : Reply}
    {x : Cache × Flow WriteAtPc (Except Errc Nat)} (hlisted : c.Listed)
    (hheld : ∀ addr ∈ WriteAtPc.held pc, addr < c.nextAddr)
    (hx : c.writeAtResume r input pc reply = some x) :
    Settles writeStake c (writeStake.uses c pc) x := by
  unfold writeAtResume at hx
  split at hx
  · split at hx
    · obtain rfl := Option.some.inj hx
      apply settles_await (Shift.refl (c, 0))
      exact fun _ hmem => absurd hmem (Multiset.notMem_zero _)
    · obtain rfl := Option.some.inj hx
      exact writeAtLookup_settles hlisted
  · split at hx
    · cases hx
    · split at hx
      · obtain rfl := Option.some.inj hx
        exact writeAtLookup_settles hlisted
      · obtain rfl := Option.some.inj hx
        exact settles_done (.refl _) _
  · next addr pc' =>
      obtain ⟨y, hy, rfl⟩ := Option.map_eq_some_iff.mp hx
      have hlt := hheld pc'.page (Multiset.mem_singleton_self _)
      exact writeAtEvict_settles (evictResume_settles hlisted hlt hy) r input
        addr
  · cases hx

end Write

section Flush

variable {c : Cache} {id : Id}

/-- `flush_at` inside `flush`. -/
theorem flushAt_settles {x : Cache × Flow FlushAtPc (Except Errc Unit)}
    (hx : ∀ uses, Shift (c, uses) (x.1, uses)) (index : Nat) (addr : Addr)
    (fd : Fd)
    {rest : Cache → Except Errc Unit → Cache × Flow FlushPc (Except Errc Unit)}
    (hrest : ∀ c res, Settles (flushStake id) c {(id, .write)} (rest c res)) :
    Settles (flushStake id) c {(id, .write)}
      (Flow.andThen x (.flushing index addr fd) rest) := by
  have hshift := hx {(id, .write)}
  obtain ⟨c₁, pc | res | _⟩ := x
  · apply settles_await hshift
    exact fun _ hmem => absurd hmem (Multiset.notMem_zero _)
  · exact (hrest c₁ res).head hshift
  · exact settles_crash hshift

theorem flushLoop_settles (id : Id) (indices : List Nat) (c : Cache) :
    Settles (flushStake id) c {(id, .write)} (flushLoop id indices c) := by
  induction indices generalizing c with
  | nil =>
      apply settles_done
      apply shift_release
      · exact fun _ _ => rfl
      · intro entry k
        cases k
        · exact (Int.add_zero _).symm
        · rfl
  | cons index rest ih =>
      unfold flushLoop
      split
      · exact settles_crash (.refl _)
      · split
        · exact settles_crash (.refl _)
        · split
          · exact settles_crash (.refl _)
          · split
            · split
              · exact settles_crash (.refl _)
              · apply flushAt_settles (flushAt_shift c _)
                intro c₁ res
                cases res with
                | error err =>
                    exact settles_done (shift_subWriteInflight c₁ id 0) _
                | ok value => exact ih c₁
            · exact ih c

theorem flushPages_settles (c : Cache) (id : Id) :
    Settles (flushStake id) c 0 (c.flushPages id) := by
  unfold flushPages
  split
  · exact settles_crash (.refl _)
  · next entry hentry =>
      have hlock := shift_addWriteInflight (Option.isSome_of_eq_some hentry) 0
      exact (flushLoop_settles id _ _).head hlock

theorem flushStart_settles (c : Cache) (id : Id) :
    Settles (flushStake id) c 0 (c.flushStart id) := by
  unfold flushStart
  split
  · exact settles_done (.refl _) _
  · split
    · split
      · apply settles_await (Shift.refl (c, 0))
        exact fun _ hmem => absurd hmem (Multiset.notMem_zero _)
      · exact flushPages_settles c id
    · exact settles_done (.refl _) _

theorem flushResume_settles {pc : FlushPc} {reply : Reply}
    {x : Cache × Flow FlushPc (Except Errc Unit)}
    (hx : c.flushResume id pc reply = some x) :
    Settles (flushStake id) c ((flushStake id).uses c pc) x := by
  unfold flushResume at hx
  split at hx
  · obtain rfl := Option.some.inj hx
    exact flushStart_settles c id
  · next fd =>
      obtain rfl := Option.some.inj hx
      have hstore := shift_entry c id (setWriteFd (some fd))
        (fun _ _ => rfl) (fun _ _ => rfl) 0
      exact (flushPages_settles _ id).head hstore
  · obtain rfl := Option.some.inj hx
    exact settles_done (.refl _) _
  · next index addr fd pc' =>
      split at hx
      · obtain ⟨y, hy, rfl⟩ := Option.map_eq_some_iff.mp hx
        apply flushAt_settles (flushAtResume_shift hy)
        intro c₁ res
        cases res with
        | error err => exact settles_done (shift_subWriteInflight c₁ id 0) _
        | ok value =>
            dsimp only
            split
            · exact settles_crash (.refl _)
            · exact flushLoop_settles id _ c₁
      · obtain rfl := Option.some.inj hx
        exact settles_crash (.refl _)
  · cases hx

end Flush

end Cache

end Madbfs
