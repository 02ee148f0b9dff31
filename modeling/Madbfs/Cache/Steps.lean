/-
Everything a resumed page operation can do.  For `read_at`, `write_at` and
`flush` there is one relation each, with a constructor for every way from a
suspension point to the next, and the proof that the code takes one of them.
Proofs about the cache go by these relations and never open the code again.
-/
import Madbfs.Cache.Layout

namespace Madbfs

open Bytes

namespace Cache

variable {π α : Type}

/-- An eviction followed by the end of the operation that started it. -/
inductive EvictThen (c : Cache) (start held : Multiset Addr)
    (wrap : EvictPc → π) (finish : Cache → Cache × Flow π α) :
    Cache → Flow π α → Prop
  | await (c' : Cache) (pc : EvictPc)
      (hmoves : Moves (c, start) (c', pc.page ::ₘ held))
      (hfresh : pc.Fresh c') :
      EvictThen c start held wrap finish c' (.await (wrap pc))
  | finish (c' : Cache) (hmoves : Moves (c, start) (c', held)) :
      EvictThen c start held wrap finish (finish c').1 (finish c').2

/-- The first part of an eviction that is resumed for an operation. -/
inductive EvictStep (c : Cache) (held : Multiset Addr)
    (wrap : EvictPc → π) (finish : Cache → Cache × Flow π α)
    (reply : Reply) : EvictPc → Cache → Flow π α → Prop
  | send (addr : Addr) (fd : Fd) (rest : Nat) (pc : FlushAtPc)
      (htook : Took c pc reply)
      (hmore : pc.sent (some reply) < (c.heap addr).size) :
      EvictStep c held wrap finish reply (.flushing addr fd rest pc) c
        (.await (wrap (.flushing addr fd rest (.writing (pc.sent (some reply))
          ((c.heap addr).size - pc.sent (some reply))))))
  | rounds (pc : EvictPc) (c₁ : Cache) (start : Multiset Addr) (c' : Cache)
      (flow : Flow π α)
      (hbegin : EvictPrefix c held pc reply c₁ start)
      (hthen : EvictThen c₁ start held wrap finish c' flow) :
      EvictStep c held wrap finish reply pc c' flow

section Evict

variable {c c₁ : Cache} {start held : Multiset Addr} {wrap : EvictPc → π}
  {finish : Cache → Cache × Flow π α} {x : Cache × Flow EvictPc Unit}

theorem EvictRuns.andThen (hx : EvictRuns c₁ start held x) :
    EvictThen c₁ start held wrap finish
      (Flow.andThen x wrap fun c _ => finish c).1
      (Flow.andThen x wrap fun c _ => finish c).2 ∨
    (Flow.andThen x wrap fun c _ => finish c).2 = .crash := by
  obtain ⟨c', pc | _ | _⟩ := x
  · exact .inl (.await c' pc hx.1 hx.2)
  · exact .inl (.finish c' hx)
  · exact .inr rfl

theorem evictResume_step {pc : EvictPc} {reply : Reply}
    (held : Multiset Addr) (hx : c.evictResume pc reply = some x) :
    EvictStep c held wrap finish reply pc
      (Flow.andThen x wrap fun c _ => finish c).1
      (Flow.andThen x wrap fun c _ => finish c).2 ∨
    (Flow.andThen x wrap fun c _ => finish c).2 = .crash := by
  rcases evictResume_cases held hx with
    ⟨addr, fd, rest, pc', rfl, htook, hmore, rfl⟩ | ⟨c₁, start, hbegin, hruns⟩
  · exact .inl (.send addr fd rest pc' htook hmore)
  · rcases hruns.andThen with hthen | hcrash
    · exact .inl (.rounds pc c₁ start _ _ hbegin hthen)
    · exact .inr hcrash

end Evict

/-- `read_at` and `write_at` reach their page lookup: at once, or after a
future they waited for. -/
inductive Enters (c : Cache) (key : PageKey) (start : Cache) :
    Option Fut → Cache → Prop
  | now (hqueue : c.readQueue.lookup key = none) :
      Enters c key start none start
  | woken (fut : Fut) (hready : c.promises fut = some ⟨0⟩) :
      Enters c key start (some fut) c

/-- The page lookup of `read_at`. -/
inductive ReadLookup (c : Cache) (r : Range) :
    Cache → Flow ReadAtPc (Except Errc (List Byte)) → Prop
  | hit (addr : Addr) (hslot : c.slot r.key = some addr)
      (hmem : addr ∈ c.lru) :
      ReadLookup c r
        ((c.splice addr).modifyEntry r.id (addReadInflight (-1)))
        (.done (.ok ((c.heap addr).read (r.localSize c.pageSize)
          (r.localOffset c.pageSize))))
  | miss (entry : LookupEntry) (hentry : c.lookup r.id = some entry)
      (hslot : c.slot r.key = none) (hfd : entry.readFd = none) :
      ReadLookup c r c (.await .opening)
  | fetch (entry : LookupEntry) (fd : Fd)
      (hentry : c.lookup r.id = some entry)
      (hslot : c.slot r.key = none) (hfd : entry.readFd = some fd) :
      ReadLookup c r (c.enqueue r.key).1 (.await (.fetching fd c.nextFut))

/-- Where `read_at` returns an error, and what it has done to its promise. -/
inductive ReadFails (c : Cache) (r : Range) :
    ReadAtPc → Reply → Cache → Errc → Prop
  | queued (fut : Fut) (err : Errc) (hready : c.promises fut = some err)
      (herr : err ≠ ⟨0⟩) : ReadFails c r (.queued fut) .go c err
  | opening (err : Errc) :
      ReadFails c r .opening (.opened (.error err)) c err
  | canceled (fd : Fd) (fut : Fut) (bytes : List Byte)
      (hqueue : c.readQueue.lookup r.key = none) :
      ReadFails c r (.fetching fd fut) (.fetched (.ok bytes))
        (c.setPromise fut Errc.operationCanceled) Errc.operationCanceled
  | fetching (fd : Fd) (fut : Fut) (err : Errc) :
      ReadFails c r (.fetching fd fut) (.fetched (.error err))
        ((c.setPromise fut err).dequeue r.key) err

/-- The cache after the insertion of a fetched page. -/
def inserted (c : Cache) (r : Range) (fut : Fut) (bytes : List Byte) : Cache :=
  ((c.emplaceFront (c.fetchedPage r.key bytes)).setPromise fut ⟨0⟩).dequeue
    r.key

/-- One resumption of `read_at`. -/
inductive ReadStep (c : Cache) (held : Multiset Addr) (r : Range) :
    ReadAtPc → Reply → Cache → Flow ReadAtPc (Except Errc (List Byte)) → Prop
  | crash (pc : ReadAtPc) (reply : Reply) (c' : Cache) :
      ReadStep c held r pc reply c' .crash
  | queue (fut : Fut) (hqueue : c.readQueue.lookup r.key = some fut) :
      ReadStep c held r .start .go
        (c.modifyEntry r.id (addReadInflight 1)) (.await (.queued fut))
  | start (c₁ c' : Cache) (flow : Flow ReadAtPc (Except Errc (List Byte)))
      (henter : Enters c r.key
        (c.modifyEntry r.id (addReadInflight 1)) none c₁)
      (hlookup : ReadLookup c₁ r c' flow) :
      ReadStep c held r .start .go c' flow
  | queued (fut : Fut) (c₁ c' : Cache)
      (flow : Flow ReadAtPc (Except Errc (List Byte)))
      (henter : Enters c r.key c (some fut) c₁)
      (hlookup : ReadLookup c₁ r c' flow) :
      ReadStep c held r (.queued fut) .go c' flow
  | opened (fd : Fd) :
      ReadStep c held r .opening (.opened (.ok fd))
        ((c.modifyEntry r.id (setReadFd (some fd))).enqueue r.key).1
        (.await (.fetching fd c.nextFut))
  | fail (pc : ReadAtPc) (reply : Reply) (c' : Cache) (err : Errc)
      (hfails : ReadFails c r pc reply c' err) :
      ReadStep c held r pc reply
        (c'.modifyEntry r.id (addReadInflight (-1))) (.done (.error err))
  | insert (fd : Fd) (fut fut' : Fut) (bytes : List Byte) (addr : Addr)
      (c' : Cache) (flow : Flow ReadAtPc (Except Errc (List Byte)))
      (hqueue : c.readQueue.lookup r.key = some fut')
      (hslot : (c.inserted r fut bytes).slot r.key = some addr)
      (hthen : EvictThen (c.inserted r fut bytes) held held (.evicting addr)
        (fun c => c.readAtFinish r addr) c' flow) :
      ReadStep c held r (.fetching fd fut) (.fetched (.ok bytes)) c' flow
  | evict (addr : Addr) (pc : EvictPc) (reply : Reply) (c' : Cache)
      (flow : Flow ReadAtPc (Except Errc (List Byte)))
      (hstep : EvictStep c held (.evicting addr)
        (fun c => c.readAtFinish r addr) reply pc c' flow) :
      ReadStep c held r (.evicting addr pc) reply c' flow

theorem readAtLookup_cases (c : Cache) (r : Range) :
    ReadLookup c r (c.readAtLookup r).1 (c.readAtLookup r).2 ∨
      (c.readAtLookup r).2 = .crash := by
  unfold readAtLookup
  split
  · exact .inr rfl
  · next entry hentry =>
      have hslot : c.slot r.key = entry.pages.lookup r.index := by
        simp [slot, Range.key, hentry]
      split
      · next addr hpage =>
          unfold readAtFinish
          split
          · next hvalid => exact .inl (.hit addr hvalid.1 hvalid.2)
          · exact .inr rfl
      · next hpage =>
          rw [hpage] at hslot
          split
          · next hfd => exact .inl (.miss entry hentry hslot hfd)
          · next fd hfd => exact .inl (.fetch entry fd hentry hslot hfd)

theorem readAtResume_step {c : Cache} {r : Range} {pc : ReadAtPc}
    {reply : Reply} {x : Cache × Flow ReadAtPc (Except Errc (List Byte))}
    (held : Multiset Addr) (hx : c.readAtResume r pc reply = some x) :
    ReadStep c held r pc reply x.1 x.2 := by
  unfold readAtResume at hx
  split at hx
  · dsimp only at hx
    split at hx
    · next fut hqueue =>
        obtain rfl := Option.some.inj hx
        exact .queue fut (by simpa using hqueue)
    · next hqueue =>
        obtain rfl := Option.some.inj hx
        rw [modifyEntry_readQueue] at hqueue
        rcases readAtLookup_cases
          (c.modifyEntry r.id (addReadInflight 1)) r with hlookup | hcrash
        · exact .start _ _ _ (.now hqueue) hlookup
        · rw [hcrash]
          exact .crash _ _ _
  · next fut =>
      split at hx
      · cases hx
      · next err hready =>
          split at hx
          · next herr =>
              subst herr
              obtain rfl := Option.some.inj hx
              rcases readAtLookup_cases c r with hlookup | hcrash
              · exact .queued fut _ _ _ (.woken fut hready) hlookup
              · rw [hcrash]
                exact .crash _ _ _
          · next herr =>
              obtain rfl := Option.some.inj hx
              exact .fail _ _ _ _ (.queued fut err hready herr)
  · next fd =>
      obtain rfl := Option.some.inj hx
      have hfut : c.nextFut =
          (c.modifyEntry r.id (setReadFd (some fd))).nextFut := by simp
      rw [show (readAtFetch (c.modifyEntry r.id (setReadFd (some fd))) r fd).2 =
        .await (.fetching fd c.nextFut) by rw [hfut]; rfl]
      exact .opened fd
  · next err =>
      obtain rfl := Option.some.inj hx
      exact .fail _ _ _ _ (.opening err)
  · next fd fut bytes =>
      split at hx
      · next hqueue =>
          obtain rfl := Option.some.inj hx
          exact .fail _ _ _ _ (.canceled fd fut bytes hqueue)
      · next fut' hqueue =>
          obtain rfl := Option.some.inj hx
          unfold readAtInsert
          dsimp only
          split
          · exact .crash _ _ _
          · next addr hslot =>
              rcases (evictExcess_evictRuns (c.inserted r fut bytes)
                  held).andThen with
                hthen | hcrash
              · exact .insert fd fut fut' bytes addr _ _ hqueue hslot hthen
              · change ReadStep c held r _ _ _ (Flow.andThen
                  (c.inserted r fut bytes).evictExcess (.evicting addr)
                  fun c _ => c.readAtFinish r addr).2
                rw [hcrash]
                exact .crash _ _ _
  · next fd fut err =>
      obtain rfl := Option.some.inj hx
      exact .fail _ _ _ _ (.fetching fd fut err)
  · next addr pc' =>
      obtain ⟨y, hy, rfl⟩ := Option.map_eq_some_iff.mp hx
      rcases evictResume_step held hy with
        hstep | hcrash
      · exact .evict addr pc' reply _ _ hstep
      · rw [hcrash]
        exact .crash _ _ _
  · cases hx

/-- The page that `write_at` creates for a missing one. -/
def emptyPage (c : Cache) (key : PageKey) : Page :=
  Page.create key (Page.zeroBuf c.pageSize) 0 c.pageSize

/-- The page lookup of `write_at`. -/
inductive WriteLookup (c : Cache) (held : Multiset Addr) (r : Range)
    (input : List Byte) : Cache → Flow WriteAtPc (Except Errc Nat) → Prop
  | hit (addr : Addr) (hslot : c.slot r.key = some addr) :
      WriteLookup c held r input (c.writeAtFinish (π := WriteAtPc) r input addr).1
        (c.writeAtFinish r input addr).2
  | miss (entry : LookupEntry) (hentry : c.lookup r.id = some entry)
      (hslot : c.slot r.key = none) (c' : Cache)
      (flow : Flow WriteAtPc (Except Errc Nat))
      (hthen : EvictThen (c.emplaceFront (c.emptyPage r.key)) held held
        (.evicting c.nextAddr) (fun c' => c'.writeAtFinish r input c.nextAddr)
        c' flow) :
      WriteLookup c held r input c' flow

/-- One resumption of `write_at`. -/
inductive WriteStep (c : Cache) (held : Multiset Addr) (r : Range)
    (input : List Byte) :
    WriteAtPc → Reply → Cache → Flow WriteAtPc (Except Errc Nat) → Prop
  | crash (pc : WriteAtPc) (reply : Reply) (c' : Cache) :
      WriteStep c held r input pc reply c' .crash
  | queue (fut : Fut) (hqueue : c.readQueue.lookup r.key = some fut) :
      WriteStep c held r input .start .go c (.await (.queued fut))
  | start (c' : Cache) (flow : Flow WriteAtPc (Except Errc Nat))
      (henter : Enters c r.key c none c)
      (hlookup : WriteLookup c held r input c' flow) :
      WriteStep c held r input .start .go c' flow
  | queued (fut : Fut) (c' : Cache) (flow : Flow WriteAtPc (Except Errc Nat))
      (henter : Enters c r.key c (some fut) c)
      (hlookup : WriteLookup c held r input c' flow) :
      WriteStep c held r input (.queued fut) .go c' flow
  | fail (fut : Fut) (err : Errc) (hready : c.promises fut = some err)
      (herr : err ≠ ⟨0⟩) :
      WriteStep c held r input (.queued fut) .go c (.done (.error err))
  | evict (addr : Addr) (pc : EvictPc) (reply : Reply) (c' : Cache)
      (flow : Flow WriteAtPc (Except Errc Nat))
      (hstep : EvictStep c held (.evicting addr)
        (fun c => c.writeAtFinish r input addr) reply pc c' flow) :
      WriteStep c held r input (.evicting addr pc) reply c' flow

theorem writeAtLookup_cases (c : Cache) (held : Multiset Addr) (r : Range)
    (input : List Byte) :
    WriteLookup c held r input (c.writeAtLookup r input).1
        (c.writeAtLookup r input).2 ∨
      (c.writeAtLookup r input).2 = .crash := by
  unfold writeAtLookup
  split
  · exact .inr rfl
  · next entry hentry =>
      have hslot : c.slot r.key = entry.pages.lookup r.index := by
        simp [slot, Range.key, hentry]
      split
      · next addr hpage => exact .inl (.hit addr (hslot.trans hpage))
      · next hpage =>
          rcases (evictExcess_evictRuns
              (c.emplaceFront (c.emptyPage r.key)) held).andThen with
            hthen | hcrash
          · exact .inl (.miss entry hentry (hslot.trans hpage) _ _ hthen)
          · exact .inr hcrash

theorem writeAtResume_step {c : Cache} {r : Range} {input : List Byte}
    {pc : WriteAtPc} {reply : Reply}
    {x : Cache × Flow WriteAtPc (Except Errc Nat)} (held : Multiset Addr)
    (hx : c.writeAtResume r input pc reply = some x) :
    WriteStep c held r input pc reply x.1 x.2 := by
  unfold writeAtResume at hx
  split at hx
  · split at hx
    · next fut hqueue =>
        obtain rfl := Option.some.inj hx
        exact .queue fut hqueue
    · next hqueue =>
        obtain rfl := Option.some.inj hx
        rcases writeAtLookup_cases c held r input with hlookup | hcrash
        · exact .start _ _ (.now hqueue) hlookup
        · rw [hcrash]
          exact .crash _ _ _
  · next fut =>
      split at hx
      · cases hx
      · next err hready =>
          split at hx
          · next herr =>
              subst herr
              obtain rfl := Option.some.inj hx
              rcases writeAtLookup_cases c held r input with hlookup | hcrash
              · exact .queued fut _ _ (.woken fut hready) hlookup
              · rw [hcrash]
                exact .crash _ _ _
          · next herr =>
              obtain rfl := Option.some.inj hx
              exact .fail fut err hready herr
  · next addr pc' =>
      obtain ⟨y, hy, rfl⟩ := Option.map_eq_some_iff.mp hx
      rcases evictResume_step held hy with
        hstep | hcrash
      · exact .evict addr pc' reply _ _ hstep
      · rw [hcrash]
        exact .crash _ _ _
  · cases hx

/-- What ends a run of the loop of `flush`: it is suspended in `flush_at` for
a dirty page of the list, or it clears the flag of the entry. -/
inductive FlushRuns (c : Cache) (id : Id) :
    Cache → Flow FlushPc (Except Errc Unit) → Prop
  | crash (c' : Cache) : FlushRuns c id c' .crash
  | await (c' : Cache) (index : Nat) (addr : Addr) (fd : Fd) (pc : FlushAtPc)
      (entry : LookupEntry)
      (hmoves : ∀ held, Moves (c, held) (c', held))
      (hslot : c'.slot ⟨id, index⟩ = some addr) (hmem : addr ∈ c'.lru)
      (hfresh : pc.Fresh c' addr) (hentry : c'.lookup id = some entry)
      (hfd : entry.writeFd = some fd) :
      FlushRuns c id c' (.await (.flushing index addr fd pc))
  | done (c' : Cache) (hmoves : ∀ held, Moves (c, held) (c', held)) :
      FlushRuns c id (c'.modifyEntry id fun entry =>
        addWriteInflight (-1) (setEntryDirty false entry)) (.done (.ok ()))

theorem FlushRuns.head {c c₁ c' : Cache} {id : Id}
    {flow : Flow FlushPc (Except Errc Unit)}
    (hmoves : ∀ held, Moves (c, held) (c₁, held))
    (hruns : FlushRuns c₁ id c' flow) : FlushRuns c id c' flow := by
  cases hruns with
  | crash => exact .crash c'
  | await _ index addr fd pc entry hmoves' hslot hmem hfresh hentry hfd =>
      exact .await c' index addr fd pc entry
        (fun held => (hmoves held).trans (hmoves' held)) hslot hmem hfresh
        hentry hfd
  | done c₂ hmoves' =>
      exact .done c₂ fun held => (hmoves held).trans (hmoves' held)

theorem flushLoop_runs (id : Id) (indices : List Nat) (c : Cache) :
    FlushRuns c id (flushLoop id indices c).1 (flushLoop id indices c).2 := by
  induction indices generalizing c with
  | nil => exact .done c fun _ => Relation.ReflTransGen.refl
  | cons index rest ih =>
      unfold flushLoop
      split
      · exact .crash c
      · next entry hentry =>
          split
          · exact .crash c
          · next addr hpage =>
              have hslot : c.slot ⟨id, index⟩ = some addr := by
                simp [slot, hentry, hpage]
              split
              · exact .crash c
              · next hmem =>
                  split
                  · split
                    · exact .crash c
                    · next fd hfd =>
                        unfold flushAt
                        split
                        · next fut hfut =>
                            exact .await c index addr fd _ entry
                              (fun _ => Relation.ReflTransGen.refl) hslot
                              (by simpa using hmem) hfut hentry hfd
                        · unfold flushAtLoop
                          split
                          · next hpos =>
                              exact .await c index addr fd _ entry
                                (fun _ => Relation.ReflTransGen.refl) hslot
                                (by simpa using hmem) ⟨rfl, rfl, hpos⟩ hentry
                                hfd
                          · next hsize =>
                              exact (ih _).head fun held =>
                                Relation.ReflTransGen.single
                                  (Move.clean c held addr (by omega))
                  · exact ih c

/-- How `flush` reaches its loop: the cache it starts from and the indices it
visits. -/
inductive FlushEnters (c : Cache) (id : Id) :
    FlushPc → Reply → Cache → List Nat → Prop
  | start (entry : LookupEntry) (fd : Fd) (hentry : c.lookup id = some entry)
      (hdirty : entry.dirty = true) (hfd : entry.writeFd = some fd) :
      FlushEnters c id .start .go (c.modifyEntry id (addWriteInflight 1))
        entry.indices
  | opened (entry : LookupEntry) (fd : Fd)
      (hentry : c.lookup id = some entry) :
      FlushEnters c id .opening (.opened (.ok fd))
        ((c.modifyEntry id (setWriteFd (some fd))).modifyEntry id
          (addWriteInflight 1)) entry.indices
  | sent (entry : LookupEntry) (index : Nat) (addr : Addr) (fd : Fd)
      (pc : FlushAtPc) (reply : Reply) (hentry : c.lookup id = some entry)
      (hslot : c.slot ⟨id, index⟩ = some addr) (hmem : addr ∈ c.lru)
      (htook : Took c pc reply)
      (hsent : (c.heap addr).size ≤ pc.sent (some reply)) :
      FlushEnters c id (.flushing index addr fd pc) reply
        (c.setDirty addr false) (entry.indices.filter (index < ·))

/-- One resumption of `flush`. -/
inductive FlushStep (c : Cache) (id : Id) :
    FlushPc → Reply → Cache → Flow FlushPc (Except Errc Unit) → Prop
  | crash (pc : FlushPc) (reply : Reply) (c' : Cache) :
      FlushStep c id pc reply c' .crash
  | nothing (hclean : ∀ entry, c.lookup id = some entry →
        entry.dirty = false) :
      FlushStep c id .start .go c (.done (.ok ()))
  | open (entry : LookupEntry) (hentry : c.lookup id = some entry)
      (hdirty : entry.dirty = true) (hfd : entry.writeFd = none) :
      FlushStep c id .start .go c (.await .opening)
  | openFail (err : Errc) :
      FlushStep c id .opening (.opened (.error err)) c (.done (.error err))
  | send (index : Nat) (addr : Addr) (fd : Fd) (pc : FlushAtPc)
      (reply : Reply) (hslot : c.slot ⟨id, index⟩ = some addr)
      (hmem : addr ∈ c.lru) (htook : Took c pc reply)
      (hmore : pc.sent (some reply) < (c.heap addr).size) :
      FlushStep c id (.flushing index addr fd pc) reply c
        (.await (.flushing index addr fd (.writing (pc.sent (some reply))
          ((c.heap addr).size - pc.sent (some reply)))))
  | refused (index : Nat) (addr : Addr) (fd : Fd) (pc : FlushAtPc)
      (reply : Reply) (err : Errc) (hrefused : Refused c pc reply) :
      FlushStep c id (.flushing index addr fd pc) reply
        (c.modifyEntry id (addWriteInflight (-1))) (.done (.error err))
  | loop (pc : FlushPc) (reply : Reply) (c₁ : Cache) (indices : List Nat)
      (henter : FlushEnters c id pc reply c₁ indices)
      (hruns : FlushRuns c₁ id (flushLoop id indices c₁).1
        (flushLoop id indices c₁).2) :
      FlushStep c id pc reply (flushLoop id indices c₁).1
        (flushLoop id indices c₁).2

theorem lookup_setDirty (c : Cache) (addr : Addr) (set : Bool) (id : Id) :
    (c.setDirty addr set).lookup id = c.lookup id :=
  rfl

theorem flushPages_step {c c₁ : Cache} {id : Id} {pc : FlushPc}
    {reply : Reply}
    (henter : ∀ entry, c₁.lookup id = some entry →
      FlushEnters c id pc reply (c₁.modifyEntry id (addWriteInflight 1))
        entry.indices) :
    FlushStep c id pc reply (c₁.flushPages id).1 (c₁.flushPages id).2 := by
  unfold flushPages
  split
  · exact .crash _ _ _
  · next entry hentry =>
      exact .loop _ _ _ _ (henter entry hentry) (flushLoop_runs id _ _)

theorem flushResume_step {c : Cache} {id : Id} {pc : FlushPc} {reply : Reply}
    {x : Cache × Flow FlushPc (Except Errc Unit)}
    (hx : c.flushResume id pc reply = some x) :
    FlushStep c id pc reply x.1 x.2 := by
  unfold flushResume at hx
  split at hx
  · obtain rfl := Option.some.inj hx
    unfold flushStart
    split
    · next hentry => exact .nothing (by simp [hentry])
    · next entry hentry =>
        split
        · next hdirty =>
            split
            · next hfd => exact .open entry hentry hdirty hfd
            · next fd hfd =>
                apply flushPages_step
                intro entry' hentry'
                obtain rfl := Option.some.inj (hentry.symm.trans hentry')
                exact .start entry fd hentry hdirty hfd
        · next hdirty =>
            refine .nothing ?_
            intro entry' hentry'
            obtain rfl := Option.some.inj (hentry.symm.trans hentry')
            simpa using hdirty
  · next fd =>
      obtain rfl := Option.some.inj hx
      apply flushPages_step
      intro entry' hentry'
      rw [lookup_modifyEntry, if_pos rfl] at hentry'
      obtain ⟨entry, hentry, rfl⟩ := Option.map_eq_some_iff.mp hentry'
      exact .opened entry fd hentry
  · next err =>
      obtain rfl := Option.some.inj hx
      exact .openFail err
  · next index addr fd pc' =>
      split at hx
      · next hvalid =>
          obtain ⟨y, hy, rfl⟩ := Option.map_eq_some_iff.mp hx
          rcases flushAtResume_cases hy with
            ⟨htook, rfl⟩ | ⟨hrefused, err, rfl⟩
          · by_cases hmore : pc'.sent (some reply) < (c.heap addr).size
            · have hstep := FlushStep.send index addr fd pc' reply
                hvalid.1 hvalid.2 htook hmore
              simpa [flushNext, flushAtLoop, hmore, Flow.andThen] using hstep
            · simp only [flushNext, flushAtLoop, hmore, ↓reduceIte,
                Flow.andThen, lookup_setDirty]
              split
              · exact .crash _ _ _
              · next entry hentry =>
                  exact .loop _ _ _ _ (.sent entry index addr fd pc' reply
                    hentry hvalid.1 hvalid.2 htook (by omega))
                    (flushLoop_runs id _ _)
          · exact .refused index addr fd pc' reply err hrefused
      · obtain rfl := Option.some.inj hx
        exact .crash _ _ _
  · cases hx

end Cache

end Madbfs
