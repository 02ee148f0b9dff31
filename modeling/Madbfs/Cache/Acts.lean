/-
The moves of an eviction together with the other things a page operation does
to the cache.  What an invariant has to allow is collected in a grant: which
descriptors may be stored, which pages may be inserted or marked clean, and
whether pages with changes may be given up, with their slots or without.
-/
import Madbfs.Cache.Steps

namespace Madbfs

open Bytes

/-- The page the eviction of a suspended `read_at` holds. -/
def ReadAtPc.held : ReadAtPc → Multiset Addr
  | .evicting _ pc => {pc.page}
  | _ => 0

def WriteAtPc.held : WriteAtPc → Multiset Addr
  | .evicting _ pc => {pc.page}
  | _ => 0

namespace Cache

/-- An update of an entry that leaves everything but its counters of running
requests. -/
structure Counts (f : LookupEntry → LookupEntry) : Prop where
  pages : ∀ entry, (f entry).pages = entry.pages
  path : ∀ entry, (f entry).path = entry.path
  reader : ∀ entry, (f entry).reader = entry.reader
  writer : ∀ entry, (f entry).writer = entry.writer
  readFd : ∀ entry, (f entry).readFd = entry.readFd
  writeFd : ∀ entry, (f entry).writeFd = entry.writeFd
  dirty : ∀ entry, (f entry).dirty = entry.dirty

theorem counts_addReadInflight (n : Int) : Counts (addReadInflight n) := by
  constructor <;> exact fun _ => rfl

theorem counts_addWriteInflight (n : Int) : Counts (addWriteInflight n) := by
  constructor <;> exact fun _ => rfl

/-- What an operation may do to the cache. -/
structure Grant where
  fd : Cache → Id → Fd → Prop
  page : Cache → Page → Prop
  sent : Cache → Addr → Prop
  discard : Prop
  forget : Cache → Addr → Prop

/-- One thing an operation does, on the cache and the pages held. -/
inductive Act (G : Grant) :
    Cache × Multiset Addr → Cache × Multiset Addr → Prop
  | move (s t : Cache × Multiset Addr) (hmove : Move s t) : Act G s t
  | count (c : Cache) (held : Multiset Addr) (id : Id)
      (f : LookupEntry → LookupEntry) (hf : Counts f) :
      Act G (c, held) (c.modifyEntry id f, held)
  | readFd (c : Cache) (held : Multiset Addr) (id : Id) (fd : Fd)
      (hfd : G.fd c id fd) :
      Act G (c, held) (c.modifyEntry id (setReadFd (some fd)), held)
  | writeFd (c : Cache) (held : Multiset Addr) (id : Id) (fd : Fd)
      (hfd : G.fd c id fd) :
      Act G (c, held) (c.modifyEntry id (setWriteFd (some fd)), held)
  | queue (c : Cache) (held : Multiset Addr)
      (readQueue : AList (fun _ : PageKey => Fut))
      (promises : Fut → Option Errc) (nextFut : Fut) :
      Act G (c, held) ({ c with
        readQueue := readQueue
        promises := promises
        nextFut := nextFut }, held)
  | insert (c : Cache) (held : Multiset Addr) (page : Page)
      (hpage : G.page c page) : Act G (c, held) (c.emplaceFront page, held)
  | sent (c : Cache) (held : Multiset Addr) (addr : Addr)
      (hsent : G.sent c addr) : Act G (c, held) (c.setDirty addr false, held)
  | splice (c : Cache) (held : Multiset Addr) (addr : Addr)
      (hmem : addr ∈ c.lru) : Act G (c, held) (c.splice addr, held)
  | discard (c : Cache) (held : Multiset Addr) (addr : Addr)
      (hfault : G.discard) :
      Act G (c, addr ::ₘ held) (c.erasePage (c.heap addr).key, held)
  | forget (c : Cache) (held : Multiset Addr) (addr : Addr)
      (hfault : G.forget c addr) : Act G (c, addr ::ₘ held) (c, held)

abbrev Acts (G : Grant) := Relation.ReflTransGen (Act G)

theorem Acts.preserves {G : Grant} {I : Cache × Multiset Addr → Prop}
    (hact : ∀ {s t}, Act G s t → I s → I t) {s t : Cache × Multiset Addr}
    (hacts : Acts G s t) (hs : I s) : I t := by
  induction hacts with
  | refl => exact hs
  | tail _ hlast ih => exact hact hlast ih

theorem Moves.acts (G : Grant) {s t : Cache × Multiset Addr}
    (hmoves : Moves s t) : Acts G s t :=
  Relation.ReflTransGen.mono (fun s t => Act.move s t) s t hmoves

/-- What an eviction may do with a reply. -/
def EvictAllowed (G : Grant) (c : Cache) : EvictPc → Reply → Prop
  | .opening addr _, .opened (.ok fd) => G.fd c (c.heap addr).key.id fd
  | .opening addr _, .opened (.error _) => G.forget c addr
  | .flushing addr _ _ pc, reply =>
      (Took c pc reply → (c.heap addr).size ≤ pc.sent (some reply) →
        G.sent c addr) ∧ (Refused c pc reply → G.discard)
  | _, _ => True

def ReadAllowed (G : Grant) (c : Cache) (r : Range) : ReadAtPc → Reply → Prop
  | .opening, .opened (.ok fd) => G.fd c r.id fd
  | .fetching _ _, .fetched (.ok bytes) =>
      (c.readQueue.lookup r.key).isSome → G.page c (c.fetchedPage r.key bytes)
  | .evicting _ pc, reply => EvictAllowed G c pc reply
  | _, _ => True

def WriteAllowed (G : Grant) (c : Cache) (r : Range) :
    WriteAtPc → Reply → Prop
  | .evicting _ pc, reply => EvictAllowed G c pc reply
  | _, _ => (c.lookup r.id).isSome → c.slot r.key = none →
      G.page c (c.emptyPage r.key)

def FlushAllowed (G : Grant) (c : Cache) (id : Id) : FlushPc → Reply → Prop
  | .opening, .opened (.ok fd) => G.fd c id fd
  | .flushing index addr _ pc, reply => c.slot ⟨id, index⟩ = some addr →
      addr ∈ c.lru → Took c pc reply →
      (c.heap addr).size ≤ pc.sent (some reply) → G.sent c addr
  | _, _ => True

/-- The pages held where an operation is suspended. -/
def heldBy {π α : Type} (held : π → Multiset Addr) : Flow π α → Multiset Addr
  | .await pc => held pc
  | .done _ => 0
  | .crash => 0

section

variable {G : Grant} {c c' : Cache} {held : Multiset Addr} {r : Range}

theorem evictDone_acts (addr : Addr) (hfault : G.discard) :
    Acts G (c, addr ::ₘ held) (c.evictDone addr, held) := by
  have hcount := Act.count (G := G) c (addr ::ₘ held) (c.heap addr).key.id _
    (counts_addWriteInflight (-1))
  have hdrop := Act.discard (G := G)
    (c.modifyEntry (c.heap addr).key.id (addWriteInflight (-1))) held addr
    hfault
  rw [modifyEntry_heap] at hdrop
  exact (Relation.ReflTransGen.single hcount).tail hdrop

theorem EvictPrefix.acts {pc : EvictPc} {reply : Reply}
    {start : Multiset Addr} (hbegin : EvictPrefix c held pc reply c' start)
    (hallow : EvictAllowed G c pc reply) :
    Acts G (c, pc.page ::ₘ held) (c', start) := by
  cases hbegin with
  | opened addr rest fd =>
      exact .single (.writeFd c _ _ fd hallow)
  | failed addr rest err =>
      exact (Relation.ReflTransGen.single (.forget c held addr hallow)).tail
        (.count c held _ _ (counts_addWriteInflight (-1)))
  | sent addr fd rest pc reply htook hsent =>
      exact .single (.sent c _ addr (hallow.1 htook hsent))
  | unsent addr fd rest pc reply hrefused =>
      exact evictDone_acts addr (hallow.2 hrefused)

theorem Moves.nextAddr_eq {s t : Cache × Multiset Addr}
    (hmoves : Moves s t) : t.1.nextAddr = s.1.nextAddr := by
  refine hmoves.preserves (I := fun t => t.1.nextAddr = s.1.nextAddr) ?_ rfl
  intro u v hmove hu
  rw [← hu]
  cases hmove with
  | inflight c held id n => exact modifyEntry_nextAddr c id _
  | lose c held rest addr hlru hentry => rfl
  | pop c held rest addr hlru => rfl
  | drop c held addr hclean => exact erasePage_nextAddr c _
  | clean c held addr hsize => rfl

theorem Moves.size_eq {s t : Cache × Multiset Addr} (hmoves : Moves s t)
    (addr : Addr) : (t.1.heap addr).size = (s.1.heap addr).size := by
  refine hmoves.preserves
    (I := fun t => (t.1.heap addr).size = (s.1.heap addr).size) ?_ rfl
  intro u v hmove hu
  rw [← hu]
  cases hmove with
  | inflight c held id n => rw [modifyEntry_heap]
  | lose c held rest addr' hlru hentry => rfl
  | pop c held rest addr' hlru => rfl
  | drop c held addr' hclean => rw [erasePage_heap]
  | clean c held addr' hsize =>
      by_cases heq : addr = addr'
      · subst heq
        simp [setDirty, modifyPage, Page.setDirty]
      · simp [setDirty, modifyPage, heq]

theorem EvictPrefix.nextAddr_eq {pc : EvictPc} {reply : Reply}
    {start : Multiset Addr} (hbegin : EvictPrefix c held pc reply c' start) :
    c'.nextAddr = c.nextAddr := by
  cases hbegin with
  | opened addr rest fd => exact modifyEntry_nextAddr c _ _
  | failed addr rest err => exact modifyEntry_nextAddr c _ _
  | sent addr fd rest pc reply htook hsent => rfl
  | unsent addr fd rest pc reply hrefused =>
      exact (erasePage_nextAddr _ _).trans (modifyEntry_nextAddr c _ _)

/-- An eviction inside an operation, up to the end of the operation. -/
theorem EvictStep.acts {π α : Type} {wrap : EvictPc → π}
    {finish : Cache → Cache × Flow π α} {reply : Reply} {pc : EvictPc}
    {flow : Flow π α}
    (hstep : EvictStep c held wrap finish reply pc c' flow)
    (hallow : EvictAllowed G c pc reply) :
    (∃ pc', flow = .await (wrap pc') ∧
      Acts G (c, pc.page ::ₘ held) (c', pc'.page ::ₘ held)) ∨
    ∃ c₁, Acts G (c, pc.page ::ₘ held) (c₁, held) ∧
      c₁.nextAddr = c.nextAddr ∧ finish c₁ = (c', flow) := by
  cases hstep with
  | send addr fd rest pc htook hmore =>
      exact .inl ⟨_, rfl, Relation.ReflTransGen.refl⟩
  | rounds pc c₁ start _ _ hbegin hthen =>
      have hacts := hbegin.acts hallow
      cases hthen with
      | await _ pc' hmoves hfresh =>
          exact .inl ⟨pc', rfl, hacts.trans (hmoves.acts G)⟩
      | finish c₂ hmoves =>
          exact .inr ⟨c₂, hacts.trans (hmoves.acts G),
            (Moves.nextAddr_eq hmoves).trans hbegin.nextAddr_eq, rfl⟩

theorem readAtFinish_acts {addr : Addr}
    {flow : Flow ReadAtPc (Except Errc (List Byte))}
    (hfinish : c.readAtFinish r addr = (c', flow)) (hflow : flow ≠ .crash) :
    Acts G (c, held) (c', heldBy ReadAtPc.held flow + held) := by
  unfold readAtFinish at hfinish
  split at hfinish
  · next hvalid =>
      obtain ⟨rfl, rfl⟩ := Prod.mk.inj hfinish
      rw [heldBy, Multiset.zero_add]
      exact (Relation.ReflTransGen.single (.splice c held addr hvalid.2)).tail
        (.count _ held _ _ (counts_addReadInflight (-1)))
  · exact absurd (Prod.mk.inj hfinish).2.symm hflow

theorem enqueue_act (key : PageKey) :
    Act G (c, held) ((c.enqueue key).1, held) :=
  .queue c held _ c.promises (c.nextFut + 1)

theorem ReadLookup.acts {flow : Flow ReadAtPc (Except Errc (List Byte))}
    (hlookup : ReadLookup c r c' flow) :
    Acts G (c, held) (c', heldBy ReadAtPc.held flow + held) := by
  cases hlookup with
  | hit addr hslot hmem =>
      rw [heldBy, Multiset.zero_add]
      exact (Relation.ReflTransGen.single (.splice c held addr hmem)).tail
        (.count _ held _ _ (counts_addReadInflight (-1)))
  | miss entry hentry hslot hfd =>
      simp only [heldBy, ReadAtPc.held, Multiset.zero_add]
      exact .refl
  | fetch entry fd hentry hslot hfd =>
      simp only [heldBy, ReadAtPc.held, Multiset.zero_add]
      exact .single (enqueue_act r.key)

theorem inserted_acts (held : Multiset Addr) (fut : Fut) {bytes : List Byte}
    (hpage : G.page c (c.fetchedPage r.key bytes)) :
    Acts G (c, held) (c.inserted r fut bytes, held) := by
  refine (Relation.ReflTransGen.single (.insert c held _ hpage)).tail ?_
  exact .queue (c.emplaceFront (c.fetchedPage r.key bytes)) held _ _ _

theorem ReadFails.acts {pc : ReadAtPc} {reply : Reply} {err : Errc}
    (hfails : ReadFails c r pc reply c' err) :
    Acts G (c, held) (c', held) := by
  cases hfails with
  | queued fut err hready herr => exact .refl
  | opening err => exact .refl
  | canceled fd fut bytes hqueue =>
      exact .single (.queue c held c.readQueue _ c.nextFut)
  | fetching fd fut err =>
      exact .single (.queue c held _ _ c.nextFut)

/-- A resumption of `read_at` only does what the grant allows. -/
theorem ReadStep.acts {pc : ReadAtPc} {reply : Reply}
    {flow : Flow ReadAtPc (Except Errc (List Byte))}
    (hstep : ReadStep c held r pc reply c' flow)
    (hallow : ReadAllowed G c r pc reply) (hflow : flow ≠ .crash) :
    Acts G (c, ReadAtPc.held pc + held)
      (c', heldBy ReadAtPc.held flow + held) := by
  cases hstep with
  | crash => exact absurd rfl hflow
  | queue fut hqueue =>
      simp only [heldBy, ReadAtPc.held, Multiset.zero_add]
      exact .single (.count c held _ _ (counts_addReadInflight 1))
  | start c₁ _ _ henter hlookup =>
      simp only [ReadAtPc.held, Multiset.zero_add]
      cases henter with
      | now hqueue =>
          exact (Relation.ReflTransGen.single (.count c held _ _
            (counts_addReadInflight 1))).trans hlookup.acts
  | queued fut c₁ _ _ henter hlookup =>
      simp only [ReadAtPc.held, Multiset.zero_add]
      cases henter with
      | woken _ hready => exact hlookup.acts
  | opened fd =>
      simp only [heldBy, ReadAtPc.held, Multiset.zero_add]
      exact (Relation.ReflTransGen.single (.readFd c held r.id fd hallow)).tail
        (enqueue_act r.key)
  | fail pc reply c₁ err hfails =>
      have hheld : ReadAtPc.held pc = 0 := by
        cases hfails <;> rfl
      rw [hheld, heldBy, Multiset.zero_add]
      exact hfails.acts.tail (.count c₁ held _ _
        (counts_addReadInflight (-1)))
  | insert fd fut fut' bytes addr _ _ hqueue hslot hthen =>
      simp only [ReadAtPc.held, Multiset.zero_add]
      have hinsert := inserted_acts held fut
        (hallow (by rw [hqueue]; rfl))
      cases hthen with
      | await _ pc' hmoves hfresh =>
          refine hinsert.trans ?_
          rw [heldBy, ReadAtPc.held, Multiset.singleton_add]
          exact hmoves.acts G
      | finish c₂ hmoves =>
          exact hinsert.trans
            ((hmoves.acts G).trans (readAtFinish_acts rfl hflow))
  | evict addr pc reply _ _ hstep =>
      rw [ReadAtPc.held, Multiset.singleton_add]
      rcases hstep.acts hallow with
        ⟨pc', rfl, hacts⟩ | ⟨c₁, hacts, -, hfinish⟩
      · rw [heldBy, ReadAtPc.held, Multiset.singleton_add]
        exact hacts
      · exact hacts.trans (readAtFinish_acts hfinish hflow)

/-- Where the page that `write_at` ends on comes from: it was there, or it is
the empty page created just now, or it was created before an eviction. -/
def WriteOrigin (c : Cache) (r : Range) (c₁ : Cache) (addr : Addr) : Prop :=
  (c₁ = c ∧ c.slot r.key = some addr) ∨
  (c.slot r.key = none ∧ (c₁.heap addr).size = 0) ∨
  c₁.nextAddr = c.nextAddr

/-- A resumption of `write_at` only does what the grant allows, up to the
write into the page that may end it. -/
theorem WriteStep.acts {input : List Byte} {pc : WriteAtPc} {reply : Reply}
    {flow : Flow WriteAtPc (Except Errc Nat)}
    (hstep : WriteStep c held r input pc reply c' flow)
    (hallow : WriteAllowed G c r pc reply) (hflow : flow ≠ .crash) :
    ((∀ n, flow ≠ .done (.ok n)) ∧ Acts G (c, WriteAtPc.held pc + held)
      (c', heldBy WriteAtPc.held flow + held)) ∨
    ∃ c₁ addr, Acts G (c, WriteAtPc.held pc + held) (c₁, held) ∧
      WriteOrigin c r c₁ addr ∧
      c₁.writeAtFinish r input addr = (c', flow) := by
  have hlooked : ∀ flow, WriteLookup c held r input c' flow →
      ((c.lookup r.id).isSome → c.slot r.key = none →
        G.page c (c.emptyPage r.key)) →
      ((∀ n, flow ≠ .done (.ok n)) ∧ Acts G (c, held)
        (c', heldBy WriteAtPc.held flow + held)) ∨
      ∃ c₁ addr, Acts G (c, held) (c₁, held) ∧ WriteOrigin c r c₁ addr ∧
        c₁.writeAtFinish r input addr = (c', flow) := by
    intro flow hlookup hpage
    cases hlookup with
    | hit addr hslot => exact .inr ⟨c, addr, .refl, .inl ⟨rfl, hslot⟩, rfl⟩
    | miss entry hentry hslot _ _ hthen =>
        have hinsert : Acts G (c, held)
            (c.emplaceFront (c.emptyPage r.key), held) :=
          .single (.insert c held _ (hpage (by rw [hentry]; rfl) hslot))
        cases hthen with
        | await _ pc' hmoves hfresh =>
            refine .inl ⟨fun n heq => (by cases heq), ?_⟩
            rw [heldBy, WriteAtPc.held, Multiset.singleton_add]
            exact hinsert.trans (hmoves.acts G)
        | finish c₂ hmoves =>
            refine .inr ⟨c₂, c.nextAddr, hinsert.trans (hmoves.acts G),
              .inr (.inl ⟨hslot, ?_⟩), rfl⟩
            rw [Moves.size_eq hmoves, emplaceFront_heap, Function.update_self]
            rfl
  cases hstep with
  | crash => exact absurd rfl hflow
  | queue fut hqueue =>
      refine .inl ⟨fun n heq => (by cases heq), ?_⟩
      simp only [heldBy, WriteAtPc.held, Multiset.zero_add]
      exact .refl
  | start _ _ henter hlookup =>
      simp only [WriteAtPc.held, Multiset.zero_add]
      exact hlooked flow hlookup hallow
  | queued fut _ _ henter hlookup =>
      simp only [WriteAtPc.held, Multiset.zero_add]
      exact hlooked flow hlookup hallow
  | fail fut err hready herr =>
      refine .inl ⟨fun n heq => (by cases heq), ?_⟩
      simp only [heldBy, WriteAtPc.held, Multiset.zero_add]
      exact .refl
  | evict addr pc reply _ _ hstep =>
      rw [WriteAtPc.held, Multiset.singleton_add]
      rcases hstep.acts hallow with
        ⟨pc', rfl, hacts⟩ | ⟨c₁, hacts, hnext, hfinish⟩
      · refine .inl ⟨fun n heq => (by cases heq), ?_⟩
        rw [heldBy, WriteAtPc.held, Multiset.singleton_add]
        exact hacts
      · exact .inr ⟨c₁, addr, hacts, .inr (.inr hnext), hfinish⟩

/-- A resumption of `flush` only does what the grant allows, up to the flag
that it clears at its end. -/
theorem FlushStep.acts (held : Multiset Addr) {id : Id} {pc : FlushPc}
    {reply : Reply}
    {flow : Flow FlushPc (Except Errc Unit)}
    (hstep : FlushStep c id pc reply c' flow)
    (hallow : FlushAllowed G c id pc reply) (hflow : flow ≠ .crash) :
    Acts G (c, held) (c', held) ∨
    ∃ c₁, Acts G (c, held) (c₁, held) ∧ flow = .done (.ok ()) ∧
      c' = c₁.modifyEntry id fun entry =>
        addWriteInflight (-1) (setEntryDirty false entry) := by
  cases hstep with
  | crash => exact absurd rfl hflow
  | nothing hclean => exact .inl .refl
  | «open» entry hentry hdirty hfd => exact .inl .refl
  | openFail err => exact .inl .refl
  | send index addr fd pc reply hslot hmem htook hmore => exact .inl .refl
  | refused index addr fd pc reply err hrefused =>
      exact .inl (.single (.count c held _ _ (counts_addWriteInflight (-1))))
  | loop pc reply c₁ indices henter hruns =>
      have hacts : Acts G (c, held) (c₁, held) := by
        cases henter with
        | start entry fd hentry hdirty hfd =>
            exact .single (.count c held _ _ (counts_addWriteInflight 1))
        | opened entry fd hentry =>
            exact (Relation.ReflTransGen.single
              (.writeFd c held id fd hallow)).tail
              (.count _ held _ _ (counts_addWriteInflight 1))
        | sent entry index addr fd pc reply hentry hslot hmem htook hsent =>
            exact .single (.sent c held addr (hallow hslot hmem htook hsent))
      generalize hfinal : (flushLoop id indices c₁).1 = cfinal at hruns ⊢
      generalize (flushLoop id indices c₁).2 = flow' at hruns hflow ⊢
      cases hruns with
      | crash => exact absurd rfl hflow
      | await _ index addr fd pc entry hmoves hslot hmem hfresh hentry hfd =>
          exact .inl (hacts.trans ((hmoves held).acts G))
      | done c₂ hmoves =>
          exact .inr ⟨c₂, hacts.trans ((hmoves held).acts G), rfl, rfl⟩

end

end Cache

end Madbfs
