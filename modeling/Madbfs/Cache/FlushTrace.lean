/-
A flush that runs alone.  It goes through the pages of its file in the order of
their indices.  Wherever it is, the pages it has passed are clean and accepted
by the device, the page it is at has been accepted up to the position it has
sent, and the others are as they were.
-/
import Madbfs.Cache.Parts
import Madbfs.Cache.Trace

namespace Madbfs

open Bytes

namespace Cache

/-- The cached pages of one file, which no other operation is working on. -/
structure Flushable (c : Cache) (id : Id) (entry : LookupEntry) : Prop where
  lookup : c.lookup id = some entry
  cached : ∀ index addr, c.slot ⟨id, index⟩ = some addr →
    addr ∈ c.lru ∧ (c.heap addr).key = ⟨id, index⟩
  pos : ∀ index addr, c.slot ⟨id, index⟩ = some addr →
    (c.heap addr).dirty = true → 0 < (c.heap addr).size
  marked : ∀ index addr, c.slot ⟨id, index⟩ = some addr →
    (c.heap addr).dirty = true → entry.dirty = true
  queue : ∀ index, c.readQueue.lookup ⟨id, index⟩ = none

/-- The page with this slot has been accepted as a whole. -/
def AllAccepted (c : Cache) (log : List (FlushPc × Reply)) (addr : Addr) :
    Prop :=
  ∀ pos < (c.heap addr).size, Accepted FlushPc.sends log addr pos

/-- A flush of the file is through with the pages whose indices are not in
`rest`. -/
structure Through (c₀ : Cache) (id : Id) (entry₀ : LookupEntry)
    (log : List (FlushPc × Reply)) (c : Cache) (entry : LookupEntry)
    (rest : List Nat) : Prop where
  suffix : rest <:+ entry₀.indices
  lru : c.lru = c₀.lru
  readQueue : c.readQueue = c₀.readQueue
  pageSize : c.pageSize = c₀.pageSize
  others : ∀ id' ≠ id, c.lookup id' = c₀.lookup id'
  lookup : c.lookup id = some entry
  pages : entry.pages = entry₀.pages
  path : entry.path = entry₀.path
  writeFd : ∀ fd, entry.writeFd = some fd → entry₀.writeFd = some fd ∨
    (.opening, .opened (.ok fd)) ∈ log
  behind : ∀ index addr, c₀.slot ⟨id, index⟩ = some addr → index ∉ rest →
    c.heap addr = (c₀.heap addr).setDirty false ∧
      ((c₀.heap addr).dirty = true → AllAccepted c₀ log addr)
  ahead : ∀ index addr, c₀.slot ⟨id, index⟩ = some addr → index ∈ rest →
    c.heap addr = c₀.heap addr
  apart : ∀ addr, (∀ index, c₀.slot ⟨id, index⟩ ≠ some addr) →
    c.heap addr = c₀.heap addr

/-- Nothing of the pages whose indices are in `rest` has been accepted. -/
def Quiet (c₀ : Cache) (id : Id) (log : List (FlushPc × Reply))
    (rest : List Nat) : Prop :=
  ∀ index ∈ rest, ∀ addr, c₀.slot ⟨id, index⟩ = some addr →
    ∀ pos, ¬ Accepted FlushPc.sends log addr pos

section

variable {c₀ c : Cache} {id : Id} {entry₀ entry : LookupEntry}
  {log : List (FlushPc × Reply)} {rest : List Nat} {index : Nat} {addr : Addr}

theorem Flushable.slot_inj (hflushable : Flushable c₀ id entry₀)
    (hslot : c₀.slot ⟨id, index⟩ = some addr) {index' : Nat}
    (hslot' : c₀.slot ⟨id, index'⟩ = some addr) : index' = index := by
  have hkey := (hflushable.cached index addr hslot).2
  have hkey' := (hflushable.cached index' addr hslot').2
  exact congrArg PageKey.index (hkey'.symm.trans hkey)

theorem Flushable.slot_of_mem (hflushable : Flushable c₀ id entry₀)
    (hmem : index ∈ entry₀.indices) :
    ∃ addr, c₀.slot ⟨id, index⟩ = some addr := by
  obtain ⟨addr, haddr⟩ :=
    Option.isSome_iff_exists.mp (LookupEntry.mem_indices.mp hmem)
  exact ⟨addr, by simp [slot, hflushable.lookup, haddr]⟩

theorem through_refl (hflushable : Flushable c₀ id entry₀)
    (log : List (FlushPc × Reply)) :
    Through c₀ id entry₀ log c₀ entry₀ entry₀.indices where
  suffix := List.suffix_refl _
  lru := rfl
  readQueue := rfl
  pageSize := rfl
  others := fun _ _ => rfl
  lookup := hflushable.lookup
  pages := rfl
  path := rfl
  writeFd := fun _ hfd => .inl hfd
  behind := fun _ _ hslot hnot =>
    absurd (mem_indices_of_slot hflushable.lookup hslot) hnot
  ahead := fun _ _ _ _ => rfl
  apart := fun _ _ => rfl

theorem Through.slot_eq (hthrough : Through c₀ id entry₀ log c entry rest)
    (hflushable : Flushable c₀ id entry₀) (key : PageKey) :
    c.slot key = c₀.slot key := by
  obtain ⟨id', index⟩ := key
  by_cases hid : id' = id
  · subst hid
    simp [slot, hthrough.lookup, hflushable.lookup, hthrough.pages]
  · simp [slot, hthrough.others id' hid]

/-- The cache and its entry change in what the flush keeps books on. -/
theorem Through.modifyEntry (hthrough : Through c₀ id entry₀ log c entry rest)
    {f : LookupEntry → LookupEntry}
    (hpages : (f entry).pages = entry.pages)
    (hpath : (f entry).path = entry.path)
    (hfd : ∀ fd, (f entry).writeFd = some fd → entry.writeFd = some fd ∨
      (.opening, .opened (.ok fd)) ∈ log) :
    Through c₀ id entry₀ log (c.modifyEntry id f) (f entry) rest := by
  obtain ⟨hsuffix, hlru, hqueue, hsize, hothers, hlookup, hpages', hpath',
    hfd', hbehind, hahead, hapart⟩ := hthrough
  refine ⟨hsuffix, by simpa, by simpa, by simpa, ?_, ?_, hpages.trans hpages',
    hpath.trans hpath', ?_, ?_, ?_, ?_⟩
  · intro id' hid
    rw [lookup_modifyEntry, if_neg hid]
    exact hothers id' hid
  · rw [lookup_modifyEntry, if_pos rfl, hlookup]
    rfl
  · intro fd h
    rcases hfd fd h with h | h
    · exact hfd' fd h
    · exact .inr h
  · simpa only [modifyEntry_heap] using hbehind
  · simpa only [modifyEntry_heap] using hahead
  · simpa only [modifyEntry_heap] using hapart

theorem Through.note (hthrough : Through c₀ id entry₀ log c entry rest)
    (event : FlushPc × Reply) :
    Through c₀ id entry₀ (event :: log) c entry rest := by
  obtain ⟨hsuffix, hlru, hqueue, hsize, hothers, hlookup, hpages, hpath,
    hfd, hbehind, hahead, hapart⟩ := hthrough
  refine ⟨hsuffix, hlru, hqueue, hsize, hothers, hlookup, hpages, hpath, ?_,
    ?_, hahead, hapart⟩
  · intro fd h
    exact (hfd fd h).imp_right (List.mem_cons_of_mem event)
  · intro index addr hslot hnot
    obtain ⟨hheap, hall⟩ := hbehind index addr hslot hnot
    exact ⟨hheap, fun hdirty pos hlt => (hall hdirty pos hlt).cons event⟩

theorem not_mem_of_suffix_indices {entry : LookupEntry}
    (hsuffix : index :: rest <:+ entry.indices) : index ∉ rest := by
  have hsorted := entry.indices_sorted.sublist hsuffix.sublist
  intro hmem
  exact Nat.lt_irrefl _ (List.rel_of_pairwise_cons hsorted hmem)

/-- The flush passes a page that is clean. -/
theorem Through.skip
    (hthrough : Through c₀ id entry₀ log c entry (index :: rest))
    (hslot : c₀.slot ⟨id, index⟩ = some addr)
    (hclean : (c₀.heap addr).dirty = false) :
    Through c₀ id entry₀ log c entry rest := by
  have hsame := hthrough.ahead index addr hslot List.mem_cons_self
  obtain ⟨hsuffix, hlru, hqueue, hsize, hothers, hlookup, hpages, hpath,
    hfd, hbehind, hahead, hapart⟩ := hthrough
  refine ⟨(List.suffix_cons index rest).trans hsuffix, hlru, hqueue, hsize,
    hothers, hlookup, hpages, hpath, hfd, ?_, ?_, hapart⟩
  · intro index' addr' hslot' hnot
    by_cases heq : index' = index
    · subst heq
      obtain rfl := Option.some.inj (hslot.symm.trans hslot')
      refine ⟨?_, fun hdirty => ?_⟩
      · rw [hsame, Page.setDirty, ← hclean]
      · rw [hclean] at hdirty
        cases hdirty
    · exact hbehind index' addr' hslot' (by simp [heq, hnot])
  · intro index' addr' hslot' hmem
    exact hahead index' addr' hslot' (List.mem_cons_of_mem index hmem)

/-- The flush is through with a page of which every byte is accepted. -/
theorem Through.sent (hflushable : Flushable c₀ id entry₀)
    (hthrough : Through c₀ id entry₀ log c entry (index :: rest))
    (hslot : c₀.slot ⟨id, index⟩ = some addr)
    (hall : AllAccepted c₀ log addr) :
    Through c₀ id entry₀ log (c.setDirty addr false) entry rest := by
  have hsame := hthrough.ahead index addr hslot List.mem_cons_self
  have hnot := not_mem_of_suffix_indices hthrough.suffix
  have hheap := setDirty_heap c addr
  obtain ⟨hsuffix, hlru, hqueue, hsize, hothers, hlookup, hpages, hpath,
    hfd, hbehind, hahead, hapart⟩ := hthrough
  have hne : ∀ index' addr', c₀.slot ⟨id, index'⟩ = some addr' →
      index' ≠ index → addr' ≠ addr := by
    rintro index' addr' hslot' hindex rfl
    exact hindex (hflushable.slot_inj hslot hslot')
  refine ⟨(List.suffix_cons index rest).trans hsuffix, hlru, hqueue, hsize,
    hothers, hlookup, hpages, hpath, hfd, ?_, ?_, ?_⟩
  · intro index' addr' hslot' hnot'
    by_cases heq : index' = index
    · subst heq
      obtain rfl := Option.some.inj (hslot.symm.trans hslot')
      rw [hheap, if_pos rfl, hsame]
      exact ⟨rfl, fun _ => hall⟩
    · rw [hheap, if_neg (hne index' addr' hslot' heq)]
      exact hbehind index' addr' hslot' (by simp [heq, hnot'])
  · intro index' addr' hslot' hmem
    have heq : index' ≠ index := fun h => hnot (h ▸ hmem)
    rw [hheap, if_neg (hne index' addr' hslot' heq)]
    exact hahead index' addr' hslot' (List.mem_cons_of_mem index hmem)
  · intro addr' hout
    have hne' : addr' ≠ addr := fun h => hout index (h ▸ hslot)
    rw [hheap, if_neg hne']
    exact hapart addr' hout

theorem filter_of_suffix_indices {entry : LookupEntry}
    (hsuffix : index :: rest <:+ entry.indices) :
    entry.indices.filter (index < ·) = rest := by
  obtain ⟨before, hbefore⟩ := hsuffix
  have hsorted := entry.indices_sorted
  rw [← hbefore, List.pairwise_append] at hsorted
  rw [← hbefore, List.filter_append, List.filter_cons_of_neg (by simp)]
  have hpassed : before.filter (index < ·) = [] := by
    rw [List.filter_eq_nil_iff]
    intro index' hmem
    have hlt := hsorted.2.2 index' hmem index List.mem_cons_self
    simpa using Nat.le_of_lt hlt
  have hahead : rest.filter (index < ·) = rest := by
    rw [List.filter_eq_self]
    intro index' hmem
    simpa using List.rel_of_pairwise_cons hsorted.2.1 hmem
  rw [hpassed, hahead, List.nil_append]

theorem Quiet.cons {rest : List Nat} (hquiet : Quiet c₀ id log rest)
    {pc : FlushPc} {reply : Reply}
    (hother : ∀ n, reply ≠ .written (.ok n)) :
    Quiet c₀ id ((pc, reply) :: log) rest := by
  intro index hmem addr hslot pos
  rw [accepted_cons_other hother]
  exact hquiet index hmem addr hslot pos

end

/-- The states of a flush that runs alone from the cache `c₀`. -/
inductive FlushTrace (c₀ : Cache) (id : Id) (entry₀ : LookupEntry) :
    Trace FlushPc (Except Errc Unit) → Prop
  | start (log : List (FlushPc × Reply))
      (hquiet : Quiet c₀ id log entry₀.indices) :
      FlushTrace c₀ id entry₀ ⟨c₀, .await .start, log⟩
  | opening (log : List (FlushPc × Reply))
      (hquiet : Quiet c₀ id log entry₀.indices)
      (hdirty : entry₀.dirty = true) :
      FlushTrace c₀ id entry₀ ⟨c₀, .await .opening, log⟩
  | sending (c : Cache) (entry : LookupEntry) (log : List (FlushPc × Reply))
      (index : Nat) (rest : List Nat) (addr : Addr) (fd : Fd) (written : Nat)
      (hthrough : Through c₀ id entry₀ log c entry (index :: rest))
      (hmarked : entry.dirty = true) (hfd : entry.writeFd = some fd)
      (hquiet : Quiet c₀ id log rest)
      (hslot : c₀.slot ⟨id, index⟩ = some addr)
      (hdirty : (c₀.heap addr).dirty = true)
      (hlt : written < (c₀.heap addr).size)
      (hreached : ∀ pos, Accepted FlushPc.sends log addr pos ↔
        pos < written) :
      FlushTrace c₀ id entry₀ ⟨c, .await (.flushing index addr fd
        (.writing written ((c₀.heap addr).size - written))), log⟩
  | failed (c : Cache) (entry : LookupEntry) (log : List (FlushPc × Reply))
      (rest : List Nat) (err : Errc)
      (hthrough : Through c₀ id entry₀ log c entry rest)
      (hmarked : entry.dirty = true)
      (hpartly : ∀ index ∈ rest, ∀ addr, c₀.slot ⟨id, index⟩ = some addr →
        (c₀.heap addr).dirty = true → ¬ AllAccepted c₀ log addr) :
      FlushTrace c₀ id entry₀ ⟨c, .done (.error err), log⟩
  | clean (log : List (FlushPc × Reply)) (hclean : entry₀.dirty = false) :
      FlushTrace c₀ id entry₀ ⟨c₀, .done (.ok ()), log⟩
  | flushed (c : Cache) (entry : LookupEntry) (log : List (FlushPc × Reply))
      (hthrough : Through c₀ id entry₀ log c entry []) :
      FlushTrace c₀ id entry₀ ⟨c, .done (.ok ()), log⟩

section

variable {c₀ c : Cache} {id : Id} {entry₀ entry : LookupEntry}
  {log : List (FlushPc × Reply)} {rest : List Nat} {index : Nat} {addr : Addr}

/-- The loop of a flush goes on to the next dirty page, if there is one. -/
theorem flushLoop_trace (hflushable : Flushable c₀ id entry₀)
    (hthrough : Through c₀ id entry₀ log c entry rest)
    (hmarked : entry.dirty = true) {fd : Fd} (hfd : entry.writeFd = some fd)
    (hquiet : Quiet c₀ id log rest) :
    FlushTrace c₀ id entry₀
      ⟨(flushLoop id rest c).1, (flushLoop id rest c).2, log⟩ := by
  induction rest with
  | nil =>
      exact .flushed _ _ log (hthrough.modifyEntry rfl rfl fun _ h => .inl h)
  | cons index rest ih =>
      have hindex := hthrough.suffix.subset List.mem_cons_self
      obtain ⟨addr, hslot⟩ := hflushable.slot_of_mem hindex
      have hpage : entry.pages.lookup index = some addr := by
        have hslot' := (hthrough.slot_eq hflushable ⟨id, index⟩).trans hslot
        simpa [slot, hthrough.lookup] using hslot'
      obtain ⟨hmem, hkey⟩ := hflushable.cached index addr hslot
      have hheap := hthrough.ahead index addr hslot List.mem_cons_self
      have hquiet' : Quiet c₀ id log rest := fun index' hmem' =>
        hquiet index' (List.mem_cons_of_mem index hmem')
      rw [flushLoop, hthrough.lookup]
      dsimp only
      rw [hpage]
      dsimp only
      rw [if_neg (by simpa [hthrough.lru] using hmem)]
      by_cases hdirty : (c₀.heap addr).dirty = true
      · have hpos := hflushable.pos index addr hslot hdirty
        have hqueue : c.readQueue.lookup (c.heap addr).key = none := by
          rw [hthrough.readQueue, hheap, hkey]
          exact hflushable.queue index
        rw [hheap, if_pos hdirty, hfd]
        dsimp only
        rw [flushAt, hqueue]
        dsimp only
        rw [flushAtLoop, hheap, if_pos hpos]
        refine .sending c entry log index rest addr fd 0 hthrough hmarked hfd
          hquiet' hslot hdirty hpos fun pos => ?_
        have hnot := hquiet index List.mem_cons_self addr hslot pos
        exact ⟨fun h => absurd h hnot, fun h => absurd h (Nat.not_lt_zero pos)⟩
      · rw [hheap, if_neg hdirty]
        exact ih (hthrough.skip hslot (by simpa using hdirty)) hquiet'

/-- A flush with its descriptor begins with the first page. -/
theorem flushPages_trace (hflushable : Flushable c₀ id entry₀)
    (hthrough : Through c₀ id entry₀ log c entry entry₀.indices)
    (hmarked : entry.dirty = true) {fd : Fd} (hfd : entry.writeFd = some fd)
    (hquiet : Quiet c₀ id log entry₀.indices) :
    FlushTrace c₀ id entry₀
      ⟨(c.flushPages id).1, (c.flushPages id).2, log⟩ := by
  have hindices : entry.indices = entry₀.indices := by
    rw [LookupEntry.indices, hthrough.pages, LookupEntry.indices]
  rw [flushPages, hthrough.lookup]
  dsimp only
  rw [hindices]
  have hcount := hthrough.modifyEntry (f := addWriteInflight 1) rfl rfl
    fun _ h => .inl h
  exact flushLoop_trace hflushable hcount hmarked hfd hquiet

/-- A page of which some bytes are left is not accepted as a whole. -/
theorem not_allAccepted {written : Nat}
    (hlt : written < (c₀.heap addr).size)
    (hreached : ∀ pos, Accepted FlushPc.sends log addr pos ↔ pos < written) :
    ¬ AllAccepted c₀ log addr := by
  intro hall
  exact Nat.lt_irrefl written ((hreached written).mp (hall written hlt))

theorem Quiet.partly (hflushable : Flushable c₀ id entry₀)
    (hquiet : Quiet c₀ id log rest) : ∀ index ∈ rest, ∀ addr,
    c₀.slot ⟨id, index⟩ = some addr → (c₀.heap addr).dirty = true →
      ¬ AllAccepted c₀ log addr := by
  intro index hmem addr hslot hdirty hall
  exact hquiet index hmem addr hslot 0
    (hall 0 (hflushable.pos index addr hslot hdirty))

/-- A flush goes on with the rest of a page, or with the next page. -/
theorem flushNext_trace (hflushable : Flushable c₀ id entry₀)
    (hthrough : Through c₀ id entry₀ log c entry (index :: rest))
    (hmarked : entry.dirty = true) {fd : Fd} (hfd : entry.writeFd = some fd)
    (hquiet : Quiet c₀ id log rest) (hslot : c₀.slot ⟨id, index⟩ = some addr)
    (hdirty : (c₀.heap addr).dirty = true) {written : Nat}
    (hreached : ∀ pos, Accepted FlushPc.sends log addr pos ↔ pos < written) :
    FlushTrace c₀ id entry₀
      ⟨(flushNext id index (c.flushAtLoop addr written) addr fd).1,
        (flushNext id index (c.flushAtLoop addr written) addr fd).2, log⟩ := by
  have hheap := hthrough.ahead index addr hslot List.mem_cons_self
  rw [flushNext, flushAtLoop, hheap]
  by_cases hmore : written < (c₀.heap addr).size
  · rw [if_pos hmore]
    exact .sending c entry log index rest addr fd written hthrough hmarked hfd
      hquiet hslot hdirty hmore hreached
  · rw [if_neg hmore]
    have hall : AllAccepted c₀ log addr := fun pos hlt =>
      (hreached pos).mpr (by omega)
    have hsent := hthrough.sent hflushable hslot hall
    have hindices : entry.indices = entry₀.indices := by
      rw [LookupEntry.indices, hthrough.pages, LookupEntry.indices]
    simp only [Flow.andThen, hsent.lookup]
    rw [hindices, filter_of_suffix_indices hthrough.suffix]
    exact flushLoop_trace hflushable hsent hmarked hfd hquiet

/-- One resumption of a flush that runs alone. -/
theorem FlushTrace.step (hflushable : Flushable c₀ id entry₀)
    {t t' : Trace FlushPc (Except Errc Unit)} {reply : Reply}
    (htrace : FlushTrace c₀ id entry₀ t)
    (hstep : t.step (fun c => c.flushResume id) reply = some t') :
    FlushTrace c₀ id entry₀ t' := by
  obtain ⟨pc, x, hflow, hx, rfl⟩ := Trace.step_cases hstep
  cases htrace with
  | start log hquiet =>
      obtain rfl := Flow.await.inj hflow
      cases reply with
      | go =>
          obtain rfl := Option.some.inj hx
          have hquiet' : Quiet c₀ id ((.start, .go) :: log) _ :=
            hquiet.cons fun _ h => by cases h
          have hthrough := through_refl hflushable ((.start, .go) :: log)
          dsimp only
          rw [flushStart, hflushable.lookup]
          dsimp only
          by_cases hdirty : entry₀.dirty = true
          · rw [if_pos hdirty]
            cases hfd : entry₀.writeFd with
            | none => exact .opening _ hquiet' hdirty
            | some fd =>
                exact flushPages_trace hflushable hthrough hdirty hfd hquiet'
          · rw [if_neg hdirty]
            exact .clean _ (by simpa using hdirty)
      | _ => cases hx
  | opening log hquiet hdirty =>
      obtain rfl := Flow.await.inj hflow
      cases reply with
      | opened res =>
          have hquiet' : Quiet c₀ id ((.opening, .opened res) :: log) _ :=
            hquiet.cons fun _ h => by cases h
          have hthrough := through_refl hflushable
            ((.opening, .opened res) :: log)
          cases res with
          | ok fd =>
              obtain rfl := Option.some.inj hx
              have hopened := hthrough.modifyEntry (f := setWriteFd (some fd))
                rfl rfl fun fd' h => by
                  obtain rfl := Option.some.inj h
                  exact .inr List.mem_cons_self
              exact flushPages_trace hflushable hopened hdirty rfl hquiet'
          | error err =>
              obtain rfl := Option.some.inj hx
              exact .failed c₀ entry₀ _ entry₀.indices err hthrough hdirty
                (hquiet'.partly hflushable)
      | _ => cases hx
  | sending c entry log index rest addr fd written hthrough hmarked hfd hquiet
      hslot hdirty hlt hreached =>
      obtain rfl := Flow.await.inj hflow
      have hheap := hthrough.ahead index addr hslot List.mem_cons_self
      have hvalid : c.slot ⟨id, index⟩ = some addr ∧ addr ∈ c.lru := by
        rw [hthrough.slot_eq hflushable, hthrough.lru]
        exact ⟨hslot, (hflushable.cached index addr hslot).1⟩
      have hnot := not_mem_of_suffix_indices hthrough.suffix
      dsimp only at hx
      rw [flushResume, if_pos hvalid] at hx
      cases reply with
      | written res =>
          obtain ⟨y, hy, rfl⟩ := Option.map_eq_some_iff.mp hx
          generalize hpc : FlushPc.flushing index addr fd (.writing written
            ((c₀.heap addr).size - written)) = pc
          have hsends : FlushPc.sends pc = some (addr, written) := by
            rw [← hpc]
            rfl
          have hthrough' := hthrough.note (pc, .written res)
          cases res with
          | ok n =>
              obtain rfl := Option.some.inj hy
              refine flushNext_trace hflushable hthrough' hmarked hfd ?_ hslot
                hdirty fun pos => ?_
              · intro index' hmem addr' hslot' pos haccepted
                rcases accepted_cons.mp haccepted with
                  ⟨written', n', -, hsends', -⟩ | hold
                · obtain ⟨rfl, -⟩ := Prod.mk.inj
                    (Option.some.inj (hsends.symm.trans hsends'))
                  exact hnot (hflushable.slot_inj hslot hslot' ▸ hmem)
                · exact hquiet index' hmem addr' hslot' pos hold
              · rw [accepted_cons, hreached]
                constructor
                · rintro (⟨written', n', heq, hsends', hle, hlt'⟩ | hold)
                  · obtain rfl := Except.ok.inj (Reply.written.inj heq)
                    obtain ⟨-, rfl⟩ := Prod.mk.inj
                      (Option.some.inj (hsends.symm.trans hsends'))
                    exact hlt'
                  · omega
                · intro hlt'
                  by_cases hold : pos < written
                  · exact .inr hold
                  · exact .inl ⟨written, n, rfl, hsends, by omega, hlt'⟩
          | error err =>
              obtain rfl := Option.some.inj hy
              have hother : ∀ n, Reply.written (.error err) ≠
                  .written (.ok n) := fun n h => by cases h
              have hcount := hthrough'.modifyEntry
                (f := addWriteInflight (-1)) rfl rfl fun _ h => .inl h
              refine .failed _ _ _ _ err hcount hmarked ?_
              intro index' hmem addr' hslot' hdirty'
              rcases List.mem_cons.mp hmem with rfl | hrest
              · obtain rfl := Option.some.inj (hslot.symm.trans hslot')
                exact not_allAccepted hlt fun pos =>
                  (accepted_cons_other hother).trans (hreached pos)
              · exact (hquiet.cons hother).partly hflushable index' hrest addr'
                  hslot' hdirty'
      | _ => cases hx
  | failed => cases hflow
  | clean => cases hflow
  | flushed => cases hflow

/-- A page is untouched or has only become clean. -/
theorem Through.heap_cases
    (hthrough : Through c₀ id entry₀ log c entry rest) (addr : Addr) :
    c.heap addr = c₀.heap addr ∨
      c.heap addr = (c₀.heap addr).setDirty false := by
  by_cases hin : ∃ index, c₀.slot ⟨id, index⟩ = some addr
  · obtain ⟨index, hslot⟩ := hin
    by_cases hmem : index ∈ rest
    · exact .inl (hthrough.ahead index addr hslot hmem)
    · exact .inr (hthrough.behind index addr hslot hmem).1
  · exact .inl (hthrough.apart addr fun index h => hin ⟨index, h⟩)

end

end Cache

end Madbfs
