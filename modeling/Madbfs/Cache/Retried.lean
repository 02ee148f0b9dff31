/-
A flush that fails can be tried again.  An error leaves every page with its
content and a file that can be flushed; the next flush sends what is left, and
on a device without faults it comes to an end.
-/
import Madbfs.Cache.FlushTrace
import Madbfs.Cache.Progress

namespace Madbfs

open Bytes

namespace Cache

/-- What a failed flush leaves of the cache `c`: every page with its content.
Of the dirty pages exactly those are clean of which the device has accepted
every byte. -/
structure Unflushed (c : Cache) (id : Id) (log : List (FlushPc × Reply))
    (c' : Cache) : Prop where
  lru : c'.lru = c.lru
  slot : ∀ key, c'.slot key = c.slot key
  content : ∀ addr, c'.heap addr =
    (c.heap addr).setDirty (c'.heap addr).dirty
  others : ∀ addr, (∀ index, c.slot ⟨id, index⟩ ≠ some addr) →
    c'.heap addr = c.heap addr
  clean : ∀ addr, (c.heap addr).dirty = false → (c'.heap addr).dirty = false
  clean_iff : ∀ index addr, c.slot ⟨id, index⟩ = some addr →
    (c.heap addr).dirty = true →
      ((c'.heap addr).dirty = false ↔ AllAccepted c log addr)
  marked : ∃ entry, c'.lookup id = some entry ∧ entry.dirty = true

section

variable {c₀ c : Cache} {id : Id} {entry₀ entry : LookupEntry}
  {log : List (FlushPc × Reply)} {rest : List Nat}

/-- What a flush has done to the pages when it returns an error. -/
theorem Through.unflushed (hflushable : Flushable c₀ id entry₀)
    (hthrough : Through c₀ id entry₀ log c entry rest)
    (hmarked : entry.dirty = true)
    (hpartly : ∀ index ∈ rest, ∀ addr, c₀.slot ⟨id, index⟩ = some addr →
      (c₀.heap addr).dirty = true → ¬ AllAccepted c₀ log addr) :
    Unflushed c₀ id log c where
  lru := hthrough.lru
  slot := hthrough.slot_eq hflushable
  content := by
    intro addr
    rcases hthrough.heap_cases addr with h | h
    · rw [h]
      rfl
    · rw [h]
      rfl
  others := hthrough.apart
  clean := by
    intro addr hclean
    rcases hthrough.heap_cases addr with h | h
    · rw [h]
      exact hclean
    · rw [h]
      rfl
  clean_iff := by
    intro index addr hslot hdirty
    by_cases hmem : index ∈ rest
    · have hnot := hpartly index hmem addr hslot hdirty
      rw [hthrough.ahead index addr hslot hmem, hdirty]
      exact ⟨fun h => (by cases h), fun h => absurd h hnot⟩
    · obtain ⟨hheap, hall⟩ := hthrough.behind index addr hslot hmem
      rw [hheap]
      exact ⟨fun _ => hall hdirty, fun _ => rfl⟩
  marked := ⟨entry, hthrough.lookup, hmarked⟩

end

/-- The byte at `pos` of a page is on the device. -/
def OnDevice (c : Cache) (d : Device) (path : Path) (index : Nat) (addr : Addr)
    (pos : Nat) : Prop :=
  (d.file path)[index * c.pageSize + pos]? =
    some (valueAt (c.heap addr).data pos)

/-- The buffers of the file are well formed, and its descriptor leads to it. -/
structure Wired (c : Cache) (d : Device) (id : Id) (entry : LookupEntry) :
    Prop where
  wf : ∀ index addr, c.slot ⟨id, index⟩ = some addr →
    (c.heap addr).WF c.pageSize
  writeFd : ∀ fd, entry.writeFd = some fd → d.fds fd = some entry.path

/-- The reply to a flush at `pc` is that of a device without faults. -/
def Fair : FlushPc → Reply → Prop
  | .start, reply => reply = .go
  | .opening, reply => ∃ fd, reply = .opened (.ok fd)
  | .flushing _ _ _ _, reply => ∃ n, 0 < n ∧ reply = .written (.ok n)

/-- What an answer of the device does to the file. -/
structure Obeys (c₀ : Cache) (id : Id) (path : Path) (d : Device)
    (pc : FlushPc) (answer : Answer) (d' : Device) (reply : Reply) :
    Prop where
  fair : answer.Serves → Fair pc reply
  fds : ∀ fd, d.fds fd = some path → d'.fds fd = some path
  opened : ∀ fd, reply = .opened (.ok fd) → d'.fds fd = some path
  kept : ∀ index addr pos, c₀.slot ⟨id, index⟩ = some addr →
    pos < (c₀.heap addr).size → OnDevice c₀ d path index addr pos →
      OnDevice c₀ d' path index addr pos
  sent : ∀ index addr pos written n, c₀.slot ⟨id, index⟩ = some addr →
    pos < (c₀.heap addr).size → reply = .written (.ok n) →
      pc.sends = some (addr, written) → written ≤ pos → pos < written + n →
        OnDevice c₀ d' path index addr pos

section

variable {c₀ c : Cache} {d d' : Device} {id : Id}
  {entry₀ entry : LookupEntry} {log : List (FlushPc × Reply)} {pc : FlushPc}
  {path : Path} {reply : Reply} {answer : Answer}

/-- The device is as it was, and nothing was accepted. -/
theorem obeys_of_same (hfair : answer.Serves → Fair pc reply)
    (hopened : ∀ fd, reply ≠ .opened (.ok fd))
    (hwritten : ∀ n, reply ≠ .written (.ok n)) :
    Obeys c₀ id path d pc answer d reply where
  fair := hfair
  fds := fun _ h => h
  opened := fun fd h => absurd h (hopened fd)
  kept := fun _ _ _ _ _ h => h
  sent := fun _ _ _ _ n _ _ h => absurd h (hwritten n)

/-- The device opens the file. -/
theorem obeys_open (accept : Nat) (mode : OpenMode)
    (hexec : d.exec accept (.open path mode) = (d', reply)) :
    Obeys c₀ id path d .opening answer d' reply := by
  obtain ⟨rfl, rfl⟩ := Prod.mk.inj hexec
  refine ⟨fun _ => ⟨d.nextFd, rfl⟩, fun fd hfd => ?_, fun fd heq => ?_,
    fun _ _ _ _ _ h => h,
    fun _ _ _ _ n _ _ heq => by cases heq⟩
  · change Function.update d.fds d.nextFd (some path) fd = some path
    by_cases h : fd = d.nextFd
    · rw [h, Function.update_self]
    · rw [Function.update_of_ne h]
      exact hfd
  · obtain rfl := Except.ok.inj (Reply.opened.inj heq)
    exact Function.update_self ..

/-- The device accepts some bytes of a page. -/
theorem obeys_write (hflushable : Flushable c₀ id entry₀)
    {d₀ : Device} (hwired : Wired c₀ d₀ id entry₀)
    {accept index written : Nat} {addr : Addr} {fd : Fd} {fpc : FlushAtPc}
    (hslot : c₀.slot ⟨id, index⟩ = some addr)
    (hlt : written < (c₀.heap addr).size) (hfd : d.fds fd = some path)
    (hsends : fpc.sends addr = some (addr, written))
    (hexec : d.exec accept (.write fd
      (slice (c₀.heap addr).data written ((c₀.heap addr).size - written))
      (index * c₀.pageSize + written)) = (d', reply)) :
    Obeys c₀ id path d (.flushing index addr fd fpc) answer d' reply := by
  have hwf := hwired.wf index addr hslot
  have hsize := hwf.size_le
  have hdata := hwf.length_data
  simp only [Device.exec, hfd] at hexec
  generalize hn : min (max accept 1) (slice (c₀.heap addr).data written
    ((c₀.heap addr).size - written)).length = n at hexec
  rw [length_slice] at hn
  generalize hbytes : (slice (c₀.heap addr).data written
    ((c₀.heap addr).size - written)).take n = bytes at hexec
  have hlength : bytes.length = n := by
    rw [← hbytes, List.length_take, length_slice]
    omega
  obtain ⟨rfl, rfl⟩ := Prod.mk.inj hexec
  have hinside : ∀ pos, written ≤ pos → pos < written + n →
      (overlay (d.file path) (index * c₀.pageSize + written)
        bytes)[index * c₀.pageSize + pos]? =
          some (valueAt (c₀.heap addr).data pos) := by
    intro pos hle hlt
    rw [getElem?_overlay_inside (by omega) (by omega), ← hbytes, slice,
      List.take_take, ← slice, valueAt_slice, if_pos (by omega)]
    congr 2
    omega
  refine ⟨fun _ => ⟨n, by omega, rfl⟩, fun _ h => h,
    fun _ heq => (by cases heq), ?_, ?_⟩
  · intro index' addr' pos hslot' hpos honDevice
    change (Function.update d.file path _ path)[_]? = _
    rw [Function.update_self]
    have hsize' := (hwired.wf index' addr' hslot').size_le
    by_cases hin : index' = index ∧ written ≤ pos ∧ pos < written + n
    · obtain ⟨rfl, hle, hlt⟩ := hin
      obtain rfl := Option.some.inj (hslot.symm.trans hslot')
      exact hinside pos hle hlt
    · refine getElem?_overlay_outside honDevice ?_
      rw [hlength]
      rintro ⟨hle, hlt⟩
      rcases Nat.lt_trichotomy index' index with hbelow | rfl | habove
      · have hmul := Nat.mul_le_mul_right c₀.pageSize hbelow
        rw [Nat.succ_mul] at hmul
        omega
      · exact hin ⟨rfl, by omega, by omega⟩
      · have hmul := Nat.mul_le_mul_right c₀.pageSize habove
        rw [Nat.succ_mul] at hmul
        omega
  · intro index' addr' pos written' n' hslot' hpos heq hsends' hle hlt
    obtain rfl := Except.ok.inj (Reply.written.inj heq)
    obtain ⟨rfl, rfl⟩ := Prod.mk.inj
      (Option.some.inj (hsends.symm.trans hsends'))
    obtain rfl := hflushable.slot_inj hslot hslot'
    change (Function.update d.file path _ path)[_]? = _
    rw [Function.update_self]
    exact hinside pos hle hlt

/-- The device answers a flush that runs alone. -/
theorem FlushTrace.obeys (hflushable : Flushable c₀ id entry₀)
    {d₀ : Device} (hwired : Wired c₀ d₀ id entry₀) {c : Cache}
    (htrace : FlushTrace c₀ id entry₀ ⟨c, .await pc, log⟩)
    (hopened : ∀ fd, entry₀.writeFd = some fd ∨
      (.opening, .opened (.ok fd)) ∈ log → d.fds fd = some entry₀.path)
    (hanswer : d.answer answer (Task.flushRequest c id pc) = (d', reply)) :
    Obeys c₀ id entry₀.path d pc answer d' reply := by
  cases htrace with
  | start log hquiet =>
      obtain ⟨rfl, rfl⟩ := Prod.mk.inj hanswer
      exact obeys_of_same (fun _ => rfl) (fun _ h => by cases h)
        fun _ h => by cases h
  | opening log hquiet hdirty =>
      rw [Task.flushRequest, hflushable.lookup] at hanswer
      cases answer with
      | serve accept => exact obeys_open accept .write hanswer
      | fail err =>
          obtain ⟨rfl, rfl⟩ := Prod.mk.inj hanswer
          exact obeys_of_same (fun h => h.elim) (fun _ h => by cases h)
            fun _ h => by cases h
  | sending c entry log index rest addr fd written hthrough hmarked hfd hquiet
      hslot hdirty hlt hreached =>
      obtain ⟨hmem, hkey⟩ := hflushable.cached index addr hslot
      have hvalid : c.slot ⟨id, index⟩ = some addr ∧ addr ∈ c.lru := by
        rw [hthrough.slot_eq hflushable, hthrough.lru]
        exact ⟨hslot, hmem⟩
      rw [Task.flushRequest, if_pos hvalid, Task.flushAtRequest,
        hthrough.ahead index addr hslot List.mem_cons_self, hkey,
        hthrough.pageSize] at hanswer
      cases answer with
      | serve accept =>
          exact obeys_write hflushable hwired hslot hlt
            (hopened fd (hthrough.writeFd fd hfd)) rfl hanswer
      | fail err =>
          obtain ⟨rfl, rfl⟩ := Prod.mk.inj hanswer
          exact obeys_of_same (fun h => h.elim) (fun _ h => by cases h)
            fun _ h => by cases h

end

/-- A flush that runs alone on a device. -/
abbrev flushStep (id : Id) : Served FlushPc (Except Errc Unit) → Answer →
    Option (Served FlushPc (Except Errc Unit)) :=
  Served.step (fun c => c.flushResume id) fun c => Task.flushRequest c id

/-- The states of a flush that runs alone from the cache `c₀` on the device
`d₀`. -/
structure FlushServed (c₀ : Cache) (d₀ : Device) (id : Id)
    (entry₀ : LookupEntry) (s : Served FlushPc (Except Errc Unit)) : Prop where
  trace : FlushTrace c₀ id entry₀ s.trace
  opened : ∀ fd, entry₀.writeFd = some fd ∨
    (.opening, .opened (.ok fd)) ∈ s.trace.log →
      s.device.fds fd = some entry₀.path
  kept : ∀ index addr pos, c₀.slot ⟨id, index⟩ = some addr →
    pos < (c₀.heap addr).size → OnDevice c₀ d₀ entry₀.path index addr pos →
      OnDevice c₀ s.device entry₀.path index addr pos
  sent : ∀ index addr pos, c₀.slot ⟨id, index⟩ = some addr →
    pos < (c₀.heap addr).size → Accepted FlushPc.sends s.trace.log addr pos →
      OnDevice c₀ s.device entry₀.path index addr pos

section

variable {c₀ : Cache} {d₀ : Device} {id : Id} {entry₀ : LookupEntry}
  {s s' : Served FlushPc (Except Errc Unit)} {answer : Answer}

theorem flushServed_start (hwired : Wired c₀ d₀ id entry₀) :
    FlushServed c₀ d₀ id entry₀ ⟨.start (c₀, .await .start), d₀⟩ where
  trace := .start [] fun _ _ _ _ _ => by
    rintro ⟨pc, written, n, hmem, -⟩
    cases hmem
  opened := by
    rintro fd (hfd | hmem)
    · exact hwired.writeFd fd hfd
    · cases hmem
  kept := fun _ _ _ _ _ h => h
  sent := by
    rintro index addr pos - - ⟨pc, written, n, hmem, -⟩
    cases hmem

theorem FlushServed.step (hflushable : Flushable c₀ id entry₀)
    (hwired : Wired c₀ d₀ id entry₀)
    (hserved : FlushServed c₀ d₀ id entry₀ s)
    (hstep : flushStep id s answer = some s') :
    FlushServed c₀ d₀ id entry₀ s' := by
  obtain ⟨pc, reply, hflow, hanswer, ht, hlog⟩ := Served.step_cases hstep
  obtain ⟨⟨c, flow, log⟩, d⟩ := s
  obtain rfl : flow = .await pc := hflow
  have hobeys := hserved.trace.obeys hflushable hwired hserved.opened hanswer
  refine ⟨hserved.trace.step hflushable ht, ?_, ?_, ?_⟩
  · intro fd hfd
    rw [hlog, List.mem_cons] at hfd
    rcases hfd with h | h | h
    · exact hobeys.fds fd (hserved.opened fd (.inl h))
    · exact hobeys.opened fd (Prod.mk.inj h).2.symm
    · exact hobeys.fds fd (hserved.opened fd (.inr h))
  · intro index addr pos hslot hpos h
    exact hobeys.kept index addr pos hslot hpos
      (hserved.kept index addr pos hslot hpos h)
  · intro index addr pos hslot hpos haccepted
    rw [hlog, accepted_cons] at haccepted
    rcases haccepted with ⟨written, n, hreply, hsends, hle, hlt⟩ | h
    · exact hobeys.sent index addr pos written n hslot hpos hreply hsends hle
        hlt
    · exact hobeys.kept index addr pos hslot hpos
        (hserved.sent index addr pos hslot hpos h)

/-- A failed flush leaves a file that can be flushed. -/
theorem Through.flushable (hflushable : Flushable c₀ id entry₀) {c : Cache}
    {entry : LookupEntry} {log : List (FlushPc × Reply)} {rest : List Nat}
    (hthrough : Through c₀ id entry₀ log c entry rest)
    (hmarked : entry.dirty = true) : Flushable c id entry := by
  have hslots := hthrough.slot_eq hflushable
  refine ⟨hthrough.lookup, ?_, ?_, fun _ _ _ _ => hmarked, ?_⟩
  · intro index addr hslot
    rw [hslots] at hslot
    obtain ⟨hmem, hkey⟩ := hflushable.cached index addr hslot
    rw [hthrough.lru]
    refine ⟨hmem, ?_⟩
    rcases hthrough.heap_cases addr with h | h <;> rw [h]
    · exact hkey
    · exact hkey
  · intro index addr hslot hdirty
    rw [hslots] at hslot
    rcases hthrough.heap_cases addr with h | h
    · rw [h] at hdirty ⊢
      exact hflushable.pos index addr hslot hdirty
    · rw [h] at hdirty
      cases hdirty
  · rw [hthrough.readQueue]
    exact hflushable.queue

theorem Through.wired (hflushable : Flushable c₀ id entry₀)
    (hwired : Wired c₀ d₀ id entry₀) {c : Cache} {d : Device}
    {entry : LookupEntry} {log : List (FlushPc × Reply)} {rest : List Nat}
    (hthrough : Through c₀ id entry₀ log c entry rest)
    (hopened : ∀ fd, entry₀.writeFd = some fd ∨
      (.opening, .opened (.ok fd)) ∈ log → d.fds fd = some entry₀.path) :
    Wired c d id entry := by
  refine ⟨fun index addr hslot => ?_, fun fd hfd => ?_⟩
  · rw [hthrough.slot_eq hflushable] at hslot
    obtain ⟨hpage, hdata, hsize, hlt⟩ := hwired.wf index addr hslot
    rw [hthrough.pageSize]
    rcases hthrough.heap_cases addr with h | h
    · rw [h]
      exact ⟨hpage, hdata, hsize, hlt⟩
    · rw [h]
      exact ⟨hpage, hdata, hsize, hlt⟩
  · rw [hthrough.path]
    exact hopened fd (hthrough.writeFd fd hfd)

/-- The work that is left for a flush that runs alone. -/
def flushWork (id : Id) (s : Served FlushPc (Except Errc Unit)) : Nat :=
  pageWork s.trace.cache.pageSize * s.trace.cache.lru.length +
    match s.trace.flow with
    | .await pc => pc.work s.trace.cache id
    | _ => 0

theorem FlushTrace.through (hflushable : Flushable c₀ id entry₀)
    {t : Trace FlushPc (Except Errc Unit)}
    (htrace : FlushTrace c₀ id entry₀ t) :
    ∃ entry rest, Through c₀ id entry₀ t.log t.cache entry rest := by
  have hrefl := through_refl hflushable t.log
  cases htrace with
  | start | opening | clean => exact ⟨_, _, hrefl⟩
  | sending _ _ _ _ _ _ _ _ hthrough => exact ⟨_, _, hthrough⟩
  | failed _ _ _ _ _ hthrough => exact ⟨_, _, hthrough⟩
  | flushed _ _ _ hthrough => exact ⟨_, _, hthrough⟩

/-- A flush that is not answered with a failure returns none. -/
theorem FlushStep.not_error {c c' : Cache} {pc : FlushPc} {reply : Reply}
    {flow : Flow FlushPc (Except Errc Unit)}
    (hstep : FlushStep c id pc reply c' flow) (hfair : Fair pc reply)
    (err : Errc) : flow ≠ .done (.error err) := by
  rintro rfl
  generalize hflow : (Flow.done (Except.error err) :
    Flow FlushPc (Except Errc Unit)) = flow at hstep
  cases hstep with
  | openFail err =>
      obtain ⟨fd, h⟩ := hfair
      cases h
  | refused index addr fd fpc _ err hrefused =>
      obtain ⟨n, -, rfl⟩ := hfair
      cases fpc <;> exact hrefused
  | loop pc _ c₁ indices henter hruns =>
      generalize (flushLoop id indices c₁).1 = c₂ at hruns
      generalize (flushLoop id indices c₁).2 = flow' at hruns hflow
      subst hflow
      cases hruns
  | _ => cases hflow

/-- A step of a flush on a device without faults. -/
theorem FlushServed.serve (hflushable : Flushable c₀ id entry₀)
    (hwired : Wired c₀ d₀ id entry₀)
    (hserved : FlushServed c₀ d₀ id entry₀ s) (hserves : answer.Serves)
    (hstep : flushStep id s answer = some s') :
    (∀ err, s'.trace.flow ≠ .done (.error err)) ∧
      flushWork id s' < flushWork id s := by
  have hserved' := hserved.step hflushable hwired hstep
  obtain ⟨pc, reply, hflow, hanswer, ht, hlog⟩ := Served.step_cases hstep
  obtain ⟨⟨c, flow, log⟩, d⟩ := s
  obtain ⟨t', d'⟩ := s'
  obtain rfl : flow = .await pc := hflow
  have hfair := (hserved.trace.obeys hflushable hwired hserved.opened
    hanswer).fair hserves
  obtain ⟨pc', x, hflow', hx, htrace⟩ := Trace.step_cases ht
  obtain rfl := Flow.await.inj hflow'
  obtain rfl : t' = _ := htrace
  dsimp only at hx
  have hflush := flushResume_step hx
  have herror := hflush.not_error hfair
  have hcrash : x.2 ≠ .crash := by
    intro h
    have htrace' := hserved'.trace
    rw [h] at htrace'
    cases htrace'
  have hcalm : (Task.flush id pc).Calm := by
    cases hserved.trace <;> exact fun _ _ h => by cases h
  obtain ⟨entry, rest, hthrough⟩ := hserved.trace.through hflushable
  obtain ⟨entry', rest', hthrough'⟩ := hserved'.trace.through hflushable
  have hsize : ∀ index page, c.slot ⟨id, index⟩ = some page → page ∈ c.lru →
      (c.heap page).size ≤ c.pageSize := by
    intro index page hslot _
    rw [hthrough.slot_eq hflushable] at hslot
    rw [hthrough.pageSize]
    rcases hthrough.heap_cases page with h | h
    · rw [h]
      exact (hwired.wf index page hslot).size_le
    · rw [h]
      exact (hwired.wf index page hslot).size_le
  have hpos : ∀ n, reply = .written (.ok n) → 0 < n := by
    rintro n rfl
    cases pc with
    | start => cases hfair
    | opening =>
        obtain ⟨fd, h⟩ := hfair
        cases h
    | flushing =>
        obtain ⟨n', hlt, h⟩ := hfair
        obtain rfl := Except.ok.inj (Reply.written.inj h)
        exact hlt
  obtain ⟨hawait, hdone⟩ := hflush.work hcalm hsize hpos hcrash
  have hpage : x.1.pageSize = c.pageSize :=
    hthrough'.pageSize.trans hthrough.pageSize.symm
  refine ⟨herror, ?_⟩
  obtain ⟨c', pc' | res | _⟩ := x
  · have hlt := hawait pc' rfl
    dsimp only [flushWork] at hlt ⊢
    omega
  · have hlt := hdone res rfl
    dsimp only [flushWork] at hpage hlt ⊢
    rw [hpage]
    omega
  · exact absurd rfl hcrash

/-- A flush that has not ended goes on. -/
theorem FlushServed.enabled (hflushable : Flushable c₀ id entry₀)
    (hwired : Wired c₀ d₀ id entry₀)
    (hserved : FlushServed c₀ d₀ id entry₀ s) {pc : FlushPc}
    (hflow : s.trace.flow = .await pc) (accept : Nat) :
    ∃ s', flushStep id s (.serve accept) = some s' := by
  obtain ⟨⟨c, flow, log⟩, d⟩ := s
  obtain rfl : flow = .await pc := hflow
  generalize hanswer : d.answer (.serve accept) (Task.flushRequest c id pc) = x
  obtain ⟨d', reply⟩ := x
  have hfair := (hserved.trace.obeys hflushable hwired hserved.opened
    hanswer).fair trivial
  have hsome : ∃ x, c.flushResume id pc reply = some x := by
    cases hserved.trace with
    | start =>
        obtain rfl : reply = .go := hfair
        exact ⟨_, rfl⟩
    | opening =>
        obtain ⟨fd, rfl⟩ := hfair
        exact ⟨_, rfl⟩
    | sending =>
        obtain ⟨n, -, rfl⟩ := hfair
        rw [flushResume]
        split
        · exact ⟨_, rfl⟩
        · exact ⟨_, rfl⟩
  obtain ⟨x, hx⟩ := hsome
  refine ⟨⟨⟨x.1, x.2, (pc, reply) :: log⟩, d'⟩, ?_⟩
  simp only [flushStep, Served.step, hanswer, Trace.step, hx, Option.map_some]

end

/-- What a flush of the file has achieved when it succeeds. -/
structure Synced (c₀ : Cache) (id : Id) (entry₀ : LookupEntry) (c' : Cache)
    (d' : Device) : Prop where
  clean : ∀ index addr, c'.slot ⟨id, index⟩ = some addr →
    (c'.heap addr).dirty = false
  onDevice : ∀ index addr, c₀.slot ⟨id, index⟩ = some addr →
    (c₀.heap addr).dirty = true → ∀ pos < (c₀.heap addr).size,
      OnDevice c₀ d' entry₀.path index addr pos

section

variable {c₀ : Cache} {d₀ : Device} {id : Id} {entry₀ : LookupEntry}
  {s s' : Served FlushPc (Except Errc Unit)} {answers answers' : List Answer}
  {err : Errc}

/-- A flush on a device without faults comes to an end, and then it is through
with every page. -/
theorem flush_without_faults (hflushable : Flushable c₀ id entry₀)
    (hwired : Wired c₀ d₀ id entry₀) (hmarked : entry₀.dirty = true)
    (hruns : Runs (flushStep id) (fun _ answer _ => answer.Serves)
      ⟨.start (c₀, .await .start), d₀⟩ answers s) :
    FlushServed c₀ d₀ id entry₀ s ∧
      answers.length ≤ flushWork id ⟨.start (c₀, .await .start), d₀⟩ ∧
      (s.trace.flow = .done (.ok ()) ∧ (∃ entry,
          Through c₀ id entry₀ s.trace.log s.trace.cache entry []) ∨
        ∀ accept, ∃ s', flushStep id s (.serve accept) = some s') := by
  have hstart : FlushServed c₀ d₀ id entry₀
      ⟨.start (c₀, .await .start), d₀⟩ := flushServed_start hwired
  obtain ⟨hserved, hok⟩ := hruns.preserves
    (I := fun s => FlushServed c₀ d₀ id entry₀ s ∧
      ∀ err, s.trace.flow ≠ .done (.error err))
    (fun hstep hserves h => ⟨h.1.step hflushable hwired hstep,
      (h.1.serve hflushable hwired hserves hstep).1⟩)
    ⟨hstart, fun _ h => by cases h⟩
  have hlength := hruns.length_le
    (fun hstep _ h => h.step hflushable hwired hstep)
    (fun hstep hserves h => (h.serve hflushable hwired hserves hstep).2)
    hstart
  refine ⟨hserved, hlength, ?_⟩
  cases hflow : s.trace.flow with
  | await pc =>
      exact .inr fun accept =>
        hserved.enabled hflushable hwired hflow accept
  | done res =>
      left
      have htrace := hserved.trace
      generalize s.trace = t at htrace hflow hok ⊢
      cases htrace with
      | failed _ _ _ _ err => exact absurd rfl (hok err)
      | clean log hclean =>
          rw [hmarked] at hclean
          cases hclean
      | flushed c entry log hthrough =>
          obtain rfl := Flow.done.inj hflow
          exact ⟨rfl, entry, hthrough⟩
      | _ => cases hflow
  | crash =>
      have htrace := hserved.trace
      generalize s.trace = t at htrace hflow
      cases htrace <;> cases hflow

/-- A flush changes nothing of which bytes a page has, and where. -/
theorem Through.onDevice_iff {c : Cache} {d : Device} {entry : LookupEntry}
    {log : List (FlushPc × Reply)} {rest : List Nat}
    (hthrough : Through c₀ id entry₀ log c entry rest) {index : Nat}
    {addr : Addr} {pos : Nat} :
    OnDevice c d entry.path index addr pos ↔
      OnDevice c₀ d entry₀.path index addr pos := by
  have hdata : (c.heap addr).data = (c₀.heap addr).data := by
    rcases hthrough.heap_cases addr with h | h <;> rw [h]
    rfl
  rw [OnDevice, OnDevice, hdata, hthrough.pageSize, hthrough.path]

/-- A failed flush can be tried again.  It leaves every page with its content,
and of the dirty pages exactly those are clean that the device has accepted as
a whole.  A flush after it on a device without faults comes to an end, and then
the device has every byte that was dirty before the first one. -/
theorem failed_flush_retried (hflushable : Flushable c₀ id entry₀)
    (hwired : Wired c₀ d₀ id entry₀)
    (hruns : Runs (flushStep id) (fun _ _ _ => True)
      ⟨.start (c₀, .await .start), d₀⟩ answers s)
    (hfailed : s.trace.flow = .done (.error err)) :
    Unflushed c₀ id s.trace.log s.trace.cache ∧
      ∀ answers' s', Runs (flushStep id) (fun _ answer _ => answer.Serves)
        ⟨.start (s.trace.cache, .await .start), s.device⟩ answers' s' →
        answers'.length ≤
          flushWork id ⟨.start (s.trace.cache, .await .start), s.device⟩ ∧
        (s'.trace.flow = .done (.ok ()) ∧
            Synced c₀ id entry₀ s'.trace.cache s'.device ∨
          ∀ accept, ∃ s'', flushStep id s' (.serve accept) = some s'') := by
  have hserved : FlushServed c₀ d₀ id entry₀ s :=
    hruns.preserves (fun hstep _ h => h.step hflushable hwired hstep)
      (flushServed_start hwired)
  obtain ⟨⟨c, flow, log⟩, d⟩ := s
  obtain rfl : flow = .done (.error err) := hfailed
  have htrace := hserved.trace
  cases htrace with
  | failed _ entry _ rest _ hthrough hmarked hpartly =>
      have hunflushed := hthrough.unflushed hflushable hmarked hpartly
      refine ⟨hunflushed, fun answers' s' hruns' => ?_⟩
      obtain ⟨hretried, hlength, hend⟩ := flush_without_faults
        (hthrough.flushable hflushable hmarked)
        (hthrough.wired hflushable hwired hserved.opened) hmarked hruns'
      refine ⟨hlength, hend.imp_left ?_⟩
      rintro ⟨hflow, entry', hthrough'⟩
      have hslots := hthrough'.slot_eq (hthrough.flushable hflushable hmarked)
      refine ⟨hflow, fun index addr hslot => ?_,
        fun index addr hslot hdirty pos hlt => ?_⟩
      · rw [hslots] at hslot
        rw [(hthrough'.behind index addr hslot List.not_mem_nil).1]
        rfl
      · rw [← hthrough.onDevice_iff]
        have hslot' := (hthrough.slot_eq hflushable ⟨id, index⟩).trans hslot
        have hlt' : pos < (c.heap addr).size := by
          rcases hthrough.heap_cases addr with h | h <;> rw [h] <;> exact hlt
        cases hflag : (c.heap addr).dirty with
        | true =>
            have hall := (hthrough'.behind index addr hslot'
              List.not_mem_nil).2 hflag
            exact hretried.sent index addr pos hslot' hlt' (hall pos hlt')
        | false =>
            have hall :=
              (hunflushed.clean_iff index addr hslot hdirty).mp hflag
            have hfirst := hserved.sent index addr pos hslot hlt (hall pos hlt)
            rw [← hthrough.onDevice_iff] at hfirst
            exact hretried.kept index addr pos hslot' hlt' hfirst

end

end Cache

namespace TwoDirty

def pages : AList fun _ : Nat => Addr :=
  (AList.singleton 0 0).insert 1 1

/-- A file with two cached pages, both dirty. -/
def entry : LookupEntry :=
  { LookupEntry.create ["f"] with
    pages := pages
    dirty := true }

def cache : Cache :=
  { Cache.create 4 2 with
    lru := [1, 0]
    heap := fun addr => ⟨⟨⟨1⟩, addr⟩, [7, 8, 0, 0], 2, 4, true⟩
    table := AList.singleton ⟨1⟩ entry
    nextAddr := 2 }

def device : Device where
  file := fun _ => []
  fds := fun _ => none
  nextFd := 3

theorem slot_cache {index : Nat} {addr : Addr}
    (hslot : cache.slot ⟨⟨1⟩, index⟩ = some addr) :
    index = addr ∧ (addr = 0 ∨ addr = 1) := by
  change pages.lookup index = some addr at hslot
  unfold pages at hslot
  by_cases hone : index = 1
  · subst hone
    rw [AList.lookup_insert] at hslot
    obtain rfl := Option.some.inj hslot
    exact ⟨rfl, .inr rfl⟩
  · rw [AList.lookup_insert_ne hone] at hslot
    by_cases hzero : index = 0
    · subst hzero
      obtain rfl := Option.some.inj hslot
      exact ⟨rfl, .inl rfl⟩
    · rw [AList.lookup_eq_none.mpr (by simpa [AList.mem_keys] using hzero)]
        at hslot
      cases hslot

theorem flushable : cache.Flushable ⟨1⟩ entry where
  lookup := rfl
  cached := by
    intro index addr hslot
    obtain ⟨rfl, hcases⟩ := slot_cache hslot
    exact ⟨by simpa [cache] using hcases.symm, rfl⟩
  pos := fun _ _ _ _ => (by decide : 0 < 2)
  marked := fun _ _ _ _ => rfl
  queue := fun _ => rfl

theorem wired : cache.Wired device ⟨1⟩ entry where
  wf := fun _ _ _ => ⟨rfl, rfl, (by decide : 2 ≤ 4), by decide⟩
  writeFd := fun fd hfd => by cases hfd

/-- The device takes the first page and refuses the second one. -/
theorem failed_flush_retried_second :
    ∃ s : Served FlushPc (Except Errc Unit),
    (s.trace.cache.heap 0).dirty = false ∧
      (s.trace.cache.heap 1).dirty = true ∧
        cache.Unflushed ⟨1⟩ s.trace.log s.trace.cache := by
  have hruns : ∃ s, Runs (Cache.flushStep ⟨1⟩) (fun _ _ _ => True)
      ⟨.start (cache, .await .start), device⟩
      [.serve 0, .serve 0, .serve 1, .serve 1, .fail Errc.ioError] s ∧
      s.trace.flow = .done (.error Errc.ioError) ∧
      (s.trace.cache.heap 0).dirty = false ∧
      (s.trace.cache.heap 1).dirty = true :=
    ⟨_, .cons rfl trivial (.cons rfl trivial (.cons rfl trivial
      (.cons rfl trivial (.cons rfl trivial (.nil _))))), rfl, rfl, rfl⟩
  obtain ⟨s, hruns, hfailed, hfirst, hsecond⟩ := hruns
  exact ⟨s, hfirst, hsecond,
    (Cache.failed_flush_retried flushable wired hruns hfailed).1⟩

end TwoDirty

end Madbfs
