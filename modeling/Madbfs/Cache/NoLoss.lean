/-
No update is lost while several clients use the cache.  Wherever a page
differs from the device, the page is marked dirty, its entry leads to it, and
the entry is marked dirty.  The marks of the pages follow from soundness; the
marks of the entries are kept by every step that does not clear one too early.
-/
import Madbfs.Run
import Madbfs.Cache.Passed

namespace Madbfs

open Bytes

namespace Cache

/-- Every dirty page of a file of `S` belongs to an entry that is marked
dirty. -/
def Marked (S : Id → Prop) (c : Cache) (held : Multiset Addr) : Prop :=
  ∀ addr ∈ c.live held, S (c.heap addr).key.id →
    (c.heap addr).dirty = true → c.Flagged (c.heap addr).key.id

section

variable {S : Id → Prop} {c c' : Cache} {d : Device}
  {held held' : Multiset Addr}

theorem flagged_iff {id : Id} : c.Flagged id ↔
    ∃ path reader writer, c.headOf id = some (path, reader, writer, true) := by
  constructor
  · rintro ⟨entry, hentry, hdirty⟩
    refine ⟨entry.path, entry.reader, entry.writer, ?_⟩
    simp [headOf, hentry, head, hdirty]
  · rintro ⟨path, reader, writer, hhead⟩
    obtain ⟨entry, hentry, heq⟩ := Option.map_eq_some_iff.mp hhead
    simp only [head, Prod.mk.injEq] at heq
    exact ⟨entry, hentry, heq.2.2.2⟩

theorem flagged_congr {id : Id} (hhead : c'.headOf id = c.headOf id) :
    c'.Flagged id ↔ c.Flagged id := by
  rw [flagged_iff, flagged_iff, hhead]

theorem Marked.act {s t : Cache × Multiset Addr} {allowed : Page → Prop}
    (hact : Act (soundGrant S d allowed) s t) (hmarked : Marked S s.1 s.2) :
    Marked S t.1 t.2 := by
  have hflag : ∀ id, t.1.Flagged id ↔ s.1.Flagged id :=
    fun id => flagged_congr (hact.headOf_eq id)
  have hold : (∀ addr ∈ t.1.live t.2, (t.1.heap addr).dirty = true →
      (t.1.heap addr).key = (s.1.heap addr).key ∧ addr ∈ s.1.live s.2 ∧
        (s.1.heap addr).dirty = true) → Marked S t.1 t.2 := by
    intro hsub addr hmem hS hdirty
    obtain ⟨hkey, hmem', hdirty'⟩ := hsub addr hmem hdirty
    rw [hkey] at hS
    rw [hflag, hkey]
    exact hmarked addr hmem' hS hdirty'
  have hclean : ∀ (c : Cache) (held : Multiset Addr) (addr : Addr),
      ∀ addr' ∈ (c.setDirty addr false).live held,
      ((c.setDirty addr false).heap addr').dirty = true →
      ((c.setDirty addr false).heap addr').key = (c.heap addr').key ∧
        addr' ∈ c.live held ∧ (c.heap addr').dirty = true := by
    intro c held addr addr' hmem hdirty
    rw [setDirty_heap] at hdirty ⊢
    split_ifs at hdirty ⊢ with heq
    · cases hdirty
    · exact ⟨rfl, hmem, hdirty⟩
  cases hact with
  | move s t hmove =>
      cases hmove with
      | inflight c held id n =>
          exact hold fun addr hmem hdirty => ⟨by simp, by simpa [live] using hmem,
            by simpa using hdirty⟩
      | lose c held rest addr hlru hentry =>
          refine hold fun addr' hmem hdirty => ⟨rfl, ?_, hdirty⟩
          simp only [mem_live, hlru, List.mem_append] at hmem ⊢
          tauto
      | pop c held rest addr hlru =>
          refine hold fun addr' hmem hdirty => ⟨rfl, ?_, hdirty⟩
          simp only [mem_live, hlru, List.mem_append, Multiset.mem_cons,
            List.mem_singleton] at hmem ⊢
          tauto
      | drop c held addr hclean =>
          refine hold fun addr' hmem hdirty => ⟨by simp, ?_,
            by simpa using hdirty⟩
          simp only [mem_live, erasePage_lru, Multiset.mem_cons] at hmem ⊢
          tauto
      | clean c held addr hsize => exact hold (hclean c held addr)
  | count c held id f hf =>
      exact hold fun addr hmem hdirty => ⟨by simp, by simpa [live] using hmem,
        by simpa using hdirty⟩
  | readFd c held id fd hfd =>
      exact hold fun addr hmem hdirty => ⟨by simp, by simpa [live] using hmem,
        by simpa using hdirty⟩
  | writeFd c held id fd hfd =>
      exact hold fun addr hmem hdirty => ⟨by simp, by simpa [live] using hmem,
        by simpa using hdirty⟩
  | queue c held readQueue promises nextFut =>
      exact hold fun addr hmem hdirty => ⟨rfl, hmem, hdirty⟩
  | insert c held page hpage =>
      refine hold fun addr hmem hdirty => ?_
      change ((c.emplaceFront page).heap addr).dirty = true at hdirty
      change addr ∈ (c.emplaceFront page).live held at hmem
      change ((c.emplaceFront page).heap addr).key = _ ∧ _
      rw [emplaceFront_heap] at hdirty ⊢
      rw [live_emplaceFront, Multiset.mem_cons] at hmem
      by_cases heq : addr = c.nextAddr
      · subst heq
        rw [Function.update_self, hpage.1.clean] at hdirty
        cases hdirty
      · rw [Function.update_of_ne heq] at hdirty ⊢
        exact ⟨rfl, hmem.resolve_left heq, hdirty⟩
  | sent c held addr hsent => exact hold (hclean c held addr)
  | splice c held addr hmem =>
      refine hold fun addr' hmem' hdirty => ⟨rfl, ?_, hdirty⟩
      exact live_splice hmem ▸ hmem'
  | discard c held addr hfault => exact hfault.elim
  | forget c held addr hfault => exact hfault.elim

theorem Marked.acts {s t : Cache × Multiset Addr} {allowed : Page → Prop}
    (hacts : Acts (soundGrant S d allowed) s t) (hmarked : Marked S s.1 s.2) :
    Marked S t.1 t.2 :=
  hacts.preserves (I := fun s => Marked S s.1 s.2)
    (fun hact h => Marked.act hact h) hmarked

theorem written_heap (c : Cache) (r : Range) (input : List Byte)
    (addr addr' : Addr) : (c.written r input addr).heap addr' =
      if addr' = addr then ((c.heap addr).write (slice input
        (r.bufOffset c.pageSize) (r.localSize c.pageSize))
        (r.localOffset c.pageSize)).1.setDirty true else c.heap addr' := by
  by_cases heq : addr' = addr
  · subst heq
    rw [if_pos rfl]
    exact Function.update_self _ _ _
  · rw [if_neg heq]
    exact Function.update_of_ne heq _ _

/-- The bytes of a page after the write depend on its buffer alone. -/
theorem data_written {r : Range} {input : List Byte} {addr : Addr}
    (hsize : c'.pageSize = c.pageSize)
    (hdata : (c'.heap addr).data = (c.heap addr).data)
    (hpage : (c'.heap addr).pageSize = (c.heap addr).pageSize) :
    ((c'.written r input addr).heap addr).data =
      ((c.written r input addr).heap addr).data := by
  rw [written_heap, written_heap, if_pos rfl, if_pos rfl, hsize]
  unfold Page.write Page.setDirty
  rw [hpage]
  split_ifs
  · exact hdata
  · rw [hdata]

theorem flagged_modifyEntry_ne {id id' : Id} {f : LookupEntry → LookupEntry}
    (hne : id' ≠ id) (hflag : c.Flagged id') :
    (c.modifyEntry id f).Flagged id' := by
  obtain ⟨entry, hentry, hdirty⟩ := hflag
  refine ⟨entry, ?_, hdirty⟩
  rw [lookup_modifyEntry, if_neg hne]
  exact hentry

/-- The flag of an entry is cleared when it was clear before, or no page of the
file is dirty. -/
theorem Marked.cleared {id : Id} (hmarked : Marked S c held)
    (hlayout : Layout (c.modifyEntry id fun entry =>
      addWriteInflight (-1) (setEntryDirty false entry)) held)
    (hclean : S id → ¬ c.Flagged id ∨ ∀ k, (c.modifyEntry id fun entry =>
      addWriteInflight (-1) (setEntryDirty false entry)).CleanAt ⟨id, k⟩) :
    Marked S (c.modifyEntry id fun entry =>
      addWriteInflight (-1) (setEntryDirty false entry)) held := by
  intro addr hmem hS hdirty
  have hslot := hlayout.slot_of_live addr hmem
  rw [modifyEntry_heap] at hS hdirty hslot ⊢
  have hflag := hmarked addr (by simpa [live] using hmem) hS hdirty
  by_cases hid : (c.heap addr).key.id = id
  · subst hid
    rcases hclean hS with hnot | hclean
    · exact absurd hflag hnot
    · have hpage := hclean (c.heap addr).key.index addr hslot
      rw [modifyEntry_heap, hdirty] at hpage
      cases hpage
  · exact flagged_modifyEntry_ne hid hflag

theorem Marked.written (hmarked : Marked S c held) {r : Range}
    {input : List Byte} {addr : Addr} (hmem : addr ∈ c.lru)
    (hkey : (c.heap addr).key.id = r.id) (hflag : S r.id → c.Flagged r.id) :
    Marked S (c.written r input addr) held := by
  intro addr' hmem' hS hdirty
  rw [show (c.written r input addr).live held = c.live held from
    live_splice hmem] at hmem'
  change c.Flagged _
  rw [written_heap] at hS hdirty ⊢
  split_ifs at hS hdirty ⊢ with heq
  · change S (Page.write _ _ _).1.key.id at hS
    change c.Flagged (Page.write _ _ _).1.key.id
    rw [Page.write_key, hkey] at hS ⊢
    exact hflag hS
  · exact hmarked addr' hmem' hS hdirty

end

end Cache

/-- A `flush` that ends without an error after it has passed clean pages only
leaves no dirty page, or it found nothing to do. -/
theorem Task.Resumes.cleaned {c c' : Cache} {held : Multiset Addr}
    {reply : Reply} {id : Id} {pc : FlushPc}
    (hresumes : Resumes c held reply (.flush id pc) c' (.finished (.ok ())))
    (hpassed : ∀ index addr fd fpc, pc = .flushing index addr fd fpc →
      ∀ k < index, c.CleanAt ⟨id, k⟩) :
    (c' = c ∧ ¬ c.Flagged id) ∨ ∀ k, c'.CleanAt ⟨id, k⟩ := by
  cases hresumes with
  | flushDone _ _ _ res hstep =>
      exact (hstep.clean (fun h => by cases h) hpassed).2 rfl

namespace World

/-- If task `i` ends with its write, the write leaves the bytes of its page as
they are that the device has of it already, should another task be sending
it. -/
def SentKept (w : World) (i : Nat) (w' : World) : Prop :=
  ∀ r input pc n, w.pool.tasks[i]? = some (.writeAt r input pc) →
    w'.pool.tasks[i]? = some (.didWrite r (.ok n)) →
    ∀ (j : Nat) (task : Task), j ≠ i → w.pool.tasks[j]? = some task →
      ∀ page fd written len, task.wait = .sending page fd written len →
        w.pool.cache.slot r.key = some page →
        ∀ pos < (FlushAtPc.writing written len).sent (w.replies j),
          valueAt ((w.pool.cache.written r input page).heap page).data pos =
            valueAt (w.pool.cache.heap page).data pos

/-- If task `i` is the `flush` of a file of `S` and ends without an error, the
pages it has passed are clean, and no write to the file is running. -/
def FlagKept (S : Id → Prop) (w : World) (i : Nat) (w' : World) : Prop :=
  ∀ id pc, S id → w.pool.tasks[i]? = some (.flush id pc) →
    w'.pool.tasks[i]? = some (.finished (.ok ())) →
    (∀ index addr fd fpc, pc = .flushing index addr fd fpc →
      ∀ k < index, w.pool.cache.CleanAt ⟨id, k⟩) ∧
    ∀ r input wpc, Task.writeAt r input wpc ∈ w.pool.tasks → r.id ≠ id

/-- The steps of clients that read, write and flush, without the accidents:
no dangling iterator is dereferenced, no stale page is inserted, no byte of a
page is overwritten after it was sent and before the page is marked clean, and
no `flush` ends after a page it has passed was written or while one is being
written. -/
def Careful (w : World) (event : Event) (w' : World) : Prop :=
  match event with
  | .call call => call.Plain
  | .exec _ _ => True
  | .resume i => w'.Intact ∧ w.FetchKept (fun _ => True) i ∧
      w.SentKept i w' ∧ w.FlagKept (fun _ => True) i w'

/-- Soundness together with the marks. -/
structure Kept (S : Id → Prop) (w : World) : Prop where
  sound : w.Sound S
  marked : Cache.Marked S w.pool.cache (Task.heldAll w.pool.tasks)
  writing : ∀ r input pc, Task.writeAt r input pc ∈ w.pool.tasks →
    S r.id → w.pool.cache.Flagged r.id

section

variable {S : Id → Prop} {w w' : World} {i : Nat}

/-- A page that another task is sending keeps the bytes that were sent. -/
theorem SentKept.same (hsent : w.SentKept i w') (hsound : w.Sound S)
    (hresume : w.resume i = some w') (hintact : w'.Intact)
    (hfetch : w.FetchKept S i) : w.SentSame i w' := by
  obtain ⟨task, c', task', htask, hstep, hcrash, rfl⟩ :=
    hintact.resume_cases hresume
  obtain ⟨others, hheld, -⟩ := Task.heldAll_set htask
  have hlt : i < w.pool.tasks.length :=
    (List.getElem?_eq_some_iff.mp htask).1
  have hcache := hsound.cache
  have hwait := hsound.waits i task htask
  rw [hheld] at hcache hwait
  have hresumes := Task.resume_resumes others
    (hsound.plain task (List.mem_of_getElem? htask)) hstep hcrash
  have heffect := Task.effect hresumes hcache hwait
    fun r pc heq => hfetch r pc (heq ▸ htask)
  intro j task₁ hne htask₁ page fd written len hsending pos hpos
  have hnext : page < w.pool.cache.nextAddr := by
    have h := hsound.waits j task₁ htask₁
    rw [hsending] at h
    exact h.1
  change valueAt (c'.heap page).data pos = _
  cases heffect with
  | acts task task' c' hacts hwrite => rw [hacts.keepsData.data page hnext]
  | cleared id pc c₁ hacts =>
      rw [Cache.modifyEntry_heap, hacts.keepsData.data page hnext]
  | wrote r input pc c₁ addr n hacts hslot hmem hsize =>
      have hkeeps := hacts.keepsData
      by_cases hpage : page = addr
      swap
      · rw [Cache.written_heap, if_neg hpage]
        rw [hkeeps.data page hnext]
      subst hpage
      have hcache₁ := Cache.Sound.acts hacts hcache
      have hlive := hkeeps.live page hnext (Cache.mem_live_of_mem_lru hmem)
      have hkey : (w.pool.cache.heap page).key = r.key :=
        (hkeeps.key page hnext).symm.trans
          (hcache₁.layout.live_of_slot _ _ hslot).2
      have hslot₀ : w.pool.cache.slot r.key = some page :=
        hkey ▸ hcache.layout.slot_of_live page hlive
      have hsame := hsent r input pc n htask (List.getElem?_set_self hlt) j
        task₁ hne htask₁ page fd written len hsending hslot₀ pos hpos
      have hsize₁ : (c₁.heap page).pageSize =
          (w.pool.cache.heap page).pageSize :=
        ((hcache₁.wf page (Cache.mem_live_of_mem_lru hmem)).pageSize_eq.trans
          hkeeps.pageSize).trans (hcache.wf page hlive).pageSize_eq.symm
      rw [← hsame, Cache.data_written hkeeps.pageSize
        (hkeeps.data page hnext) hsize₁]

theorem Kept.resume (hkept : w.Kept S) (hresume : w.resume i = some w')
    (hintact : w'.Intact) (hfetch : w.FetchKept S i)
    (hsame : w.SentSame i w') (hflag : w.FlagKept S i w') : w'.Kept S := by
  have hsound' := hkept.sound.resume hresume hintact hfetch hsame
  obtain ⟨task, c', task', htask, hstep, hcrash, rfl⟩ :=
    hintact.resume_cases hresume
  obtain ⟨others, hheld, hset⟩ := Task.heldAll_set htask
  have hlt : i < w.pool.tasks.length :=
    (List.getElem?_eq_some_iff.mp htask).1
  have hmem := List.mem_of_getElem? htask
  have hcache := hkept.sound.cache
  have hwait := hkept.sound.waits i task htask
  have hmarked := hkept.marked
  rw [hheld] at hcache hwait hmarked
  have hresumes := Task.resume_resumes others (hkept.sound.plain task hmem)
    hstep hcrash
  have heffect := Task.effect hresumes hcache hwait
    fun r pc heq => hfetch r pc (heq ▸ htask)
  have hold : ∀ r input pc,
      Task.writeAt r input pc ∈ w.pool.tasks.set i task' →
      task' ≠ .writeAt r input pc →
      Task.writeAt r input pc ∈ w.pool.tasks := by
    intro r input pc hmem' hne
    rcases List.mem_or_eq_of_mem_set hmem' with h | h
    · exact h
    · exact absurd h.symm hne
  refine ⟨hsound', ?_, ?_⟩
  · change Cache.Marked S c' (Task.heldAll (w.pool.tasks.set i task'))
    have hlayout' : Cache.Layout c' (task'.held + others) :=
      hset task' ▸ hsound'.cache.layout
    rw [hset task']
    cases heffect with
    | acts task task' c' hacts hwrite => exact Cache.Marked.acts hacts hmarked
    | wrote r input pc c₁ addr n hacts hslot hmem' hsize =>
        have hlayout := (Cache.Sound.acts hacts hcache).layout
        have hkey := (hlayout.live_of_slot _ _ hslot).2
        rw [show (Task.didWrite r (.ok n)).held = 0 from rfl,
          Multiset.zero_add]
        refine (Cache.Marked.acts hacts hmarked).written hmem'
          (congrArg PageKey.id hkey) fun hS => ?_
        exact (Cache.flagged_congr (hacts.headOf_eq r.id)).mpr
          (hkept.writing r input pc hmem hS)
    | cleared id pc c₁ hacts =>
        rw [show (Task.finished (.ok ())).held = 0 from rfl,
          Multiset.zero_add] at hlayout' ⊢
        have hmarked₁ : Cache.Marked S c₁ others :=
          Cache.Marked.acts (s := (w.pool.cache, others)) hacts
            (by simpa [Task.held] using hmarked)
        have hclean := fun hS => hresumes.cleaned
          (hflag id pc hS htask (List.getElem?_set_self hlt)).1
        refine hmarked₁.cleared hlayout' fun hS => ?_
        refine (hclean hS).imp_left fun h => ?_
        rw [Cache.flagged_congr (hacts.headOf_eq id)]
        exact h.2
  · intro r input pc hmem' hS
    change Task.writeAt r input pc ∈ w.pool.tasks.set i task' at hmem'
    change c'.Flagged r.id
    cases heffect with
    | acts task task' c' hacts hwrite =>
        rw [Cache.flagged_congr (hacts.headOf_eq r.id)]
        rcases List.mem_or_eq_of_mem_set hmem' with h | rfl
        · exact hkept.writing r input pc h hS
        · cases hresumes with
          | writeAwait r input pc₀ pc _ hstep =>
              exact hkept.writing r input pc₀ hmem hS
    | wrote r' input' pc' c₁ addr n hacts hslot hmem₁ hsize =>
        exact (Cache.flagged_congr (hacts.headOf_eq r.id)).mpr
          (hkept.writing r input pc
            (hold r input pc hmem' fun h => by cases h) hS)
    | cleared id pc' c₁ hacts =>
        have hmem₀ := hold r input pc hmem' fun h => by cases h
        have hne : r.id ≠ id := by
          intro heq
          exact (hflag id pc' (heq ▸ hS) htask
            (List.getElem?_set_self hlt)).2 r input pc hmem₀ heq
        have hbefore := (Cache.flagged_congr (hacts.headOf_eq r.id)).mpr
          (hkept.writing r input pc hmem₀ hS)
        exact Cache.flagged_modifyEntry_ne hne hbefore

theorem Kept.call (hkept : w.Kept S) {call : Call} (hcall : call.Plain) :
    Kept S { w with pool := w.pool.call call } := by
  have hsound' := hkept.sound.call hcall
  obtain ⟨hcache, hnew, hwriting⟩ := Call.start_cases hcall w.pool.cache
  have hheap : (call.start w.pool.cache).1.heap = w.pool.cache.heap := by
    rcases hcache with heq | ⟨id, heq⟩ <;> rw [heq]
    exact Cache.modifyEntry_heap _ _ _
  have hlru : (call.start w.pool.cache).1.lru = w.pool.cache.lru := by
    rcases hcache with heq | ⟨id, heq⟩ <;> rw [heq]
    exact Cache.modifyEntry_lru _ _ _
  have hflag : ∀ id, w.pool.cache.Flagged id →
      (call.start w.pool.cache).1.Flagged id := by
    rintro id ⟨entry, hentry, hdirty⟩
    rcases hcache with heq | ⟨id', heq⟩ <;> rw [heq]
    · exact ⟨entry, hentry, hdirty⟩
    · refine ⟨if id = id' then Cache.setEntryDirty true entry
        else entry, ?_, ?_⟩
      · rw [Cache.lookup_modifyEntry]
        split_ifs with hid
        · rw [← hid, hentry]
          rfl
        · exact hentry
      · split_ifs
        · rfl
        · exact hdirty
  refine ⟨hsound', ?_, ?_⟩
  · intro addr hmem hS hdirty
    change addr ∈ Cache.live _ (Task.heldAll
      (w.pool.tasks ++ (call.start w.pool.cache).2)) at hmem
    change S ((call.start w.pool.cache).1.heap addr).key.id at hS
    change ((call.start w.pool.cache).1.heap addr).dirty = true at hdirty
    change (call.start w.pool.cache).1.Flagged
      ((call.start w.pool.cache).1.heap addr).key.id
    rw [Task.heldAll_append, Task.heldAll_eq_zero fun task h =>
      (hnew task h).2.1, Multiset.add_zero, Cache.mem_live] at hmem
    change addr ∈ (call.start w.pool.cache).1.lru ∨ _ at hmem
    rw [hlru, ← Cache.mem_live] at hmem
    rw [hheap] at hS hdirty ⊢
    exact hflag _ (hkept.marked addr hmem hS hdirty)
  · intro r input pc hmem hS
    rcases List.mem_append.mp hmem with hold | hstarted
    · exact hflag r.id (hkept.writing r input pc hold hS)
    · exact hwriting r input pc hstarted

theorem Kept.exec (hkept : w.Kept S) {accept : Nat}
    (hexec : w.exec i accept = some w') : w'.Kept S := by
  have hsound' := hkept.sound.exec hexec
  obtain ⟨task, request, -, -, -, rfl⟩ := exec_cases hexec
  exact ⟨hsound', hkept.marked, hkept.writing⟩

theorem Kept.step {event : Event} (hstep : w.step event = some w')
    (hcareful : w.Careful event w') (hkept : w.Kept fun _ => True) :
    w'.Kept fun _ => True := by
  cases event with
  | call call =>
      obtain rfl := Option.some.inj hstep
      exact hkept.call hcareful
  | exec i accept => exact hkept.exec hstep
  | resume i =>
      obtain ⟨hintact, hfetch, hsent, hflag⟩ := hcareful
      exact hkept.resume hstep hintact hfetch
        (hsent.same hkept.sound hstep hintact hfetch) hflag

theorem Opened.kept (hopened : w.Opened) : w.Kept S where
  sound := hopened.sound
  marked := fun addr hmem => absurd hmem hopened.not_live
  writing := by
    intro r input pc hmem
    rw [hopened.tasks] at hmem
    cases hmem

/-- The byte of a page at `pos` is not what the device has. -/
def Differs (w : World) (addr : Addr) (pos : Nat) : Prop :=
  (w.pool.cache.fileOf w.device (w.pool.cache.heap addr).key.id)[
    w.pool.cache.filePos (w.pool.cache.heap addr) pos]? ≠
      some (valueAt (w.pool.cache.heap addr).data pos)

/-- A later `flush` sends the page: it is dirty, its entry leads to it, and
the entry is marked dirty. -/
def WillFlush (w : World) (addr : Addr) : Prop :=
  (w.pool.cache.heap addr).dirty = true ∧
    w.pool.cache.slot (w.pool.cache.heap addr).key = some addr ∧
    w.pool.cache.Flagged (w.pool.cache.heap addr).key.id

/-- No update is lost in a run whose steps are all careful. -/
theorem no_lost_update {events : List Event} (hopened : w.Opened)
    (hruns : Runs World.step Careful w events w') :
    ∀ addr ∈ w'.pool.cache.lru, ∀ pos < (w'.pool.cache.heap addr).size,
      w'.Differs addr pos → w'.WillFlush addr := by
  have hkept := hruns.preserves Kept.step hopened.kept
  intro addr hmem pos hpos hdiffers
  have hlive : addr ∈ w'.pool.cache.live (Task.heldAll w'.pool.tasks) :=
    Cache.mem_live_of_mem_lru hmem
  have hdirty : (w'.pool.cache.heap addr).dirty = true := by
    by_contra hclean
    exact hdiffers ((hkept.sound.cache.agrees addr hlive trivial
      (by simpa using hclean)).getElem? hpos)
  exact ⟨hdirty, hkept.sound.cache.layout.slot_of_live addr hlive,
    hkept.marked addr hlive trivial hdirty⟩

end

end World

namespace Cache

/-- An entry that `hint_open` has just made. -/
structure FreshEntry (path : Path) (entry : LookupEntry) : Prop where
  path : entry.path = path
  pages : entry.pages = ∅
  readFd : entry.readFd = none
  writeFd : entry.writeFd = none
  dirty : entry.dirty = false

/-- `hint_open` for a file without an entry makes a fresh one. -/
theorem hintOpen_new {c : Cache} {id : Id} (hnew : c.lookup id = none)
    (path : Path) (mode : OpenMode) :
    ∃ marks entry, (c.hintOpen id path mode).1 = { c with
        table := (c.table.insert id (LookupEntry.create path)).insert id entry
        staleFds := marks } ∧ FreshEntry path entry := by
  have hlookup : c.newLookup id path = { c with
      table := c.table.insert id (LookupEntry.create path) } := by
    unfold newLookup
    rw [hnew]
  have hentry : (c.newLookup id path).lookup id =
      some (LookupEntry.create path) := by
    rw [hlookup]
    exact AList.lookup_insert _
  unfold hintOpen
  dsimp only
  rw [hentry]
  dsimp only
  rw [if_neg (show ¬ (LookupEntry.create path).path ≠ path from
    fun h => h rfl)]
  unfold modifyEntry
  rw [hentry, hlookup]
  split_ifs <;> exact ⟨_, _, rfl, rfl, rfl, rfl, rfl, rfl⟩

theorem lookup_hintOpen {c : Cache} {id : Id} (hnew : c.lookup id = none)
    {path : Path} {mode : OpenMode} {id' : Id} {entry : LookupEntry}
    (hentry : (c.hintOpen id path mode).1.lookup id' = some entry) :
    (id' = id ∧ FreshEntry path entry) ∨ c.lookup id' = some entry := by
  obtain ⟨marks, entry₁, heq, hfresh⟩ := hintOpen_new hnew path mode
  rw [heq] at hentry
  unfold lookup at hentry ⊢
  by_cases hid : id' = id
  · subst hid
    rw [AList.lookup_insert] at hentry
    obtain rfl := Option.some.inj hentry
    exact .inl ⟨rfl, hfresh⟩
  · rw [AList.lookup_insert_ne hid, AList.lookup_insert_ne hid] at hentry
    exact .inr hentry

end Cache

namespace World

/-- A file is opened before anything is cached.  No other file has its path. -/
theorem Opened.hintOpen {w : World} (hopened : w.Opened) {id : Id}
    {path : Path} (hnew : w.pool.cache.lookup id = none)
    (hpath : ∀ id', w.pool.cache.pathOf id' ≠ some path) (mode : OpenMode) :
    Opened { w with
      pool := ⟨(w.pool.cache.hintOpen id path mode).1, w.pool.tasks,
        w.pool.stale⟩ } := by
  have hlookup := @Cache.lookup_hintOpen w.pool.cache id hnew path mode
  obtain ⟨marks, entry, heq, -⟩ := Cache.hintOpen_new hnew path mode
  rw [heq] at hlookup ⊢
  refine { hopened with slot := fun key => ?_, closed := ?_, path_inj := ?_ }
  · by_contra hsome
    obtain ⟨addr, hslot⟩ := Option.ne_none_iff_exists'.mp hsome
    obtain ⟨entry', hentry, hpage⟩ := Cache.lookup_of_slot hslot
    rcases hlookup hentry with ⟨-, hfresh⟩ | hold
    · rw [hfresh.pages] at hpage
      cases hpage
    · have hnone := hopened.slot key
      unfold Cache.slot at hnone
      rw [hold] at hnone
      rw [show entry'.pages.lookup key.index = none from hnone] at hpage
      cases hpage
  · intro id' entry' hentry
    rcases hlookup hentry with ⟨-, hfresh⟩ | hold
    · exact ⟨hfresh.readFd, hfresh.writeFd⟩
    · exact hopened.closed id' entry' hold
  · intro id₁ id₂ path' h₁ h₂
    obtain ⟨entry₁, hentry₁, rfl⟩ := Option.map_eq_some_iff.mp h₁
    obtain ⟨entry₂, hentry₂, hsame⟩ := Option.map_eq_some_iff.mp h₂
    rcases hlookup hentry₁ with ⟨rfl, hfresh₁⟩ | hold₁ <;>
      rcases hlookup hentry₂ with ⟨rfl, hfresh₂⟩ | hold₂
    · rfl
    · refine absurd (Cache.pathOf_of_lookup hold₂) ?_
      rw [hsame, hfresh₁.path]
      exact hpath id₂
    · refine absurd (Cache.pathOf_of_lookup hold₁) ?_
      rw [← hsame, hfresh₂.path]
      exact hpath id₁
    · exact hopened.path_inj id₁ id₂ _ (Cache.pathOf_of_lookup hold₁)
        (hsame ▸ Cache.pathOf_of_lookup hold₂)

/-- Nothing is open yet. -/
def fresh (pageSize maxPages : Nat) (file : Path → List Byte) : World where
  pool := ⟨Cache.create pageSize maxPages, [], []⟩
  device := {
    file := file
    fds := fun _ => none
    nextFd := 0 }
  replies := fun _ => none

theorem opened_fresh {pageSize maxPages : Nat} {file : Path → List Byte}
    (hpos : 0 < Cache.bitCeil pageSize)
    (hlt : Cache.bitCeil pageSize < 2 ^ 32) :
    (fresh pageSize maxPages file).Opened where
  tasks := rfl
  lru := rfl
  slot := fun _ => rfl
  readQueue := fun _ => rfl
  promises := fun _ => rfl
  pageSize_pos := hpos
  pageSize_lt := hlt
  closed := fun id entry hentry => by cases hentry
  path_inj := fun id id' path hpath => by cases hpath
  fds := fun fd path h => by cases h
  replies := fun _ => rfl

end World

/-- One open file, nothing cached, pages of four bytes. -/
def World.single (maxPages : Nat) (file : List Byte) : World where
  pool :=
    ⟨((Cache.create 4 maxPages).hintOpen ⟨1⟩ ["f"] .readWrite).1, [], []⟩
  device := {
    file := fun _ => file
    fds := fun _ => none
    nextFd := 0 }
  replies := fun _ => none

theorem World.opened_single (maxPages : Nat) (file : List Byte) :
    (single maxPages file).Opened := by
  have hfresh : (fresh 4 maxPages fun _ => file).Opened :=
    opened_fresh (by decide) (by decide)
  exact hfresh.hintOpen rfl (fun id h => by cases h) .readWrite

namespace World

section

variable {w w' : World} {i : Nat}

/-- What is left to check for a part of a `read`. -/
theorem careful_read {r : Range} {pc : ReadAtPc}
    (htask : w.pool.tasks[i]? = some (.readAt r pc)) (hintact : w'.Intact)
    (hfetch : w.pool.cache.FetchKept (fun _ => True) w.device r pc
      (w.replies i)) : w.Careful (.resume i) w' := by
  refine ⟨hintact, ?_, ?_, ?_⟩
  · intro r' pc' htask'
    cases htask.symm.trans htask'
    exact hfetch
  · intro r' input pc' n htask'
    cases htask.symm.trans htask'
  · intro id pc' _ htask'
    cases htask.symm.trans htask'

theorem careful_write {r : Range} {input : List Byte} {pc : WriteAtPc}
    (htask : w.pool.tasks[i]? = some (.writeAt r input pc))
    (hintact : w'.Intact)
    (hsent : ∀ (j : Nat) (task : Task), j ≠ i → w.pool.tasks[j]? = some task →
      ∀ page fd written len, task.wait = .sending page fd written len →
        w.pool.cache.slot r.key = some page →
        ∀ pos < (FlushAtPc.writing written len).sent (w.replies j),
          valueAt ((w.pool.cache.written r input page).heap page).data pos =
            valueAt (w.pool.cache.heap page).data pos) :
    w.Careful (.resume i) w' := by
  refine ⟨hintact, ?_, ?_, ?_⟩
  · intro r' pc' htask'
    cases htask.symm.trans htask'
  · intro r' input' pc' n htask' _
    cases htask.symm.trans htask'
    exact hsent
  · intro id pc' _ htask'
    cases htask.symm.trans htask'

theorem careful_flush {id : Id} {pc : FlushPc}
    (htask : w.pool.tasks[i]? = some (.flush id pc)) (hintact : w'.Intact)
    (hflag : w'.pool.tasks[i]? = some (.finished (.ok ())) →
      (∀ index addr fd fpc, pc = .flushing index addr fd fpc →
        ∀ k < index, w.pool.cache.CleanAt ⟨id, k⟩) ∧
      ∀ r input wpc, Task.writeAt r input wpc ∈ w.pool.tasks → r.id ≠ id) :
    w.Careful (.resume i) w' := by
  refine ⟨hintact, ?_, ?_, ?_⟩
  · intro r pc' htask'
    cases htask.symm.trans htask'
  · intro r input pc' n htask'
    cases htask.symm.trans htask'
  · intro id' pc' _ htask'
    cases htask.symm.trans htask'
    exact hflag

end

end World

namespace LostUpdate

def start : World :=
  World.single 2 [7, 8, 9]

/-- A write reaches a page whose bytes `flush_at` has sent already; the answer
of the device then marks the page clean. -/
def events : List Event :=
  [.call (.write ⟨1⟩ [1, 1, 1] 0), .resume 0, .call (.flush ⟨1⟩), .resume 1,
    .exec 1 3, .resume 1, .exec 1 3, .call (.write ⟨1⟩ [2] 0), .resume 2,
    .resume 1]

/-- Two clients share a file.  The first has read it and flushes what it has
written; while its page is being sent the second extends the page, and writes
to it again when the `flush` is over. -/
def sharedEvents : List Event :=
  [.call (.read ⟨1⟩ 1 0), .resume 0, .exec 0 0, .resume 0, .exec 0 0,
    .resume 0, .call (.write ⟨1⟩ [1, 1, 1] 0), .resume 1, .call (.flush ⟨1⟩),
    .resume 2, .exec 2 0, .resume 2, .exec 2 3, .call (.write ⟨1⟩ [5] 3),
    .resume 3, .resume 2, .exec 2 1, .resume 2, .call (.write ⟨1⟩ [2] 0),
    .resume 4]

theorem runs_sharedEvents : ∃ w', Runs World.step World.Careful start
    sharedEvents w' ∧ 0 ∈ w'.pool.cache.lru ∧
    0 < (w'.pool.cache.heap 0).size ∧ w'.Differs 0 0 := by
  refine ⟨_, .cons rfl trivial (.cons rfl ?readStart (.cons rfl trivial
    (.cons rfl ?readOpened (.cons rfl trivial (.cons rfl ?readFetched
    (.cons rfl trivial (.cons rfl ?write (.cons rfl trivial
    (.cons rfl ?flushStart (.cons rfl trivial (.cons rfl ?flushOpened
    (.cons rfl trivial (.cons rfl trivial (.cons rfl ?extend
    (.cons rfl ?flushSent (.cons rfl trivial (.cons rfl ?flushDone
    (.cons rfl trivial (.cons rfl ?overwrite
    (.nil _)))))))))))))))))))), by decide, by decide, ?differs⟩
  case readStart | readOpened =>
    refine World.careful_read rfl (by decide) ?_
    intro fd fut bytes hpc
    cases hpc
  case readFetched =>
    refine World.careful_read rfl (by decide) ?_
    intro fd fut bytes _ hreply _
    cases hreply
    exact ⟨rfl, fun _ => ⟨by decide, by decide⟩⟩
  case write | overwrite =>
    refine World.careful_write rfl (by decide) ?_
    intro j task hne htask page fd written len hwait
    rcases j with _ | _ | _ | _ | _ | j <;> cases htask <;> cases hwait
  case flushStart | flushOpened | flushSent =>
    refine World.careful_flush rfl (by decide) fun hdone => ?_
    cases hdone
  case extend =>
    refine World.careful_write rfl (by decide) ?_
    intro j task hne htask page fd written len hwait hslot
    rcases j with _ | _ | _ | _ | j <;> cases htask <;> cases hwait
    decide
  case flushDone =>
    refine World.careful_flush rfl (by decide) fun _ => ⟨?_, ?_⟩
    · intro index addr fd fpc hpc k hk
      cases hpc
      cases hk
    · intro r input wpc hmem
      obtain ⟨j, htask⟩ := List.mem_iff_getElem?.mp hmem
      rcases j with _ | _ | _ | _ | j <;> cases htask
  case differs =>
    unfold World.Differs
    decide

theorem no_lost_update_shared : ∃ w' : World,
    Runs World.step World.Careful start sharedEvents w' ∧ w'.Differs 0 0 ∧
      w'.WillFlush 0 := by
  obtain ⟨w', hruns, hmem, hsize, hdiffers⟩ := runs_sharedEvents
  exact ⟨w', hruns, hdiffers, World.no_lost_update (World.opened_single _ _)
    hruns 0 hmem 0 hsize hdiffers⟩

/-- Without care an update is lost: in the state at the end no operation is
running, the page holds a byte that the device does not have, and the page is
not marked dirty. -/
theorem not_no_lost_update : ¬ ∀ (w w' : World) (events : List Event),
    w.Opened → (∀ call, Event.call call ∈ events → call.Plain) →
    w.run events = some w' → w'.pool.Idle →
    ∀ addr ∈ w'.pool.cache.lru, ∀ pos < (w'.pool.cache.heap addr).size,
      w'.Differs addr pos → w'.WillFlush addr := by
  intro hall
  have hend : ∃ w', start.run events = some w' ∧ w'.pool.Idle ∧
      0 ∈ w'.pool.cache.lru ∧ (w'.pool.cache.heap 0).size = 3 ∧
      w'.Differs 0 0 ∧ (w'.pool.cache.heap 0).dirty = false := by
    refine ⟨_, rfl, by decide, by decide, by decide, ?_, by decide⟩
    unfold World.Differs
    decide
  obtain ⟨w', hrun, hidle, hmem, hsize, hdiffers, hclean⟩ := hend
  have hdirty := (hall start w' events (World.opened_single _ _) ?_ hrun hidle 0 hmem 0
    (by omega) hdiffers).1
  · rw [hclean] at hdirty
    cases hdirty
  · intro call hmem
    simp only [events, List.mem_cons, Event.call.injEq, reduceCtorEq,
      false_or, List.not_mem_nil, or_false] at hmem
    rcases hmem with rfl | rfl | rfl <;> trivial

end LostUpdate

end Madbfs
