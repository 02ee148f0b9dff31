/-
Calls made one at a time.  A call is made only when no operation is running,
so the suspended tasks are parts of one call and work on different pages.
Then no fetched page is stale, no page changes while it is sent, and no entry
is marked clean too early: all the care that concurrent clients have to take
is there by itself.
-/
import Mathlib.Data.Multiset.UnionInter
import Madbfs.Cache.Parts

namespace Madbfs

open Bytes

/-- What the device answers to a fetch agrees with it. -/
theorem Cache.agrees_fetchedPage {c : Cache} (hlt : c.pageSize < 2 ^ 32)
    (d : Device) (key : PageKey) :
    c.Agrees d (c.fetchedPage key (slice (c.fileOf d key.id)
      (key.index * c.pageSize) c.pageSize)) (c.fetchedPage key (slice
        (c.fileOf d key.id) (key.index * c.pageSize) c.pageSize)).size := by
  rw [Cache.fetchedPage_size hlt]
  have hlength := length_slice (c.fileOf d key.id)
    (key.index * c.pageSize) c.pageSize
  refine ⟨fun pos hpos => ?_, fun hpos => ?_⟩
  · change valueAt (overlay _ 0 ((slice _ _ _).take c.pageSize)) pos =
      valueAt (c.fileOf d key.id) (key.index * c.pageSize + pos)
    rw [valueAt_overlay, List.length_take, if_pos (by omega),
      Nat.sub_zero, List.take_of_length_le (by omega), valueAt_slice,
      if_pos (by omega)]
  · change key.index * c.pageSize + _ ≤ (c.fileOf d key.id).length
    omega

namespace World

/-- The system while calls are made one at a time. -/
structure Serial (S : Id → Prop) (w : World) : Prop where
  kept : w.Kept S
  apart : ∀ (i j : Nat) (left right : Task), i ≠ j →
    w.pool.tasks[i]? = some left → w.pool.tasks[j]? = some right →
    left.Apart right
  calm : ∀ task ∈ w.pool.tasks, task.Calm
  fits : ∀ task ∈ w.pool.tasks, task.Fits w.pool.cache.pageSize
  reading : ∀ r pc, Task.readAt r pc ∈ w.pool.tasks → Cache.Missing pc →
    w.pool.cache.slot r.key = none
  queued : ∀ key, (w.pool.cache.readQueue.lookup key).isSome ↔
    ∃ task ∈ w.pool.tasks, task.Fetches key
  fetched : ∀ (i : Nat) r fd fut bytes,
    w.pool.tasks[i]? = some (.readAt r (.fetching fd fut)) →
    w.replies i = some (.fetched (.ok bytes)) → S r.id →
    w.pool.cache.Agrees w.device (w.pool.cache.fetchedPage r.key bytes)
      (w.pool.cache.fetchedPage r.key bytes).size
  flushing : ∀ id index addr fd pc,
    Task.flush id (.flushing index addr fd pc) ∈ w.pool.tasks →
    ∀ k < index, w.pool.cache.CleanAt ⟨id, k⟩

section

variable {S : Id → Prop} {w w' : World} {i : Nat}

/-- The tasks after one of them was resumed. -/
theorem mem_set_cases {tasks : List Task} {task task' : Task}
    (hmem : task ∈ tasks.set i task') :
    task = task' ∨ ∃ j, j ≠ i ∧ tasks[j]? = some task := by
  obtain ⟨j, hj⟩ := List.mem_iff_getElem?.mp hmem
  rw [List.getElem?_set] at hj
  split_ifs at hj with heq hlt
  · exact .inl (Option.some.inj hj).symm
  · exact .inr ⟨j, Ne.symm heq, hj⟩

theorem mem_set_of_ne {tasks : List Task} {task task' : Task} {j : Nat}
    (hne : j ≠ i) (htask : tasks[j]? = some task) :
    task ∈ tasks.set i task' := by
  apply List.mem_of_getElem? (i := j)
  rw [List.getElem?_set_ne (Ne.symm hne)]
  exact htask

theorem Serial.fetchKept (hserial : w.Serial S) : w.FetchKept S i := by
  rintro r pc htask fd fut bytes rfl hreply hsome
  exact ⟨hserial.reading r _ (List.mem_of_getElem? htask) trivial,
    hserial.fetched i r fd fut bytes htask hreply⟩

/-- A `flush` has left clean pages behind it, and no write is running. -/
theorem Serial.flagKept (hserial : w.Serial S) : w.FlagKept S i w' := by
  intro id pc _ htask _
  refine ⟨?_, ?_⟩
  · rintro index addr fd fpc rfl
    exact hserial.flushing id index addr fd fpc (List.mem_of_getElem? htask)
  · intro r input wpc hmem
    obtain ⟨j, hj⟩ := List.mem_iff_getElem?.mp hmem
    have hne : i ≠ j := by
      rintro rfl
      rw [htask] at hj
      cases hj
    rcases hserial.apart i j _ _ hne htask hj with h | h <;> cases h

/-- Everything one resumption is known by: the task, what its coroutine did,
and what that means for the cache. -/
structure Resumption (S : Id → Prop) (w : World) (i : Nat) (w' : World)
    (task : Task) (c' : Cache) (task' : Task) (others : Multiset Addr) :
    Prop where
  task_eq : w.pool.tasks[i]? = some task
  lt_length : i < w.pool.tasks.length
  held_eq : Task.heldAll w.pool.tasks = task.held + others
  held_set : ∀ task', Task.heldAll (w.pool.tasks.set i task') =
    task'.held + others
  sound : w.pool.cache.Sound S w.device (task.held + others)
  keeps : Cache.Keeps (w.pool.cache, task.held + others)
    (c', task'.held + others)
  resumes : Task.Resumes w.pool.cache others ((w.replies i).getD .go) task c'
    task'
  effect : Task.Effect S w.device w.pool.cache others
    (task.Inserts w.pool.cache (w.replies i)) task c' task'
  world_eq : w' = { w with
    pool := ⟨c', w.pool.tasks.set i task',
      w.pool.stale ++ w.pool.strays i c'⟩
    replies := Function.update w.replies i none }

theorem Serial.resumption (hserial : w.Serial S)
    (hresume : w.resume i = some w') (hintact : w'.Intact) :
    ∃ task c' task' others, Resumption S w i w' task c' task' others := by
  obtain ⟨task, c', task', htask, hstep, hcrash, rfl⟩ :=
    hintact.resume_cases hresume
  obtain ⟨others, hheld, hset⟩ := Task.heldAll_set htask
  have hlt : i < w.pool.tasks.length :=
    (List.getElem?_eq_some_iff.mp htask).1
  have hcache := hserial.kept.sound.cache
  have hwait := hserial.kept.sound.waits i task htask
  rw [hheld] at hcache hwait
  have hresumes := Task.resume_resumes others
    (hserial.kept.sound.plain task (List.mem_of_getElem? htask)) hstep hcrash
  have hfetched : ∀ r pc, task = .readAt r pc →
      w.pool.cache.FetchKept S w.device r pc (w.replies i) :=
    fun r pc heq => hserial.fetchKept r pc (heq ▸ htask)
  exact ⟨task, c', task', others, htask, hlt, hheld, hset, hcache,
    (Task.resumed hresumes hcache hserial.kept.sound.queue hwait
      hfetched).1.keeps, hresumes,
    Task.effect hresumes hcache hwait hfetched, rfl⟩

/-- The page another task is sending is not the one that is written. -/
theorem Serial.sentSame (hserial : w.Serial S) {task task' : Task}
    {c' : Cache} {others : Multiset Addr}
    (hres : Resumption S w i w' task c' task' others) : w.SentSame i w' := by
  intro j task₁ hne htask₁ page fd written len hwait pos _
  obtain rfl := hres.world_eq
  refine congrArg (fun data => valueAt data pos) ?_
  change (c'.heap page).data = (w.pool.cache.heap page).data
  have hlt : page < w.pool.cache.nextAddr := by
    have h := hserial.kept.sound.waits j task₁ htask₁
    rw [hwait] at h
    exact h.1
  have heffect := hres.effect
  cases heffect with
  | acts task task' c' hacts hwrite => exact hacts.keepsData.data page hlt
  | wrote r input pc c₁ addr n hacts hslot hmem hsize =>
      have hheld : page ∈ others := by
        have hapart := hserial.apart i j _ _ (Ne.symm hne) hres.task_eq htask₁
        have hmem₁ : page ∈ task₁.held := by
          cases task₁ with
          | writeAt r' input' pc' =>
              cases pc' with
              | evicting addr' epc =>
                  cases epc with
                  | opening page' rest => cases hwait
                  | flushing page' fd' rest fpc =>
                      cases fpc with
                      | queued fut => cases hwait
                      | writing written' len' =>
                          obtain ⟨rfl, -⟩ := Wait.sending.inj hwait
                          exact Multiset.mem_singleton_self _
              | _ => cases hwait
          | readAt r' pc' => rcases hapart with h | h <;> cases h
          | flush id pc' => rcases hapart with h | h <;> cases h
          | _ => cases hwait
        have hall := hres.held_set .crashed
        rw [show Task.crashed.held = 0 from rfl, Multiset.zero_add] at hall
        rw [← hall]
        refine Task.held_le_heldAll (i := j) ?_ hmem₁
        rw [List.getElem?_set_ne (Ne.symm hne)]
        exact htask₁
      have hlayout := (Cache.Sound.acts hacts hres.sound).layout
      have hpage : page ≠ addr := by
        rintro rfl
        have hnodup := hlayout.nodup
        unfold Cache.live at hnodup
        exact Multiset.disjoint_left.mp
          (Multiset.disjoint_of_nodup_add hnodup) (Multiset.mem_coe.mpr hmem)
          hheld
      rw [Cache.written_heap, if_neg hpage]
      exact hacts.keepsData.data page hlt
  | cleared id pc c₁ hacts =>
      rw [Cache.modifyEntry_heap]
      exact hacts.keepsData.data page hlt

section Resumption

variable {task task' : Task} {c' : Cache} {others : Multiset Addr}

theorem Resumption.apart (hres : Resumption S w i w' task c' task' others)
    (hserial : w.Serial S) {j : Nat} {task₁ : Task} (hne : j ≠ i)
    (htask₁ : w.pool.tasks[j]? = some task₁) : task.Apart task₁ :=
  hserial.apart i j task task₁ (Ne.symm hne) hres.task_eq htask₁

/-- The missing pages of the parts of a `read` are still missing. -/
theorem Resumption.reading (hres : Resumption S w i w' task c' task' others)
    (hserial : w.Serial S) {r : Range} {pc : ReadAtPc}
    (hmem : Task.readAt r pc ∈ w.pool.tasks.set i task')
    (hmissing : Cache.Missing pc) : c'.slot r.key = none := by
  rcases mem_set_cases hmem with rfl | ⟨j, hne, hj⟩
  · have hresumes := hres.resumes
    have hbefore := List.mem_of_getElem? hres.task_eq
    cases hresumes with
    | readAwait _ pc₀ _ _ hstep =>
        exact hstep.slot_none hmissing (hserial.reading r pc₀ hbefore)
  · cases hslot : c'.slot r.key with
    | none => rfl
    | some addr =>
        rcases hres.effect.slot_subset hslot with hold | hkey
        · rw [hserial.reading r pc (List.mem_of_getElem? hj) hmissing] at hold
          cases hold
        · exact absurd rfl ((hres.apart hserial hne hj).key_ne hkey)

/-- The registered fetches are still those of the suspended tasks. -/
theorem Resumption.queued (hres : Resumption S w i w' task c' task' others)
    (hserial : w.Serial S) (key : PageKey) :
    (c'.readQueue.lookup key).isSome ↔
      ∃ task₁ ∈ w.pool.tasks.set i task', task₁.Fetches key := by
  rw [hres.resumes.readQueue key, hserial.queued key]
  constructor
  · rintro (hnew | ⟨⟨task₁, hmem₁, hfetches⟩, hnot⟩)
    · exact ⟨task', List.mem_set hres.lt_length _, hnew⟩
    · obtain ⟨j, hj⟩ := List.mem_iff_getElem?.mp hmem₁
      refine ⟨task₁, mem_set_of_ne (j := j) ?_ hj, hfetches⟩
      rintro rfl
      obtain rfl := Option.some.inj (hres.task_eq.symm.trans hj)
      exact hnot hfetches
  · rintro ⟨task₁, hmem₁, hfetches⟩
    rcases mem_set_cases hmem₁ with rfl | ⟨j, hne, hj⟩
    · exact .inl hfetches
    · refine .inr ⟨⟨task₁, List.mem_of_getElem? hj, hfetches⟩, ?_⟩
      intro hown
      exact (hres.apart hserial hne hj).key_ne hown.key_eq hfetches.key_eq

/-- Answers to fetches that are not delivered yet still agree with the
device. -/
theorem Resumption.fetched (hres : Resumption S w i w' task c' task' others)
    (hserial : w.Serial S) {j : Nat} {r : Range} {fd : Fd} {fut : Fut}
    {bytes : List Byte}
    (hj : (w.pool.tasks.set i task')[j]? = some (.readAt r (.fetching fd fut)))
    (hreply : Function.update w.replies i none j =
      some (.fetched (.ok bytes))) (hS : S r.id) :
    c'.Agrees w.device (c'.fetchedPage r.key bytes)
      (c'.fetchedPage r.key bytes).size := by
  by_cases hne : j = i
  · subst hne
    rw [Function.update_self] at hreply
    cases hreply
  · rw [List.getElem?_set_ne (Ne.symm hne)] at hj
    rw [Function.update_of_ne hne] at hreply
    have hpageSize : c'.pageSize = w.pool.cache.pageSize := hres.keeps.pageSize
    have hsame : c'.fetchedPage r.key bytes =
        w.pool.cache.fetchedPage r.key bytes := by
      unfold Cache.fetchedPage
      rw [hpageSize]
    rw [hsame]
    exact (hserial.fetched j r fd fut bytes hj hreply hS).congr rfl rfl
      hres.keeps.path hpageSize

/-- The pages that a `flush` has passed are still clean. -/
theorem Resumption.flushing (hres : Resumption S w i w' task c' task' others)
    (hserial : w.Serial S) {id : Id} {index : Nat} {addr : Addr} {fd : Fd}
    {pc : FlushAtPc}
    (hmem : Task.flush id (.flushing index addr fd pc) ∈
      w.pool.tasks.set i task') {k : Nat} (hk : k < index) :
    c'.CleanAt ⟨id, k⟩ := by
  rcases mem_set_cases hmem with rfl | ⟨j, hne, hj⟩
  · have hresumes := hres.resumes
    have hbefore := List.mem_of_getElem? hres.task_eq
    cases hresumes with
    | flushAwait _ pc₀ _ _ hstep =>
        refine (hstep.clean (fun h => by cases h) ?_).1 index addr fd pc rfl
          k hk
        rintro index₀ addr₀ fd₀ fpc₀ rfl
        exact hserial.flushing id index₀ addr₀ fd₀ fpc₀ hbefore
  · have hdone := (hres.apart hserial hne hj).done_of_flush
    rw [hres.resumes.not_done] at hdone
    cases hdone

/-- The task that was resumed waits for no fetch. -/
theorem Resumption.calm (hres : Resumption S w i w' task c' task' others)
    (hserial : w.Serial S) (hkept' : w'.Kept S) : task'.Calm := by
  have hqueued' := hres.queued hserial
  have hself : (w.pool.tasks.set i task')[i]? = some task' :=
    List.getElem?_set_self hres.lt_length
  have hown : ∀ key, task.key = some key →
      (w.pool.cache.readQueue.lookup key).isSome → task.Fetches key := by
    intro key hkey hsome
    obtain ⟨task₁, hmem₁, hfetches⟩ := (hserial.queued key).mp hsome
    obtain ⟨j, hj⟩ := List.mem_iff_getElem?.mp hmem₁
    by_cases hne : j = i
    · subst hne
      obtain rfl := Option.some.inj (hres.task_eq.symm.trans hj)
      exact hfetches
    · exact absurd hfetches.key_eq ((hres.apart hserial hne hj).key_ne hkey)
  have hevict : ∀ page fut, page ∈ task'.held →
      task'.wait ≠ .queued page fut := by
    intro page fut hpage hqueue
    obtain rfl := hres.world_eq
    have hwait' := hkept'.sound.waits i task' hself
    rw [hqueue] at hwait'
    have hlive : page ∈ c'.live (Task.heldAll (w.pool.tasks.set i task')) :=
      Cache.mem_live.mpr (.inr (Task.held_le_heldAll hself hpage))
    have hslot : c'.slot (c'.heap page).key = some page :=
      hkept'.sound.cache.layout.slot_of_live page hlive
    obtain ⟨task₁, hmem₁, hfetches⟩ := (hqueued' (c'.heap page).key).mp (by
      rw [(hwait'.2.2 hlive).1]
      rfl)
    obtain ⟨r, fd, fut', rfl, hkey⟩ := hfetches.cases
    rw [← hkey, hres.reading hserial hmem₁ trivial] at hslot
    cases hslot
  have hnone : ∀ id pc key, task' = .flush id pc →
      c'.readQueue.lookup key = none := by
    rintro id pc key rfl
    by_contra hsome
    obtain ⟨task₁, hmem₁, hfetches⟩ := (hqueued' key).mp
      (Option.isSome_iff_ne_none.mpr hsome)
    obtain ⟨j, hj⟩ := List.mem_iff_getElem?.mp hmem₁
    obtain ⟨r, fd, fut, rfl, -⟩ := hfetches.cases
    have hne : j ≠ i := by
      rintro rfl
      rw [hself] at hj
      cases hj
    have hapart' := Task.apart_set hserial.apart hres.task_eq
      fun _ _ _ _ happ => hres.resumes.apart happ
    cases (hapart' j i _ _ hne hj hself).done_of_flush
  exact hres.resumes.calm hown hevict hnone

end Resumption

/-- A resumption keeps all this. -/
theorem Serial.resume (hserial : w.Serial S) (hresume : w.resume i = some w')
    (hintact : w'.Intact) : w'.Serial S := by
  obtain ⟨task, c', task', others, hres⟩ :=
    hserial.resumption hresume hintact
  have hkept' := hserial.kept.resume hresume hintact hserial.fetchKept
    (hserial.sentSame hres) hserial.flagKept
  have hcalm := hres.calm hserial hkept'
  have hmem := List.mem_of_getElem? hres.task_eq
  obtain rfl := hres.world_eq
  refine ⟨hkept', ?_, ?_, ?_, fun r pc => hres.reading hserial,
    hres.queued hserial, fun j r fd fut bytes => hres.fetched hserial,
    fun id index addr fd pc hmem₁ k => hres.flushing hserial hmem₁⟩
  · exact Task.apart_set hserial.apart hres.task_eq
      fun _ _ _ _ happ => hres.resumes.apart happ
  · intro task₁ hmem₁
    rcases mem_set_cases hmem₁ with rfl | ⟨j, hne, hj⟩
    · exact hcalm
    · exact hserial.calm task₁ (List.mem_of_getElem? hj)
  · intro task₁ hmem₁
    change task₁.Fits c'.pageSize
    rw [show c'.pageSize = w.pool.cache.pageSize from hres.keeps.pageSize]
    rcases mem_set_cases hmem₁ with rfl | ⟨j, hne, hj⟩
    · exact hres.resumes.fits (hserial.fits task hmem)
    · exact hserial.fits task₁ (List.mem_of_getElem? hj)

/-- The device changes nothing of this. -/
theorem Serial.exec (hserial : w.Serial S) {accept : Nat}
    (hexec : w.exec i accept = some w') : w'.Serial S := by
  have hkept' := hserial.kept.exec hexec
  obtain ⟨task, device, reply, htask, hnone, hexecutes, rfl⟩ :=
    hserial.kept.sound.executes hexec
  refine ⟨hkept', hserial.apart, hserial.calm, hserial.fits, hserial.reading,
    hserial.queued, ?_, hserial.flushing⟩
  intro j r fd fut bytes hj hreply hS
  change w.pool.tasks[j]? = _ at hj
  change Function.update w.replies i (some reply) j = _ at hreply
  change w.pool.cache.Agrees device _ _
  by_cases hne : j = i
  · subst hne
    obtain rfl := Option.some.inj (htask.symm.trans hj)
    rw [Function.update_self] at hreply
    cases hexecutes with
    | opened id path heq hpath => cases hreply
    | fetched key fd' fut' heq =>
        obtain ⟨rfl, -, -⟩ := Wait.fetching.inj heq
        obtain rfl := Except.ok.inj (Reply.fetched.inj
          (Option.some.inj hreply))
        exact Cache.agrees_fetchedPage hserial.kept.sound.cache.pageSize_lt
          w.device r.key
    | sent page fd' written len n path heq hlive hpath hle hpos hn =>
        cases hreply
  · rw [Function.update_of_ne hne] at hreply
    have hagrees := hserial.fetched j r fd fut bytes hj hreply hS
    cases hexecutes with
    | opened id path heq hpath =>
        exact ⟨hagrees.valueAt_eq, hagrees.le_length⟩
    | fetched key fd' fut' heq => exact hagrees
    | sent page fd' written len n path heq hlive hpath hle hpos hn =>
        refine hagrees.sent_ne hserial.kept.sound.cache hlive hpath written
          len n ?_ ?_
        · intro hkey
          have hslot := hserial.kept.sound.cache.layout.slot_of_live page hlive
          rw [← hkey, show (w.pool.cache.fetchedPage r.key bytes).key = r.key
            from rfl, hserial.reading r _ (List.mem_of_getElem? hj)
              trivial] at hslot
          cases hslot
        · rw [Cache.fetchedPage_size hserial.kept.sound.cache.pageSize_lt]
          exact Nat.min_le_left _ _

/-- A call made while nothing is running keeps all this. -/
theorem Serial.call (hserial : w.Serial S) (hidle : w.pool.Idle)
    {call : Call} (hcall : call.Proper w.pool.cache) :
    Serial S { w with pool := w.pool.call call } := by
  obtain ⟨hslot, hqueue, hsize, -, -⟩ := hcall.same
  have hcache := hserial.kept.sound.cache
  have hstarts := hcall.starts hcache.pageSize_pos hcache.pageSize_lt
  have hmem : ∀ {task}, task ∈ w.pool.tasks ++ (call.start w.pool.cache).2 →
      task.isDone = true ∨ task.Starts w.pool.cache.pageSize := by
    intro task hmem
    rcases List.mem_append.mp hmem with hold | hnew
    · exact .inl (hidle task hold)
    · exact .inr (hstarts task hnew)
  refine ⟨hserial.kept.call hcall.plain, ?_, ?_, ?_, ?_, ?_, ?_, ?_⟩
  · intro i j left right hne hleft hright
    change (w.pool.tasks ++ (call.start w.pool.cache).2)[i]? = _ at hleft
    change (w.pool.tasks ++ (call.start w.pool.cache).2)[j]? = _ at hright
    rw [List.getElem?_append] at hleft hright
    split_ifs at hleft hright with hi hj
    · exact Task.apart_of_isDone (hidle _ (List.mem_of_getElem? hleft)) right
    · exact Task.apart_of_isDone (hidle _ (List.mem_of_getElem? hleft)) right
    · exact (Task.apart_of_isDone (hidle _ (List.mem_of_getElem? hright))
        left).symm
    · exact hcall.apart (by omega) hleft hright
  · intro task htask
    rcases List.mem_append.mp htask with hold | hnew
    · exact hserial.calm task hold
    · have hstart := hstarts task hnew
      unfold Task.Starts at hstart
      split at hstart
      · exact fun _ _ h => by cases h
      · exact fun _ _ h => by cases h
      · exact fun _ _ h => by cases h
      · exact hstart.elim
  · intro task htask
    change task.Fits (call.start w.pool.cache).1.pageSize
    rw [hsize]
    rcases List.mem_append.mp htask with hold | hnew
    · exact hserial.fits task hold
    · have hstart := hstarts task hnew
      unfold Task.Starts at hstart
      split at hstart
      · exact hstart
      · exact hstart
      · trivial
      · exact hstart.elim
  · intro r pc htask hmissing
    rcases hmem htask with h | h
    · cases h
    · cases pc with
      | start => exact hmissing.elim
      | _ => exact h.elim
  · intro key
    change ((call.start w.pool.cache).1.readQueue.lookup key).isSome ↔ _
    rw [hqueue, hserial.queued key]
    constructor
    · rintro ⟨task, htask, hfetches⟩
      exact ⟨task, List.mem_append_left _ htask, hfetches⟩
    · rintro ⟨task, htask, hfetches⟩
      obtain ⟨r, fd, fut, rfl, -⟩ := hfetches.cases
      rcases hmem htask with h | h
      · cases h
      · exact h.elim
  · intro i r fd fut bytes htask
    rcases hmem (List.mem_of_getElem? htask) with h | h
    · cases h
    · exact h.elim
  · intro id index addr fd pc htask
    rcases hmem htask with h | h
    · cases h
    · exact h.elim

/-- The steps when calls are made one at a time and no dangling iterator is
dereferenced. -/
def OneAtATime (w : World) (event : Event) (w' : World) : Prop :=
  match event with
  | .call call => w.pool.Idle ∧ call.Proper w.pool.cache
  | .exec _ _ => True
  | .resume _ => w'.Intact

theorem Serial.step {event : Event} (hstep : w.step event = some w')
    (hguard : w.OneAtATime event w') (hserial : w.Serial S) :
    w'.Serial S := by
  cases event with
  | call call =>
      obtain rfl := Option.some.inj hstep
      exact hserial.call hguard.1 hguard.2
  | exec i accept => exact hserial.exec hstep
  | resume i => exact hserial.resume hstep hguard

/-- A sound state without running operations is one a run can start from, if
no page of the files in question is cached. -/
theorem Serial.of_idle (hsound : w.Sound S) (hidle : w.pool.Idle)
    (huncached : ∀ id, S id → ∀ k, w.pool.cache.slot ⟨id, k⟩ = none)
    (hqueue : ∀ key, w.pool.cache.readQueue.lookup key = none) :
    w.Serial S where
  kept := by
    refine ⟨hsound, ?_, ?_⟩
    · intro addr hmem hS hdirty
      have hslot := hsound.cache.layout.slot_of_live addr hmem
      rw [show (w.pool.cache.heap addr).key =
        ⟨(w.pool.cache.heap addr).key.id, (w.pool.cache.heap addr).key.index⟩
        from rfl, huncached _ hS] at hslot
      cases hslot
    · intro r input pc hmem
      cases hidle _ hmem
  apart := fun i j left right _ hleft _ =>
    Task.apart_of_isDone (hidle left (List.mem_of_getElem? hleft)) right
  calm := by
    intro task hmem
    have hdone := hidle task hmem
    cases task with
    | didRead r res => exact fun _ _ h => by cases h
    | didWrite r res => exact fun _ _ h => by cases h
    | finished res => exact fun _ _ h => by cases h
    | _ => cases hdone
  fits := by
    intro task hmem
    have hdone := hidle task hmem
    cases task with
    | readAt r pc => cases hdone
    | writeAt r input pc => cases hdone
    | _ => trivial
  reading := by
    intro r pc hmem
    cases hidle _ hmem
  queued := by
    intro key
    rw [hqueue]
    refine ⟨fun h => (by cases h), ?_⟩
    rintro ⟨task, hmem, hfetches⟩
    obtain ⟨r, fd, fut, rfl, -⟩ := hfetches.cases
    cases hidle _ hmem
  fetched := by
    intro i r fd fut bytes htask
    cases hidle _ (List.mem_of_getElem? htask)
  flushing := by
    intro id index addr fd pc hmem
    cases hidle _ hmem

end

end World

end Madbfs
