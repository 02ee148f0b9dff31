/-
One resumption keeps soundness.  The cache stays sound, the operation that was
resumed is sound where it is suspended next, and no other suspended operation
is disturbed, as long as no byte changes that the device already has of a page
that is being sent.
-/
import Madbfs.Cache.Wait

namespace Madbfs

open Bytes

namespace Cache

/-- What a resumption leaves to the rest of the system. -/
structure Resumed (S : Id → Prop) (c : Cache) (d : Device)
    (before : Multiset Addr) (c' : Cache) (after : Multiset Addr) :
    Prop where
  sound : Sound S c' d after
  queue : Queue c'
  keeps : Keeps (c, before) (c', after)
  others : ∀ (wait : Wait) (reply : Option Reply),
    wait.Sound S c d before reply →
    (∀ page fd written len, wait = .sending page fd written len →
      ∀ pos < (FlushAtPc.writing written len).sent reply,
        valueAt (c'.heap page).data pos = valueAt (c.heap page).data pos) →
    wait.Sound S c' d after reply

section

variable {S : Id → Prop} {c c' : Cache} {d : Device}
  {held before after : Multiset Addr} {r : Range} {reply : Option Reply}

theorem Queue.congr (hqueue : Queue c) (heq : c'.futures = c.futures) :
    Queue c' := by
  simp only [futures, Futures.mk.injEq] at heq
  obtain ⟨h1, h2, h3⟩ := heq
  refine ⟨?_, ?_, ?_⟩
  · rw [h1, h3]
    exact hqueue.lt_next
  · rw [h1, h2]
    exact hqueue.unset
  · rw [h2, h3]
    exact hqueue.fresh

/-- A resumption that leaves the registered fetches alone. -/
theorem resumed_of_futures (hsound : Sound S c' d after) (hqueue : Queue c)
    (hkeeps : Keeps (c, before) (c', after))
    (heq : c'.futures = c.futures) : Resumed S c d before c' after := by
  refine ⟨hsound, hqueue.congr heq, hkeeps, ?_⟩
  simp only [futures, Futures.mk.injEq] at heq
  obtain ⟨h1, h2, h3⟩ := heq
  intro wait reply hwait hdata
  refine wait_sound_keep hwait hkeeps hdata ?_ ?_
  · rintro key fd fut rfl
    rw [h1, h3]
    exact ⟨hwait.2.2.1, hwait.2.2.2.1⟩
  · rintro page fut rfl hmem
    rw [h1, h2]
    exact hwait.2.2 (hkeeps.live page hwait.1 hmem)

theorem lookup_enqueue (c : Cache) (key key' : PageKey) :
    (c.enqueue key).1.readQueue.lookup key' =
      if key' = key ∧ c.readQueue.lookup key = none then some c.nextFut
      else c.readQueue.lookup key' := by
  unfold enqueue
  dsimp only
  split
  · next fut hfut => rw [if_neg (by simp [hfut])]
  · next hnone =>
      by_cases heq : key' = key
      · subst heq
        rw [if_pos ⟨rfl, hnone⟩]
        exact AList.lookup_insert _
      · rw [if_neg (by simp [heq])]
        exact AList.lookup_insert_ne heq

/-- A fetch starts. -/
theorem resumed_of_starts (hsound : Sound S c' d after) (hqueue : Queue c)
    (hkeeps : Keeps (c, before) (c', after))
    (heq : c'.futures = (c.enqueue r.key).1.futures) :
    Resumed S c d before c' after ∧ c.nextFut < c'.nextFut ∧
      ∀ key, c'.readQueue.lookup key = some c.nextFut → key = r.key := by
  simp only [futures, Futures.mk.injEq] at heq
  obtain ⟨h1, h2, h3⟩ := heq
  have hnext : c'.nextFut = c.nextFut + 1 := h3
  have hpromises : c'.promises = c.promises := h2
  have hlookup : ∀ key fut, c'.readQueue.lookup key = some fut →
      (key = r.key ∧ fut = c.nextFut) ∨
        c.readQueue.lookup key = some fut := by
    intro key fut hfut
    rw [h1, lookup_enqueue] at hfut
    split_ifs at hfut with hnew
    · exact .inl ⟨hnew.1, (Option.some.inj hfut).symm⟩
    · exact .inr hfut
  refine ⟨⟨hsound, ⟨?_, ?_, ?_⟩, hkeeps, ?_⟩, ?_, ?_⟩
  · intro key fut hfut
    rw [hnext]
    rcases hlookup key fut hfut with ⟨-, rfl⟩ | hold
    · exact Nat.lt_succ_self _
    · exact Nat.lt_succ_of_lt (hqueue.lt_next key fut hold)
  · intro key fut hfut
    rw [hpromises]
    rcases hlookup key fut hfut with ⟨-, rfl⟩ | hold
    · exact hqueue.fresh _ (Nat.le_refl _)
    · exact hqueue.unset key fut hold
  · intro fut hle
    rw [hpromises]
    rw [hnext] at hle
    exact hqueue.fresh fut (Nat.le_of_succ_le hle)
  · intro wait reply hwait hdata
    refine wait_sound_keep hwait hkeeps hdata ?_ ?_
    · rintro key fd fut rfl
      obtain ⟨-, -, hlt, hown, -⟩ := hwait
      refine ⟨by rw [hnext]; exact Nat.lt_succ_of_lt hlt, ?_⟩
      intro key' hfut
      rcases hlookup key' fut hfut with ⟨-, rfl⟩ | hold
      · exact absurd hlt (Nat.lt_irrefl _)
      · exact hown key' hold
    · rintro page fut rfl hmem
      obtain ⟨hold, hunset⟩ := hwait.2.2 (hkeeps.live page hwait.1 hmem)
      rw [hpromises]
      refine ⟨?_, hunset⟩
      rw [h1, lookup_enqueue, if_neg, hold]
      rintro ⟨hkey, hnone⟩
      rw [← hkey, hold] at hnone
      cases hnone
  · rw [hnext]
    exact Nat.lt_succ_self _
  · intro key hfut
    rcases hlookup key _ hfut with ⟨rfl, -⟩ | hold
    · rfl
    · exact absurd (hqueue.lt_next key _ hold) (Nat.lt_irrefl _)

theorem lookup_dequeue (c : Cache) (key key' : PageKey) :
    (c.dequeue key).readQueue.lookup key' =
      if key' = key then none else c.readQueue.lookup key' := by
  unfold dequeue
  split_ifs with heq
  · subst heq
    exact AList.lookup_erase _ _
  · exact AList.lookup_erase_ne heq

/-- A fetch ends: its promise is set, and its registration is gone if the page
was inserted. -/
theorem resumed_of_ends {fd : Fd} {fut : Fut} {err : Errc}
    (hsound : Sound S c' d after) (hqueue : Queue c)
    (hkeeps : Keeps (c, before) (c', after))
    (hwait : (Wait.fetching r.key fd fut).Sound S c d before reply)
    (hends : (c'.futures = ((c.setPromise fut err).dequeue r.key).futures ∧
        ∀ page ∈ c.live before, (c.heap page).key ≠ r.key) ∨
      (c'.futures = (c.setPromise fut err).futures ∧
        c.readQueue.lookup r.key = none)) :
    Resumed S c d before c' after := by
  obtain ⟨-, -, hlt, hown, -⟩ := hwait
  have hpromises : c'.promises = Function.update c.promises fut (some err) := by
    rcases hends with ⟨h, -⟩ | ⟨h, -⟩ <;> exact congrArg Futures.promises h
  have hnext : c'.nextFut = c.nextFut := by
    rcases hends with ⟨h, -⟩ | ⟨h, -⟩ <;> exact congrArg Futures.nextFut h
  have hlookup : ∀ key fut', c'.readQueue.lookup key = some fut' →
      c.readQueue.lookup key = some fut' ∧ fut' ≠ fut := by
    intro key fut' hfut'
    rcases hends with ⟨h, -⟩ | ⟨h, hnone⟩
    · rw [show c'.readQueue = ((c.setPromise fut err).dequeue
        r.key).readQueue from congrArg Futures.readQueue h,
        lookup_dequeue] at hfut'
      split_ifs at hfut' with hkey
      refine ⟨hfut', ?_⟩
      rintro rfl
      exact hkey (hown key hfut')
    · rw [show c'.readQueue = c.readQueue from
        congrArg Futures.readQueue h] at hfut'
      refine ⟨hfut', ?_⟩
      rintro rfl
      rw [hown key hfut', hnone] at hfut'
      cases hfut'
  refine ⟨hsound, ⟨?_, ?_, ?_⟩, hkeeps, ?_⟩
  · intro key fut' hfut'
    rw [hnext]
    exact hqueue.lt_next key fut' (hlookup key fut' hfut').1
  · intro key fut' hfut'
    obtain ⟨hold, hne⟩ := hlookup key fut' hfut'
    rw [hpromises, Function.update_of_ne hne]
    exact hqueue.unset key fut' hold
  · intro fut' hle
    rw [hnext] at hle
    have hne : fut' ≠ fut := by
      rintro rfl
      exact Nat.lt_irrefl _ (Nat.lt_of_lt_of_le hlt hle)
    rw [hpromises, Function.update_of_ne hne]
    exact hqueue.fresh fut' hle
  · intro wait reply hother hdata
    refine wait_sound_keep hother hkeeps hdata ?_ ?_
    · rintro key fd' fut' rfl
      rw [hnext]
      exact ⟨hother.2.2.1, fun key' hfut' =>
        hother.2.2.2.1 key' (hlookup key' fut' hfut').1⟩
    · rintro page fut' rfl hmem
      have hlive := hkeeps.live page hother.1 hmem
      obtain ⟨hold, hunset⟩ := hother.2.2 hlive
      have hne : fut' ≠ fut := by
        rintro rfl
        have hkey := hown _ hold
        rcases hends with ⟨-, hnokey⟩ | ⟨-, hnone⟩
        · exact hnokey page hlive hkey
        · rw [hkey, hnone] at hold
          cases hold
      rw [hpromises, Function.update_of_ne hne]
      refine ⟨?_, hunset⟩
      rcases hends with ⟨h, hnokey⟩ | ⟨h, hnone⟩
      · rw [show c'.readQueue = ((c.setPromise fut err).dequeue
          r.key).readQueue from congrArg Futures.readQueue h,
          lookup_dequeue, if_neg (hnokey page hlive)]
        exact hold
      · rw [show c'.readQueue = c.readQueue from
          congrArg Futures.readQueue h]
        exact hold

theorem emptyPage_insertable (hsound : Sound S c d held) {key : PageKey}
    (hentry : (c.lookup key.id).isSome) (hslot : c.slot key = none) :
    Insertable S c d (c.emptyPage key) where
  entry := hentry
  slot := hslot
  wf := ⟨u32_of_lt hsound.pageSize_lt, List.length_replicate, Nat.zero_le _,
    hsound.pageSize_lt⟩
  tail := fun pos _ => Page.valueAt_zeroBuf c.pageSize pos
  clean := rfl
  agrees := fun _ => agrees_zero c d _

theorem fetchedPage_size (hlt : c.pageSize < 2 ^ 32) (key : PageKey)
    (bytes : List Byte) :
    (c.fetchedPage key bytes).size = min c.pageSize bytes.length := by
  have hlength : (bytes.take c.pageSize).length =
      min c.pageSize bytes.length := List.length_take
  have hnarrow : u32 (bytes.take c.pageSize).length =
      (bytes.take c.pageSize).length := u32_of_lt (by omega)
  exact hnarrow.trans hlength

theorem fetchedPage_insertable (hsound : Sound S c d held) {key : PageKey}
    {bytes : List Byte} (hentry : (c.lookup key.id).isSome)
    (hslot : c.slot key = none)
    (hagrees : S key.id → Agrees c d (c.fetchedPage key bytes)
      (c.fetchedPage key bytes).size) :
    Insertable S c d (c.fetchedPage key bytes) where
  entry := hentry
  slot := hslot
  wf := by
    refine ⟨u32_of_lt hsound.pageSize_lt, ?_, ?_, hsound.pageSize_lt⟩
    · have hle : 0 + (bytes.take c.pageSize).length ≤
          (Page.zeroBuf c.pageSize).length := by
        rw [List.length_take, Page.zeroBuf, List.length_replicate]
        omega
      exact (length_overlay_of_le hle).trans List.length_replicate
    · rw [fetchedPage_size hsound.pageSize_lt]
      omega
  tail := by
    intro pos hpos
    rw [fetchedPage_size hsound.pageSize_lt] at hpos
    change valueAt (overlay (Page.zeroBuf c.pageSize) 0 _) pos = 0
    rw [valueAt_overlay, List.length_take, if_neg (by omega)]
    exact Page.valueAt_zeroBuf c.pageSize pos
  clean := rfl
  agrees := hagrees

/-- A fetched page that is about to be inserted has its slot free and holds
what the device holds now. -/
def FetchKept (S : Id → Prop) (c : Cache) (d : Device) (r : Range)
    (pc : ReadAtPc) (reply : Option Reply) : Prop :=
  ∀ fd fut bytes, pc = .fetching fd fut →
    reply = some (.fetched (.ok bytes)) →
    (c.readQueue.lookup r.key).isSome → c.slot r.key = none ∧
      (S r.id → Agrees c d (c.fetchedPage r.key bytes)
        (c.fetchedPage r.key bytes).size)

theorem lookup_isSome_of_pathOf {id : Id} (hpath : (c.pathOf id).isSome) :
    (c.lookup id).isSome := by
  simpa [pathOf] using hpath

theorem readAllowed_of_wait (allowed : Page → Prop) {pc : ReadAtPc}
    (hsound : Sound S c d (pc.held + held))
    (hwait : (pc.wait r).Sound S c d (pc.held + held) reply)
    (hkept : FetchKept S c d r pc reply)
    (hallowed : ∀ fd fut bytes, pc = .fetching fd fut →
      reply = some (.fetched (.ok bytes)) →
      allowed (c.fetchedPage r.key bytes)) :
    ReadAllowed (soundGrant S d allowed) c r pc (reply.getD .go) := by
  cases pc with
  | start => exact trivial
  | queued fut => exact trivial
  | opening =>
      cases reply with
      | none => exact trivial
      | some rep =>
          obtain ⟨fd, rfl, hvalid⟩ := hwait.2 rep rfl
          exact hvalid
  | fetching fd fut =>
      cases reply with
      | none => exact trivial
      | some rep =>
          obtain ⟨bytes, rfl⟩ := hwait.2.2.2.2 rep rfl
          intro hqueue
          obtain ⟨hslot, hagrees⟩ := hkept fd fut bytes rfl rfl hqueue
          exact ⟨fetchedPage_insertable hsound
            (lookup_isSome_of_pathOf hwait.1) hslot hagrees,
            hallowed fd fut bytes rfl rfl⟩
  | evicting addr pc =>
      exact evictAllowed_of_wait hwait
        (Multiset.mem_add.mpr (.inl (Multiset.mem_singleton_self _)))

theorem getD_eq_of_ne_go {rep : Reply} (heq : reply.getD .go = rep)
    (hne : rep ≠ .go) : reply = some rep := by
  cases reply with
  | none => exact absurd heq.symm hne
  | some rep' => exact congrArg some heq

theorem readAtFinish_ne_await {π : Type} (addr : Addr) (c : Cache) (pc : π) :
    (c.readAtFinish r addr).2 ≠ .await pc := by
  unfold readAtFinish
  split <;> exact fun h => (by cases h)

theorem writeAtFinish_ne_await {π : Type} (input : List Byte) (addr : Addr)
    (c : Cache) (pc : π) : (c.writeAtFinish r input addr).2 ≠ .await pc := by
  unfold writeAtFinish
  split <;> exact fun h => (by cases h)

/-- The page lookup of `read_at` leaves a sound wait. -/
theorem ReadLookup.wait_sound {pc' : ReadAtPc}
    (hlookup : ReadLookup c r c' (.await pc')) (hsound : Sound S c d held)
    (hpath : ∀ id, c'.pathOf id = c.pathOf id)
    (hfut : c.nextFut < c'.nextFut ∧
      (∀ key, c'.readQueue.lookup key = some c.nextFut → key = r.key) ∨
      ∀ fd, pc' ≠ .fetching fd c.nextFut) :
    (pc'.wait r).Sound S c' d after none := by
  generalize hflow : Flow.await pc' = flow at hlookup
  cases hlookup with
  | hit addr hslot hmem => cases hflow
  | miss entry hentry hslot hfd =>
      obtain rfl := Flow.await.inj hflow
      exact ⟨by rw [pathOf_of_lookup hentry]; rfl, fun rep hrep => (by cases hrep)⟩
  | fetch entry fd hentry hslot hfd =>
      obtain rfl := Flow.await.inj hflow
      rcases hfut with ⟨hlt, hown⟩ | hne
      · refine ⟨?_, ?_, hlt, hown, fun rep hrep => (by cases hrep)⟩
        · rw [hpath, show r.key.id = r.id from rfl, pathOf_of_lookup hentry]
          rfl
        · intro path hpath'
          rw [hpath, show r.key.id = r.id from rfl,
            pathOf_of_lookup hentry] at hpath'
          obtain rfl := Option.some.inj hpath'
          exact hsound.readFd r.id entry fd hentry hfd
      · exact absurd rfl (hne fd)

/-- A resumption of `read_at` either suspends in a fetch that it has just
registered, or it does not suspend in one. -/
theorem ReadStep.fetches {pc : ReadAtPc}
    {flow : Flow ReadAtPc (Except Errc (List Byte))}
    (hstep : ReadStep c held r pc (reply.getD .go) c' flow)
    (hflow : flow ≠ .crash) (hsound : Sound S c d (pc.held + held))
    (hsound' : Sound S c' d (heldBy ReadAtPc.held flow + held))
    (hkeeps : Keeps (c, pc.held + held)
      (c', heldBy ReadAtPc.held flow + held))
    (hqueue : Queue c)
    (hwait : (pc.wait r).Sound S c d (pc.held + held) reply)
    (hkept : FetchKept S c d r pc reply) :
    Resumed S c d (pc.held + held) c' (heldBy ReadAtPc.held flow + held) ∧
      ((∃ fd, flow = .await (.fetching fd c.nextFut) ∧
        c.nextFut < c'.nextFut ∧
        ∀ key, c'.readQueue.lookup key = some c.nextFut → key = r.key) ∨
      ∀ fd fut, flow ≠ .await (.fetching fd fut)) := by
  have hfutures := hstep.futures hflow
  generalize hnew : c'.futures = futures at hfutures
  cases hfutures with
  | same hpc hne =>
      exact ⟨resumed_of_futures hsound' hqueue hkeeps hnew, .inr hne⟩
  | starts fd heq =>
      obtain ⟨hres, hlt, hown⟩ :=
        resumed_of_starts hsound' hqueue hkeeps hnew
      exact ⟨hres, .inl ⟨fd, heq, hlt, hown⟩⟩
  | inserts fd fut fut' bytes hpc hreply hlookup hne =>
      subst hpc
      have hrep := getD_eq_of_ne_go hreply (fun h => by cases h)
      have hslot := (hkept fd fut bytes rfl hrep
        (by rw [hlookup]; rfl)).1
      refine ⟨resumed_of_ends hsound' hqueue hkeeps hwait
        (.inl ⟨hnew, ?_⟩), .inr hne⟩
      intro page hmem hkey
      have hsome := hsound.layout.slot_of_live page hmem
      rw [hkey, hslot] at hsome
      cases hsome
  | fails fd fut err hpc hreply hne =>
      subst hpc
      have hrep := getD_eq_of_ne_go hreply (fun h => by cases h)
      obtain ⟨bytes, heq⟩ := hwait.2.2.2.2 _ hrep
      cases heq
  | canceled fd fut hpc hnone hne =>
      subst hpc
      exact ⟨resumed_of_ends hsound' hqueue hkeeps hwait
        (.inr ⟨hnew, hnone⟩), .inr hne⟩

/-- A resumption of `read_at` keeps soundness. -/
theorem ReadStep.resumed {pc : ReadAtPc}
    {flow : Flow ReadAtPc (Except Errc (List Byte))}
    (hstep : ReadStep c held r pc (reply.getD .go) c' flow)
    (hflow : flow ≠ .crash) (hsound : Sound S c d (pc.held + held))
    (hqueue : Queue c)
    (hwait : (pc.wait r).Sound S c d (pc.held + held) reply)
    (hkept : FetchKept S c d r pc reply) :
    Resumed S c d (pc.held + held) c' (heldBy ReadAtPc.held flow + held) ∧
      ∀ pc', flow = .await pc' →
        (pc'.wait r).Sound S c' d (pc'.held + held) none := by
  have hallow := readAllowed_of_wait (fun _ => True) hsound hwait
    hkept fun _ _ _ _ _ => trivial
  have hacts := hstep.acts hallow hflow
  have hkeeps := hacts.keepsData.toKeeps
  have hresumed := hstep.fetches hflow hsound (Sound.acts hacts hsound) hkeeps
    hqueue hwait hkept
  refine ⟨hresumed.1, ?_⟩
  rintro pc' rfl
  have hnext : ∀ fd fut, pc' = .fetching fd fut → fut = c.nextFut ∧
      c.nextFut < c'.nextFut ∧
      ∀ key, c'.readQueue.lookup key = some c.nextFut → key = r.key := by
    rintro fd fut rfl
    rcases hresumed.2 with ⟨fd', heq, hlt, hown⟩ | hne
    · cases heq
      exact ⟨rfl, hlt, hown⟩
    · exact absurd rfl (hne fd fut)
  have hlooked : ∀ c₁, ReadLookup c₁ r c' (.await pc') →
      Sound S c₁ d held → c₁.nextFut = c.nextFut →
      (∀ id, c₁.pathOf id = c.pathOf id) →
      (pc'.wait r).Sound S c' d (pc'.held + held) none := by
    intro c₁ hlookup hsound₁ hfut hpath
    refine hlookup.wait_sound hsound₁
      (fun id => (hkeeps.path id).trans (hpath id).symm) ?_
    by_cases hfetch : ∃ fd, pc' = .fetching fd c₁.nextFut
    · obtain ⟨fd, heq⟩ := hfetch
      rw [hfut]
      exact .inl (hnext fd _ heq).2
    · exact .inr fun fd heq => hfetch ⟨fd, heq⟩
  generalize hrep : reply.getD .go = rep at hstep
  cases hstep with
  | queue fut hlookup => exact rfl
  | start c₁ _ _ henter hlookup =>
      cases henter with
      | now hnone =>
          simp only [ReadAtPc.held, Multiset.zero_add] at hsound
          refine hlooked _ hlookup ?_ (by simp)
            (c.pathOf_modifyEntry _ fun _ => rfl)
          exact hsound.modifyEntry _ (fun _ => rfl) (fun _ => rfl)
            (fun _ _ _ h => .inl h) (fun _ _ _ h => .inl h)
  | queued fut c₁ _ _ henter hlookup =>
      cases henter with
      | woken _ hready =>
          simp only [ReadAtPc.held, Multiset.zero_add] at hsound
          exact hlooked c hlookup hsound rfl fun _ => rfl
  | opened fd =>
      have hreply := getD_eq_of_ne_go hrep (fun h => by cases h)
      obtain ⟨hsome, hvalid⟩ := hwait
      obtain ⟨fd', heq, hvalid⟩ := hvalid _ hreply
      cases heq
      obtain ⟨-, hlt, hown⟩ := hnext fd c.nextFut rfl
      refine ⟨?_, hvalid.keep hkeeps.path, hlt, hown,
        fun rep hrep => (by cases hrep)⟩
      have hpath := hkeeps.path r.key.id
      change Cache.pathOf _ r.key.id = c.pathOf r.key.id at hpath
      rw [hpath]
      exact hsome
  | insert fd fut fut' bytes addr _ _ hlookup hslot hthen =>
      generalize hflow' : Flow.await pc' = flow at hthen
      cases hthen with
      | await _ epc hmoves hfresh =>
          obtain rfl := Flow.await.inj hflow'
          exact evict_wait_sound hresumed.1.sound hresumed.1.queue
            (Multiset.mem_add.mpr (.inl (Multiset.mem_singleton_self _)))
            hfresh
      | finish c₂ hmoves =>
          exact absurd hflow'.symm (readAtFinish_ne_await addr c₂ pc')
  | evict addr pc _ _ _ hstep =>
      rcases hstep.acts (hrep ▸ hallow) with
        ⟨epc, heq, -⟩ | ⟨c₂, -, -, hfinish⟩
      · obtain rfl := Flow.await.inj heq
        subst hrep
        simp only [heldBy, ReadAtPc.held, Multiset.singleton_add] at *
        exact hstep.wait_sound (fun _ _ h => (ReadAtPc.evicting.inj h).2)
          (fun c pc => readAtFinish_ne_await addr c _) hwait
          hresumed.1.sound hresumed.1.queue
      · exact absurd (congrArg Prod.snd hfinish)
          (readAtFinish_ne_await addr c₂ pc')

/-- The end of `write_at`, if no iterator dangles. -/
theorem writeAtFinish_cases {π : Type} {input : List Byte} {addr : Addr}
    {flow : Flow π (Except Errc Nat)}
    (hfinish : c.writeAtFinish r input addr = (c', flow))
    (hflow : flow ≠ .crash) :
    c.slot r.key = some addr ∧ addr ∈ c.lru ∧
      c' = c.written r input addr ∧
      flow = .done (.ok ((c.heap addr).write (slice input
        (r.bufOffset c.pageSize) (r.localSize c.pageSize))
        (r.localOffset c.pageSize)).2) := by
  unfold writeAtFinish at hfinish
  split at hfinish
  · next hvalid =>
      obtain ⟨rfl, rfl⟩ := Prod.mk.inj hfinish
      exact ⟨hvalid.1, hvalid.2, rfl, rfl⟩
  · exact absurd (Prod.mk.inj hfinish).2.symm hflow

theorem writeAllowed_of_wait (allowed : Page → Prop) {pc : WriteAtPc}
    (hsound : Sound S c d (pc.held + held))
    (hwait : pc.wait.Sound S c d (pc.held + held) reply)
    (hallowed : allowed (c.emptyPage r.key)) :
    WriteAllowed (soundGrant S d allowed) c r pc (reply.getD .go) := by
  cases pc with
  | start =>
      exact fun h h' =>
        ⟨emptyPage_insertable hsound h h', hallowed⟩
  | queued fut =>
      exact fun h h' =>
        ⟨emptyPage_insertable hsound h h', hallowed⟩
  | evicting addr pc =>
      exact evictAllowed_of_wait hwait
        (Multiset.mem_add.mpr (.inl (Multiset.mem_singleton_self _)))

/-- A resumption of `write_at` keeps soundness. -/
theorem WriteStep.resumed {input : List Byte} {pc : WriteAtPc}
    {flow : Flow WriteAtPc (Except Errc Nat)}
    (hstep : WriteStep c held r input pc (reply.getD .go) c' flow)
    (hflow : flow ≠ .crash) (hsound : Sound S c d (pc.held + held))
    (hqueue : Queue c)
    (hwait : pc.wait.Sound S c d (pc.held + held) reply) :
    Resumed S c d (pc.held + held) c' (heldBy WriteAtPc.held flow + held) ∧
      ∀ pc', flow = .await pc' →
        pc'.wait.Sound S c' d (pc'.held + held) none := by
  have hallow := writeAllowed_of_wait (r := r) (fun _ => True)
    hsound hwait trivial
  have hfutures := hstep.futures_eq hflow
  have hresumed : Resumed S c d (pc.held + held) c'
      (heldBy WriteAtPc.held flow + held) := by
    rcases hstep.acts hallow hflow with
      ⟨-, hacts⟩ | ⟨c₁, addr, hacts, -, hfinish⟩
    · exact resumed_of_futures (Sound.acts hacts hsound) hqueue
        hacts.keepsData.toKeeps hfutures
    · obtain ⟨hslot, hmem, rfl, rfl⟩ := writeAtFinish_cases hfinish hflow
      rw [heldBy, Multiset.zero_add]
      exact resumed_of_futures
        ((Sound.acts hacts hsound).written r input hmem) hqueue
        (hacts.keepsData.toKeeps.trans (keeps_written r input hmem)) hfutures
  refine ⟨hresumed, ?_⟩
  rintro pc' rfl
  have hlooked : WriteLookup c held r input c' (.await pc') →
      pc'.wait.Sound S c' d (pc'.held + held) none := by
    intro hlookup
    generalize hflow' : Flow.await pc' = flow at hlookup
    cases hlookup with
    | hit addr hslot =>
        exact absurd hflow'.symm (writeAtFinish_ne_await input addr c pc')
    | miss entry hentry hslot _ _ hthen =>
        cases hthen with
        | await _ epc hmoves hfresh =>
            obtain rfl := Flow.await.inj hflow'
            exact evict_wait_sound hresumed.sound hresumed.queue
              (Multiset.mem_add.mpr (.inl (Multiset.mem_singleton_self _)))
              hfresh
        | finish c₂ hmoves =>
            exact absurd hflow'.symm (writeAtFinish_ne_await input _ c₂ pc')
  generalize hrep : reply.getD .go = rep at hstep
  cases hstep with
  | queue fut hlookup => exact rfl
  | start _ _ henter hlookup => exact hlooked hlookup
  | queued fut _ _ henter hlookup => exact hlooked hlookup
  | evict addr pc _ _ _ hstep =>
      rcases hstep.acts (hrep ▸ hallow) with
        ⟨epc, heq, -⟩ | ⟨c₂, -, -, hfinish⟩
      · obtain rfl := Flow.await.inj heq
        subst hrep
        simp only [heldBy, WriteAtPc.held, Multiset.singleton_add] at *
        exact hstep.wait_sound (fun _ _ h => (WriteAtPc.evicting.inj h).2)
          (fun c pc => writeAtFinish_ne_await input addr c _) hwait
          hresumed.sound hresumed.queue
      · exact absurd (congrArg Prod.snd hfinish)
          (writeAtFinish_ne_await input addr c₂ pc')

theorem flushAllowed_of_wait (allowed : Page → Prop) {id : Id}
    {pc : FlushPc} (hwait : (pc.wait id).Sound S c d held reply) :
    FlushAllowed (soundGrant S d allowed) c id pc (reply.getD .go) := by
  cases pc with
  | start => exact trivial
  | opening =>
      cases reply with
      | none => exact trivial
      | some rep =>
          obtain ⟨fd, rfl, hvalid⟩ := hwait.2 rep rfl
          exact hvalid
  | flushing index addr fd pc =>
      intro hslot hmem htook hsent hS
      obtain ⟨written, len, -, heq, -, -, -, hagrees⟩ :=
        flushAt_took hwait (mem_live_of_mem_lru hmem) htook
      rw [heq] at hsent
      exact (hagrees hS).mono hsent

/-- A resumption of `flush` keeps soundness. -/
theorem FlushStep.resumed {id : Id} {pc : FlushPc}
    {flow : Flow FlushPc (Except Errc Unit)}
    (hstep : FlushStep c id pc (reply.getD .go) c' flow)
    (hflow : flow ≠ .crash) (hsound : Sound S c d held) (hqueue : Queue c)
    (hwait : (pc.wait id).Sound S c d held reply) :
    Resumed S c d held c' held ∧
      ∀ pc', flow = .await pc' → (pc'.wait id).Sound S c' d held none := by
  have hallow := flushAllowed_of_wait (fun _ => True) hwait
  have hfutures := hstep.futures_eq hflow
  have hresumed : Resumed S c d held c' held := by
    rcases hstep.acts held hallow hflow with
      hacts | ⟨c₁, hacts, -, rfl⟩
    · exact resumed_of_futures (Sound.acts hacts hsound) hqueue
        hacts.keepsData.toKeeps hfutures
    · exact resumed_of_futures
        ((Sound.acts hacts hsound).modifyEntry id (fun _ => rfl)
          (fun _ => rfl) (fun _ _ _ h => .inl h) (fun _ _ _ h => .inl h))
        hqueue (hacts.keepsData.trans (keepsData_modifyEntry (f := fun entry =>
          addWriteInflight (-1) (setEntryDirty false entry)) id
          fun _ => rfl)).toKeeps hfutures
  refine ⟨hresumed, ?_⟩
  rintro pc' rfl
  generalize hrep : reply.getD .go = rep at hstep
  generalize hflow' : Flow.await pc' = flow at hstep
  cases hstep with
  | crash => exact absurd hflow' (fun h => by cases h)
  | nothing hclean => cases hflow'
  | «open» entry hentry hdirty hfd =>
      obtain rfl := Flow.await.inj hflow'
      exact ⟨by rw [pathOf_of_lookup hentry]; rfl,
        fun rep hrep => (by cases hrep)⟩
  | openFail err => cases hflow'
  | send index addr fd pc _ hslot hmem htook hmore =>
      obtain rfl := Flow.await.inj hflow'
      subst hrep
      exact send_wait_sound hwait (mem_live_of_mem_lru hmem) htook hmore
  | refused index addr fd pc _ err hrefused => cases hflow'
  | loop pc _ c₁ indices henter hruns =>
      have hsound' := hresumed.sound
      have hqueue' := hresumed.queue
      clear hresumed hfutures
      generalize (flushLoop id indices c₁).1 = cfinal at *
      generalize (flushLoop id indices c₁).2 = flow' at *
      subst hflow'
      cases hruns with
      | await _ index addr fd pc entry hmoves hslot hmem hfresh hentry hfd =>
          have hkey := (hsound'.layout.live_of_slot _ _ hslot).2
          refine flushAt_wait_sound hqueue' (hsound'.layout.lt_next addr
            (mem_live_of_mem_lru hmem)) hfresh ?_
          rw [hkey]
          refine validFd_of_writeFd hsound' ?_
          intro entry' hentry'
          obtain rfl := Option.some.inj (hentry.symm.trans hentry')
          exact hfd

end

end Cache

end Madbfs
