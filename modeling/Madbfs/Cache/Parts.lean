/-
The parts of a call that run side by side.  A `read` or `write` is split over
pages, and the tasks of one call work on different pages: a resumption of one
of them fills no slot and registers no fetch but for its own page.
-/
import Madbfs.Cache.NoLoss
import Madbfs.Cache.Ranges

namespace Madbfs

open Bytes

namespace Cache

section

variable {S : Id → Prop} {c c' : Cache} {d : Device} {id : Id}
  {held : Multiset Addr} {r : Range}

/-- The grant only allows pages of open files whose slot is empty. -/
def Grant.Inserts (G : Grant) (allowed : Page → Prop) : Prop :=
  ∀ c page, G.page c page → (c.lookup page.key.id).isSome ∧
    c.slot page.key = none ∧ allowed page

theorem soundGrant_inserts (S : Id → Prop) (d : Device)
    (allowed : Page → Prop) : (soundGrant S d allowed).Inserts allowed :=
  fun _ _ hpage => ⟨hpage.1.entry, hpage.1.slot, hpage.2⟩

/-- A page-table slot only gets a page that was allowed to be inserted. -/
theorem Act.slot_subset {G : Grant} {s t : Cache × Multiset Addr}
    {allowed : Page → Prop} (hG : G.Inserts allowed) (hact : Act G s t)
    {key : PageKey} {addr : Addr} (hslot : t.1.slot key = some addr) :
    s.1.slot key = some addr ∨ ∃ page, allowed page ∧ page.key = key := by
  have hmodify : ∀ (c : Cache) (id : Id) (f : LookupEntry → LookupEntry),
      (∀ entry, (f entry).pages = entry.pages) →
      (c.modifyEntry id f).slot key = some addr → c.slot key = some addr := by
    intro c id f hf h
    rwa [slot_modifyEntry c id f hf] at h
  cases hact with
  | move s t hmove =>
      cases hmove with
      | inflight c held id n =>
          exact .inl (hmodify c id _ (by intro entry; rfl) hslot)
      | lose c held rest addr' hlru hentry => exact .inl hslot
      | pop c held rest addr' hlru => exact .inl hslot
      | drop c held addr' hclean =>
          change (c.erasePage (c.heap addr').key).slot key = some addr at hslot
          rw [slot_erasePage] at hslot
          split_ifs at hslot with hkey
          exact .inl hslot
      | clean c held addr' hsize => exact .inl hslot
  | count c held id f hf => exact .inl (hmodify c id f hf.pages hslot)
  | readFd c held id fd hfd =>
      exact .inl (hmodify c id _ (by intro entry; rfl) hslot)
  | writeFd c held id fd hfd =>
      exact .inl (hmodify c id _ (by intro entry; rfl) hslot)
  | queue c held readQueue promises nextFut => exact .inl hslot
  | insert c held page hpage =>
      change (c.emplaceFront page).slot key = some addr at hslot
      obtain ⟨hentry, hnone, hallowed⟩ := hG c page hpage
      rw [slot_emplaceFront hentry hnone] at hslot
      split_ifs at hslot with hkey
      · exact .inr ⟨page, hallowed, hkey.symm⟩
      · exact .inl hslot
  | sent c held addr' hsent => exact .inl hslot
  | splice c held addr' hmem => exact .inl hslot
  | discard c held addr' hfault =>
      change (c.erasePage (c.heap addr').key).slot key = some addr at hslot
      rw [slot_erasePage] at hslot
      split_ifs at hslot with hkey
      exact .inl hslot
  | forget c held addr' hfault => exact .inl hslot

theorem Acts.slot_subset {G : Grant} {s t : Cache × Multiset Addr}
    {allowed : Page → Prop} (hG : G.Inserts allowed) (hacts : Acts G s t)
    {key : PageKey} {addr : Addr} (hslot : t.1.slot key = some addr) :
    s.1.slot key = some addr ∨ ∃ page, allowed page ∧ page.key = key := by
  induction hacts with
  | refl => exact .inl hslot
  | tail _ hact ih =>
      rcases hact.slot_subset hG hslot with hold | hnew
      · exact ih hold
      · exact .inr hnew

/-- The page a suspended `read_at` is about to fetch, or is fetching. -/
def Missing : ReadAtPc → Prop
  | .opening => True
  | .fetching _ _ => True
  | _ => False

theorem ReadLookup.slot_none {pc' : ReadAtPc}
    (hlookup : ReadLookup c r c' (.await pc')) : c'.slot r.key = none := by
  generalize hflow : Flow.await pc' = flow at hlookup
  cases hlookup with
  | hit addr hslot hmem => cases hflow
  | miss entry hentry hslot hfd => exact hslot
  | fetch entry fd hentry hslot hfd => exact hslot

/-- `read_at` fetches a page only if its slot is empty. -/
theorem ReadStep.slot_none {pc pc' : ReadAtPc} {reply : Reply}
    (hstep : ReadStep c held r pc reply c' (.await pc'))
    (hmissing : Missing pc') (hold : Missing pc → c.slot r.key = none) :
    c'.slot r.key = none := by
  generalize hflow : Flow.await pc' = flow at hstep
  cases hstep with
  | crash => cases hflow
  | queue fut hqueue =>
      obtain rfl := Flow.await.inj hflow
      exact hmissing.elim
  | start c₁ _ _ henter hlookup =>
      subst hflow
      exact hlookup.slot_none
  | queued fut c₁ _ _ henter hlookup =>
      subst hflow
      exact hlookup.slot_none
  | opened fd =>
      change (c.modifyEntry r.id (setReadFd (some fd))).slot r.key = none
      rw [slot_modifyEntry c r.id _ (by intro entry; rfl)]
      exact hold trivial
  | fail pc reply c₁ err hfails => cases hflow
  | insert fd fut fut' bytes addr _ _ hqueue hslot hthen =>
      cases hthen with
      | await _ epc hmoves hfresh =>
          obtain rfl := Flow.await.inj hflow
          exact hmissing.elim
      | finish c₂ hmoves =>
          exact absurd hflow.symm (readAtFinish_ne_await addr c₂ pc')
  | evict addr pc reply _ _ hstep =>
      cases hstep with
      | send addr fd rest pc htook hmore =>
          obtain rfl := Flow.await.inj hflow
          exact hmissing.elim
      | rounds pc c₁ start _ _ hbegin hthen =>
          cases hthen with
          | await _ epc hmoves hfresh =>
              obtain rfl := Flow.await.inj hflow
              exact hmissing.elim
          | finish c₂ hmoves =>
              exact absurd hflow.symm (readAtFinish_ne_await addr c₂ pc')

theorem ReadLookup.ne_queued {fut : Fut}
    (hlookup : ReadLookup c r c' (.await (.queued fut))) : False := by
  cases hlookup

theorem EvictThen.ne_await {π α : Type} {wrap : EvictPc → π}
    {finish : Cache → Cache × Flow π α} {start : Multiset Addr} {pc' : π}
    (hthen : EvictThen c start held wrap finish c' (.await pc'))
    (hfinish : ∀ c, (finish c).2 ≠ .await pc') : ∃ pc, pc' = wrap pc := by
  generalize hflow : Flow.await pc' = flow at hthen
  cases hthen with
  | await _ pc hmoves hfresh => exact ⟨pc, Flow.await.inj hflow⟩
  | finish c₂ hmoves => exact absurd hflow.symm (hfinish c₂)

theorem EvictStep.ne_await {π α : Type} {wrap : EvictPc → π}
    {finish : Cache → Cache × Flow π α} {reply : Reply} {pc : EvictPc}
    {pc' : π} (hstep : EvictStep c held wrap finish reply pc c' (.await pc'))
    (hfinish : ∀ c, (finish c).2 ≠ .await pc') : ∃ pc, pc' = wrap pc := by
  generalize hflow : Flow.await pc' = flow at hstep
  cases hstep with
  | send addr fd rest pc htook hmore => exact ⟨_, Flow.await.inj hflow⟩
  | rounds pc c₁ start _ _ hbegin hthen =>
      subst hflow
      exact hthen.ne_await hfinish

/-- `read_at` waits for a fetch only if one is registered when it starts. -/
theorem ReadStep.queued_cases {pc : ReadAtPc} {reply : Reply} {fut : Fut}
    (hstep : ReadStep c held r pc reply c' (.await (.queued fut))) :
    pc = .start ∧ c.readQueue.lookup r.key = some fut := by
  cases hstep with
  | queue _ hqueue => exact ⟨rfl, hqueue⟩
  | start c₁ _ _ henter hlookup => exact hlookup.ne_queued.elim
  | queued fut c₁ _ _ henter hlookup => exact hlookup.ne_queued.elim
  | insert fd fut fut' bytes addr _ _ hqueue hslot hthen =>
      obtain ⟨pc, h⟩ := hthen.ne_await fun c => readAtFinish_ne_await addr c _
      cases h
  | evict addr pc reply _ _ hstep =>
      obtain ⟨pc, h⟩ := hstep.ne_await fun c => readAtFinish_ne_await addr c _
      cases h

theorem WriteStep.queued_cases {input : List Byte} {pc : WriteAtPc}
    {reply : Reply} {fut : Fut}
    (hstep : WriteStep c held r input pc reply c' (.await (.queued fut))) :
    pc = .start ∧ c.readQueue.lookup r.key = some fut := by
  have hlooked : ¬ WriteLookup c held r input c' (.await (.queued fut)) := by
    intro hlookup
    generalize hflow : Flow.await (WriteAtPc.queued fut) = flow at hlookup
    cases hlookup with
    | hit addr hslot =>
        exact writeAtFinish_ne_await input addr c _ hflow.symm
    | miss entry hentry hslot _ _ hthen =>
        subst hflow
        obtain ⟨pc, h⟩ := hthen.ne_await
          fun c => writeAtFinish_ne_await input _ c _
        cases h
  cases hstep with
  | queue _ hqueue => exact ⟨rfl, hqueue⟩
  | start _ _ henter hlookup => exact absurd hlookup hlooked
  | queued fut _ _ henter hlookup => exact absurd hlookup hlooked
  | evict addr pc reply _ _ hstep =>
      obtain ⟨pc, h⟩ := hstep.ne_await
        fun c => writeAtFinish_ne_await input addr c _
      cases h

theorem EvictThen.done {π α : Type} {wrap : EvictPc → π}
    {finish : Cache → Cache × Flow π α} {start : Multiset Addr} {res : α}
    (hthen : EvictThen c start held wrap finish c' (.done res)) :
    ∃ c₁, finish c₁ = (c', .done res) := by
  generalize hflow : Flow.done res = flow at hthen
  cases hthen with
  | await _ pc hmoves hfresh => cases hflow
  | finish c₁ hmoves => exact ⟨c₁, rfl⟩

theorem EvictStep.done {π α : Type} {wrap : EvictPc → π}
    {finish : Cache → Cache × Flow π α} {reply : Reply} {pc : EvictPc}
    {res : α}
    (hstep : EvictStep c held wrap finish reply pc c' (.done res)) :
    ∃ c₁, finish c₁ = (c', .done res) := by
  cases hstep with
  | rounds pc c₁ start _ _ hbegin hthen => exact hthen.done

/-- `write_at` returns an error only from a fetch that it waited for. -/
theorem WriteStep.done_ok {input : List Byte} {pc : WriteAtPc}
    {reply : Reply} {res : Except Errc Nat}
    (hstep : WriteStep c held r input pc reply c' (.done res))
    (hpc : ∀ fut, pc ≠ .queued fut) : ∃ n, res = .ok n := by
  have hfinish : ∀ (c₁ : Cache) (addr : Addr),
      c₁.writeAtFinish r input addr = (c', Flow.done (π := WriteAtPc) res) →
      ∃ n, res = .ok n := by
    intro c₁ addr h
    obtain ⟨-, -, -, hres⟩ := writeAtFinish_cases h fun h => by cases h
    exact ⟨_, Flow.done.inj hres⟩
  have hlooked : WriteLookup c held r input c' (.done res) →
      ∃ n, res = .ok n := by
    intro hlookup
    generalize hflow : Flow.done res = flow at hlookup
    cases hlookup with
    | hit addr hslot => exact hfinish c addr (Prod.ext rfl hflow.symm)
    | miss entry hentry hslot _ _ hthen =>
        subst hflow
        obtain ⟨c₁, h⟩ := hthen.done
        exact hfinish c₁ _ h
  cases hstep with
  | start _ _ henter hlookup => exact hlooked hlookup
  | queued fut _ _ henter hlookup => exact hlooked hlookup
  | fail fut err hready herr => exact absurd rfl (hpc fut)
  | evict addr pc reply _ _ hstep =>
      obtain ⟨c₁, h⟩ := hstep.done
      exact hfinish c₁ addr h

theorem FlushStep.queued_cases {pc : FlushPc} {reply : Reply} {index : Nat}
    {addr : Addr} {fd : Fd} {fut : Fut}
    (hstep : FlushStep c id pc reply c'
      (.await (.flushing index addr fd (.queued fut)))) :
    c'.readQueue.lookup (c'.heap addr).key = some fut := by
  generalize hflow : Flow.await (FlushPc.flushing index addr fd
    (.queued fut)) = flow at hstep
  cases hstep with
  | crash => cases hflow
  | nothing hclean => cases hflow
  | «open» entry hentry hdirty hfd => cases hflow
  | openFail err => cases hflow
  | send index addr fd pc reply hslot hmem htook hmore => cases hflow
  | refused index addr fd pc reply err hrefused => cases hflow
  | loop pc reply c₁ indices henter hruns =>
      generalize (flushLoop id indices c₁).1 = cfinal at *
      generalize (flushLoop id indices c₁).2 = flow' at *
      subst hflow
      cases hruns with
      | await _ index addr fd pc entry hmoves hslot hmem hfresh hentry hfd =>
          exact hfresh

end

end Cache

namespace Task

/-- The page a running `read_at` or `write_at` works on. -/
def key : Task → Option PageKey
  | .readAt r _ => some r.key
  | .writeAt r _ _ => some r.key
  | _ => none

/-- Two tasks that may run at the same time when calls are made one at a time:
the parts of one call for different pages. -/
def Apart : Task → Task → Prop
  | .readAt r _, .readAt r' _ => r.key ≠ r'.key
  | .writeAt r _ _, .writeAt r' _ _ => r.key ≠ r'.key
  | left, right => left.isDone = true ∨ right.isDone = true

/-- The task is fetching this page. -/
def Fetches (key : PageKey) : Task → Prop
  | .readAt r (.fetching _ _) => r.key = key
  | _ => False

/-- The task does not wait for the fetch of another task. -/
def Calm : Task → Prop
  | .readAt _ (.queued _) => False
  | .writeAt _ _ (.queued _) => False
  | task => ∀ page fut, task.wait ≠ .queued page fut

/-- The part of the buffer lies inside its page. -/
def Fits (pageSize : Nat) : Task → Prop
  | .readAt r _ => r.Fits pageSize
  | .writeAt r input _ => r.Fits pageSize ∧ input.length = r.len
  | _ => True

section

variable {c c' : Cache} {held : Multiset Addr} {reply : Reply}
  {task task' left right : Task}

theorem Apart.symm (hapart : left.Apart right) : right.Apart left := by
  unfold Apart at hapart ⊢
  cases left <;> cases right <;> exact hapart.symm

theorem Apart.key_ne (hapart : left.Apart right) {key : PageKey}
    (hleft : left.key = some key) : right.key ≠ some key := by
  intro hright
  cases left with
  | readAt r pc =>
      obtain rfl := Option.some.inj hleft
      cases right with
      | readAt r' pc' => exact hapart (Option.some.inj hright).symm
      | writeAt r' input' pc' => rcases hapart with h | h <;> cases h
      | _ => cases hright
  | writeAt r input pc =>
      obtain rfl := Option.some.inj hleft
      cases right with
      | readAt r' pc' => rcases hapart with h | h <;> cases h
      | writeAt r' input' pc' => exact hapart (Option.some.inj hright).symm
      | _ => cases hright
  | _ => cases hleft

theorem Apart.done_of_flush {id : Id} {pc : FlushPc}
    (hapart : left.Apart (.flush id pc)) : left.isDone = true := by
  cases left <;> rcases hapart with h | h <;> first | exact h | cases h

theorem apart_of_isDone (hdone : left.isDone = true) (right : Task) :
    left.Apart right := by
  cases left <;> first | exact .inl rfl | cases hdone

/-- One of the tasks moves on and stays apart from the others. -/
theorem apart_set {tasks : List Task} {i : Nat} {task task' : Task}
    (hapart : ∀ (j k : Nat) (left right : Task), j ≠ k →
      tasks[j]? = some left → tasks[k]? = some right → left.Apart right)
    (htask : tasks[i]? = some task)
    (hnext : ∀ (j : Nat) right, j ≠ i → tasks[j]? = some right →
      task.Apart right → task'.Apart right) :
    ∀ (j k : Nat) (left right : Task), j ≠ k →
      (tasks.set i task')[j]? = some left →
      (tasks.set i task')[k]? = some right → left.Apart right := by
  have hlt : i < tasks.length := (List.getElem?_eq_some_iff.mp htask).1
  intro j k left right hne hleft hright
  by_cases hj : j = i
  · subst hj
    rw [List.getElem?_set_self hlt] at hleft
    obtain rfl := Option.some.inj hleft
    rw [List.getElem?_set_ne hne] at hright
    exact hnext k right (Ne.symm hne) hright
      (hapart j k task right hne htask hright)
  · rw [List.getElem?_set_ne (Ne.symm hj)] at hleft
    by_cases hk : k = i
    · subst hk
      rw [List.getElem?_set_self hlt] at hright
      obtain rfl := Option.some.inj hright
      exact (hnext j left hj hleft
        (hapart k j task left (Ne.symm hj) htask hleft)).symm
    · rw [List.getElem?_set_ne (Ne.symm hk)] at hright
      exact hapart j k left right hne hleft hright

theorem Resumes.not_done (hresumes : Resumes c held reply task c' task') :
    task.isDone = false := by
  cases hresumes <;> rfl

theorem Resumes.apart (hresumes : Resumes c held reply task c' task')
    (hapart : task.Apart right) : task'.Apart right := by
  cases hresumes with
  | readAwait r pc pc' _ hstep => cases right <;> exact hapart
  | readDone r pc _ res hstep => exact apart_of_isDone rfl right
  | writeAwait r input pc pc' _ hstep => cases right <;> exact hapart
  | writeDone r input pc _ res hstep => exact apart_of_isDone rfl right
  | flushAwait id pc pc' _ hstep => cases right <;> exact hapart
  | flushDone id pc _ res hstep => exact apart_of_isDone rfl right

theorem Resumes.fits (hresumes : Resumes c held reply task c' task')
    {pageSize : Nat} (hfits : task.Fits pageSize) : task'.Fits pageSize := by
  cases hresumes with
  | readAwait r pc pc' _ hstep => exact hfits
  | readDone r pc _ res hstep => trivial
  | writeAwait r input pc pc' _ hstep => exact hfits
  | writeDone r input pc _ res hstep => trivial
  | flushAwait id pc pc' _ hstep => trivial
  | flushDone id pc _ res hstep => trivial

theorem Fetches.key_eq {key : PageKey} (hfetches : task.Fetches key) :
    task.key = some key := by
  unfold Fetches at hfetches
  split at hfetches
  · exact congrArg some hfetches
  · exact hfetches.elim

theorem Fetches.cases {key : PageKey} (hfetches : task.Fetches key) :
    ∃ r fd fut, task = .readAt r (.fetching fd fut) ∧ r.key = key := by
  unfold Fetches at hfetches
  split at hfetches
  · next r fd fut => exact ⟨r, fd, fut, rfl, hfetches⟩
  · exact hfetches.elim

/-- A resumed task does not wait for a fetch, if only its own page may be
registered, the page its eviction holds is not, and none is for a `flush`. -/
theorem Resumes.calm (hresumes : Resumes c held reply task c' task')
    (hown : ∀ key, task.key = some key →
      (c.readQueue.lookup key).isSome → task.Fetches key)
    (hevict : ∀ page fut, page ∈ task'.held →
      task'.wait ≠ .queued page fut)
    (hnone : ∀ id pc key, task' = .flush id pc →
      c'.readQueue.lookup key = none) : task'.Calm := by
  have hpage : ∀ (pc : EvictPc) page fut, pc.wait = .queued page fut →
      page = pc.page := by
    intro pc page fut hwait
    cases pc with
    | opening page' rest => cases hwait
    | flushing page' fd rest fpc =>
        cases fpc with
        | queued fut' => exact (Wait.queued.inj hwait).1.symm
        | writing written len => cases hwait
  cases hresumes with
  | readAwait r pc pc' _ hstep =>
      cases pc' with
      | queued fut =>
          obtain ⟨rfl, hqueue⟩ := hstep.queued_cases
          exact hown r.key rfl (by rw [hqueue]; rfl)
      | evicting addr epc =>
          intro page fut hwait
          refine hevict page fut ?_ hwait
          exact Multiset.mem_singleton.mpr (hpage epc page fut hwait)
      | _ => exact fun page fut h => by cases h
  | readDone r pc _ res hstep => exact fun page fut h => by cases h
  | writeAwait r input pc pc' _ hstep =>
      cases pc' with
      | queued fut =>
          obtain ⟨rfl, hqueue⟩ := hstep.queued_cases
          exact hown r.key rfl (by rw [hqueue]; rfl)
      | evicting addr epc =>
          intro page fut hwait
          refine hevict page fut ?_ hwait
          exact Multiset.mem_singleton.mpr (hpage epc page fut hwait)
      | _ => exact fun page fut h => by cases h
  | writeDone r input pc _ res hstep => exact fun page fut h => by cases h
  | flushAwait id pc pc' _ hstep =>
      intro page fut hwait
      cases pc' with
      | flushing index addr fd fpc =>
          cases fpc with
          | queued fut' =>
              have hqueue := hstep.queued_cases
              rw [hnone id _ _ rfl] at hqueue
              cases hqueue
          | writing written len => cases hwait
      | _ => cases hwait
  | flushDone id pc _ res hstep => exact fun page fut h => by cases h

/-- A resumption starts or ends the fetch of its own page at most. -/
theorem Resumes.readQueue (hresumes : Resumes c held reply task c' task')
    (key : PageKey) :
    (c'.readQueue.lookup key).isSome ↔ task'.Fetches key ∨
      ((c.readQueue.lookup key).isSome ∧ ¬ task.Fetches key) := by
  have hread : ∀ r pc flow, Cache.ReadStep c held r pc reply c' flow →
      flow ≠ .crash → task = .readAt r pc →
      (task'.Fetches key ↔ r.key = key ∧ ∃ fd fut,
        flow = .await (.fetching fd fut)) →
      ((c'.readQueue.lookup key).isSome ↔ task'.Fetches key ∨
        ((c.readQueue.lookup key).isSome ∧ ¬ task.Fetches key)) := by
    rintro r pc flow hstep hflow rfl hnew
    have hfutures := hstep.futures hflow
    generalize heq : c'.futures = futures at hfutures
    have hqueue : c'.readQueue = futures.readQueue :=
      congrArg Cache.Futures.readQueue heq
    rw [hqueue, hnew]
    cases hfutures with
    | same hpc hne =>
        have hnot : ¬ (Task.readAt r pc).Fetches key := by
          cases pc with
          | fetching fd fut => exact absurd rfl (hpc fd fut)
          | _ => exact id
        simp only [hne, hnot, exists_const, and_false, false_or,
          not_false_eq_true, and_true]
        rfl
    | starts fd hfetch =>
        change ((c.enqueue r.key).1.readQueue.lookup key).isSome ↔ _
        rw [Cache.lookup_enqueue]
        by_cases hkey : r.key = key
        · subst hkey
          have hsome : (if r.key = r.key ∧
              c.readQueue.lookup r.key = none then some c.nextFut
              else c.readQueue.lookup r.key).isSome = true := by
            cases hlookup : c.readQueue.lookup r.key <;> simp
          exact ⟨fun _ => .inl ⟨rfl, fd, _, hfetch⟩, fun _ => hsome⟩
        · have hnot : ¬ (Task.readAt r pc).Fetches key := by
            intro h
            exact hkey (Option.some.inj h.key_eq)
          rw [if_neg fun h => hkey h.1.symm]
          simp only [hkey, hnot, false_and, false_or, not_false_eq_true,
            and_true]
    | inserts fd fut fut' bytes hpc hreply hlookup hne =>
        subst hpc
        change (((c.setPromise fut ⟨0⟩).dequeue r.key).readQueue.lookup
          key).isSome ↔ _
        rw [Cache.lookup_dequeue]
        split_ifs with hkey
        · simp [hkey, hne, Fetches]
        · simp only [hne, exists_const, and_false, false_or]
          exact ⟨fun h => ⟨h, fun h' => hkey h'.symm⟩, fun h => h.1⟩
    | fails fd fut err hpc hreply hne =>
        subst hpc
        change (((c.setPromise fut err).dequeue r.key).readQueue.lookup
          key).isSome ↔ _
        rw [Cache.lookup_dequeue]
        split_ifs with hkey
        · simp [hkey, hne, Fetches]
        · simp only [hne, exists_const, and_false, false_or]
          exact ⟨fun h => ⟨h, fun h' => hkey h'.symm⟩, fun h => h.1⟩
    | canceled fd fut hpc hnone hne =>
        subst hpc
        change (c.readQueue.lookup key).isSome ↔ _
        by_cases hkey : r.key = key
        · subst hkey
          simp [hnone, hne]
        · simp only [hne, exists_const, and_false, false_or]
          exact ⟨fun h => ⟨h, fun h' => hkey h'⟩, fun h => h.1⟩
  have hsame : c'.futures = c.futures → task.key = none ∨
      (∃ r input pc, task = .writeAt r input pc) → ¬ task'.Fetches key →
      ((c'.readQueue.lookup key).isSome ↔ task'.Fetches key ∨
        ((c.readQueue.lookup key).isSome ∧ ¬ task.Fetches key)) := by
    intro heq htask hnew
    have hqueue : c'.readQueue = c.readQueue :=
      congrArg Cache.Futures.readQueue heq
    have hold : ¬ task.Fetches key := by
      intro h
      rcases htask with hkey | ⟨r, input, pc, rfl⟩
      · rw [h.key_eq] at hkey
        cases hkey
      · exact h
    rw [hqueue]
    simp only [hnew, hold, false_or, not_false_eq_true, and_true]
  cases hresumes with
  | readAwait r pc pc' _ hstep =>
      refine hread r pc _ hstep (fun h => by cases h) rfl ?_
      cases pc' with
      | fetching fd fut =>
          exact ⟨fun h => ⟨h, fd, fut, rfl⟩, fun h => h.1⟩
      | _ =>
          refine ⟨False.elim, ?_⟩
          rintro ⟨-, fd, fut, h⟩
          cases h
  | readDone r pc _ res hstep =>
      refine hread r pc _ hstep (fun h => by cases h) rfl ⟨False.elim, ?_⟩
      rintro ⟨-, fd, fut, h⟩
      cases h
  | writeAwait r input pc pc' _ hstep =>
      exact hsame (hstep.futures_eq fun h => by cases h)
        (.inr ⟨r, input, pc, rfl⟩) id
  | writeDone r input pc _ res hstep =>
      exact hsame (hstep.futures_eq fun h => by cases h)
        (.inr ⟨r, input, pc, rfl⟩) id
  | flushAwait id pc pc' _ hstep =>
      exact hsame (hstep.futures_eq fun h => by cases h) (.inl rfl)
        fun h => h
  | flushDone id pc _ res hstep =>
      exact hsame (hstep.futures_eq fun h => by cases h) (.inl rfl)
        fun h => h

/-- A resumption fills no slot but that of the page the task works on. -/
theorem Effect.slot_subset {S : Id → Prop} {d : Device}
    {others : Multiset Addr} {reply : Option Reply}
    (heffect : Effect S d c others (task.Inserts c reply) task c' task')
    {key : PageKey} {addr : Addr} (hslot : c'.slot key = some addr) :
    c.slot key = some addr ∨ task.key = some key := by
  have hacts : ∀ {before after : Multiset Addr} {c₁ : Cache},
      Cache.Acts (Cache.soundGrant S d (task.Inserts c reply)) (c, before)
        (c₁, after) → c₁.slot key = some addr →
      c.slot key = some addr ∨ task.key = some key := by
    intro before after c₁ hacts hslot
    rcases hacts.slot_subset (Cache.soundGrant_inserts S d _) hslot with
      hold | ⟨page, hpage, rfl⟩
    · exact .inl hold
    · rcases hpage with ⟨r, fd, fut, bytes, rfl, -, rfl⟩ |
        ⟨r, input, pc, rfl, rfl⟩ <;> exact .inr rfl
  cases heffect with
  | acts task task' c' h hwrite => exact hacts h hslot
  | wrote r input pc c₁ addr' n h hslot' hmem hsize => exact hacts h hslot
  | cleared id pc c₁ h =>
      refine hacts h ?_
      rwa [Cache.slot_modifyEntry c₁ id _ (by intro entry; rfl)] at hslot

end

end Task

/-- The calls of `read` and `write` on open files with a buffer that is not
empty and ends below the largest file offset, and the calls of `flush`. -/
def Call.Proper (c : Cache) : Call → Prop
  | .read id len offset =>
      (c.lookup id).isSome ∧ 0 < len ∧ offset + len < 2 ^ 63
  | .write id input offset =>
      (c.lookup id).isSome ∧ 0 < input.length ∧
        offset + input.length < 2 ^ 63
  | .flush _ => True
  | _ => False

/-- A task at its start. -/
def Task.Starts (pageSize : Nat) : Task → Prop
  | .readAt r .start => r.Fits pageSize
  | .writeAt r input .start => r.Fits pageSize ∧ input.length = r.len
  | .flush _ .start => True
  | _ => False

namespace Call

section

variable {c : Cache} {call : Call}

theorem Proper.plain (hcall : call.Proper c) : call.Plain := by
  cases call <;> trivial

theorem Proper.starts (hcall : call.Proper c) (hpos : 0 < c.pageSize)
    (hlt : c.pageSize < 2 ^ 32) :
    ∀ task ∈ (call.start c).2, task.Starts c.pageSize := by
  cases call with
  | read id len offset =>
      obtain ⟨hopen, hlen, hmax⟩ := hcall
      obtain ⟨entry, hentry⟩ := Option.isSome_iff_exists.mp hopen
      simp only [Call.start, hentry]
      intro task hmem
      obtain ⟨r, hr, rfl⟩ := List.mem_map.mp hmem
      exact ranges_fits hpos (by omega) hlen hmax hr
  | write id input offset =>
      obtain ⟨hopen, hlen, hmax⟩ := hcall
      obtain ⟨entry, hentry⟩ := Option.isSome_iff_exists.mp hopen
      simp only [Call.start, hentry]
      intro task hmem
      obtain ⟨r, hr, rfl⟩ := List.mem_map.mp hmem
      refine ⟨ranges_fits hpos (by omega) hlen hmax hr, ?_⟩
      rw [(mem_ranges.mp hr).2]
  | flush id =>
      intro task hmem
      obtain rfl := List.mem_singleton.mp hmem
      trivial
  | _ => exact hcall.elim

theorem ranges_key_ne {pageSize : Nat} {id : Id} {len offset i j : Nat}
    {r r' : Range} (hne : i ≠ j)
    (hr : (ranges pageSize id len offset)[i]? = some r)
    (hr' : (ranges pageSize id len offset)[j]? = some r') :
    r.key ≠ r'.key := by
  intro hkey
  have hnodup := ranges_nodup pageSize id len offset
  obtain ⟨hi, hri⟩ := List.getElem?_eq_some_iff.mp hr
  refine hne ((List.getElem?_inj (by simpa using hi) hnodup).mp ?_)
  rw [List.getElem?_map, List.getElem?_map, hr, hr']
  exact congrArg some hkey

theorem Proper.apart (hcall : call.Proper c) {i j : Nat} (hne : i ≠ j)
    {left right : Task} (hleft : (call.start c).2[i]? = some left)
    (hright : (call.start c).2[j]? = some right) : left.Apart right := by
  cases call with
  | read id len offset =>
      obtain ⟨hopen, hlen, hmax⟩ := hcall
      obtain ⟨entry, hentry⟩ := Option.isSome_iff_exists.mp hopen
      simp only [Call.start, hentry, List.getElem?_map] at hleft hright
      obtain ⟨r, hr, rfl⟩ := Option.map_eq_some_iff.mp hleft
      obtain ⟨r', hr', rfl⟩ := Option.map_eq_some_iff.mp hright
      exact ranges_key_ne hne hr hr'
  | write id input offset =>
      obtain ⟨hopen, hlen, hmax⟩ := hcall
      obtain ⟨entry, hentry⟩ := Option.isSome_iff_exists.mp hopen
      simp only [Call.start, hentry, List.getElem?_map] at hleft hright
      obtain ⟨r, hr, rfl⟩ := Option.map_eq_some_iff.mp hleft
      obtain ⟨r', hr', rfl⟩ := Option.map_eq_some_iff.mp hright
      exact ranges_key_ne hne hr hr'
  | flush id =>
      obtain ⟨hi, -⟩ := List.getElem?_eq_some_iff.mp hleft
      obtain ⟨hj, -⟩ := List.getElem?_eq_some_iff.mp hright
      simp only [Call.start, List.length_singleton] at hi hj
      omega
  | _ => exact hcall.elim

/-- A call leaves everything but the flag of an entry. -/
theorem Proper.same (hcall : call.Proper c) :
    (∀ key, (call.start c).1.slot key = c.slot key) ∧
      (call.start c).1.readQueue = c.readQueue ∧
      (call.start c).1.pageSize = c.pageSize ∧
      (call.start c).1.heap = c.heap ∧
      ∀ id, (call.start c).1.pathOf id = c.pathOf id := by
  rcases (start_cases hcall.plain c).1 with heq | ⟨id, heq⟩
  · rw [heq]
    exact ⟨fun _ => rfl, rfl, rfl, rfl, fun _ => rfl⟩
  · rw [heq]
    exact ⟨c.slot_modifyEntry id _ fun _ => rfl, by simp, by simp, by simp,
      c.pathOf_modifyEntry id fun _ => rfl⟩

end

end Call

end Madbfs
