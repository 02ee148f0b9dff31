/-
The list of pages and the page tables are in bijection whenever no operation
is in progress.  This holds over any calls made one at a time, whatever the
device answers, as long as an eviction can open the file of a page that it has
to flush, and `truncate` grows over no page that is already cached.
-/
import Madbfs.Cache.Whole

namespace Madbfs

open Bytes

namespace Task

/-- How many pages the eviction of a suspended task still has to take. -/
def rest : Task → Nat
  | .readAt _ pc => pc.rest
  | .writeAt _ _ pc => pc.rest
  | .truncate _ _ _ pc => pc.rest
  | _ => 0

def restAll : List Task → Nat
  | [] => 0
  | task :: tasks => task.rest + restAll tasks

/-- The eviction of the task is not told that it cannot open the file of its
page. -/
def Opens (reply : Reply) : Task → Prop
  | .readAt _ (.evicting _ pc) => Cache.EvictOpens pc reply
  | .writeAt _ _ (.evicting _ pc) => Cache.EvictOpens pc reply
  | .truncate _ _ _ (.evicting _ pc) => Cache.EvictOpens pc reply
  | _ => True

theorem restAll_set {tasks : List Task} {i : Nat} {task : Task}
    (htask : tasks[i]? = some task) :
    ∃ others, restAll tasks = task.rest + others ∧
      ∀ task', restAll (tasks.set i task') = task'.rest + others := by
  induction tasks generalizing i with
  | nil => cases htask
  | cons head tail ih =>
      cases i with
      | zero =>
          obtain rfl := Option.some.inj htask
          exact ⟨restAll tail, rfl, fun task' => rfl⟩
      | succ i =>
          obtain ⟨others, heq, hset⟩ := ih (i := i) htask
          refine ⟨head.rest + others, ?_, ?_⟩
          · rw [restAll, heq]
            omega
          · intro task'
            rw [List.set_cons_succ, restAll, hset]
            omega

theorem restAll_append (left right : List Task) :
    restAll (left ++ right) = restAll left + restAll right := by
  induction left with
  | nil => exact (Nat.zero_add _).symm
  | cons task tail ih =>
      simp only [List.cons_append, restAll, ih, Nat.add_assoc]

theorem restAll_eq_zero {tasks : List Task}
    (hnone : ∀ task ∈ tasks, task.rest = 0) : restAll tasks = 0 := by
  induction tasks with
  | nil => rfl
  | cons task tail ih =>
      rw [restAll, hnone task List.mem_cons_self,
        ih fun task hmem => hnone task (List.mem_cons_of_mem _ hmem)]

theorem held_of_isDone {task : Task} (hdone : task.isDone = true) :
    task.held = 0 := by
  cases task <;> first | rfl | cases hdone

theorem rest_of_isDone {task : Task} (hdone : task.isDone = true) :
    task.rest = 0 := by
  cases task <;> first | rfl | cases hdone

theorem key_of_isDone {task : Task} (hdone : task.isDone = true) :
    task.key = none := by
  cases task <;> first | rfl | cases hdone

theorem held_truncate (id : Id) (oldSize newSize : Nat) (pc : TruncatePc) :
    (Task.truncate id oldSize newSize pc).held = pc.held := by
  cases pc <;> rfl

section

variable {c c' : Cache} {others : Multiset Addr} {reply : Reply}
  {task task' : Task}

/-- What a resumption of a part of `read` or `write`, or of `flush`, does to
the layout. -/
structure Relaid (c : Cache) (others : Multiset Addr) (task : Task)
    (c' : Cache) (task' : Task) : Prop where
  layout : c'.Layout (task'.held + others)
  maxPages : c'.maxPages = c.maxPages
  slot : ∀ key addr, c'.slot key = some addr →
    c.slot key = some addr ∨ task.key = some key
  lookup : ∀ id, (c.lookup id).isSome → (c'.lookup id).isSome

theorem lookup_isSome_iff (c : Cache) (id : Id) :
    (c.lookup id).isSome ↔ (c.pathOf id).isSome := by
  unfold Cache.pathOf
  rw [Option.isSome_map]

theorem relaid_of_acts {held : Multiset Addr} {c₁ : Cache}
    (hacts : Cache.Acts (Cache.layoutGrant fun page =>
      task.key = some page.key) (c, held) (c₁, task'.held + others))
    (hlayout : c.Layout held) : Relaid c others task c₁ task' where
  layout := Cache.Layout.acts hacts hlayout
  maxPages := hacts.maxPages_eq
  slot := by
    intro key addr hslot
    rcases hacts.slot_subset (fun _ _ h => h) hslot with
      hold | ⟨page, hkey, rfl⟩
    · exact .inl hold
    · exact .inr hkey
  lookup := by
    intro id hsome
    rw [lookup_isSome_iff] at hsome ⊢
    rw [hacts.keepsData.path id]
    exact hsome

theorem Relaid.modifyEntry {id : Id} {f : LookupEntry → LookupEntry}
    (hrelaid : Relaid c others task c' task')
    (hpages : ∀ entry, (f entry).pages = entry.pages) :
    Relaid c others task (c'.modifyEntry id f) task' where
  layout := hrelaid.layout.modifyEntry id hpages
  maxPages := by
    rw [Cache.modifyEntry_maxPages]
    exact hrelaid.maxPages
  slot := by
    intro key addr hslot
    rw [Cache.slot_modifyEntry c' id f hpages] at hslot
    exact hrelaid.slot key addr hslot
  lookup := by
    intro id' hsome
    have h := hrelaid.lookup id' hsome
    rw [Cache.lookup_modifyEntry]
    split_ifs with hid
    · rw [Option.isSome_map, ← hid]
      exact h
    · exact h

theorem Relaid.written {r : Range} {input : List Byte} {addr : Addr}
    (hrelaid : Relaid c others task c' task') (hmem : addr ∈ c'.lru) :
    Relaid c others task (c'.written r input addr) task' where
  layout := (hrelaid.layout.splice hmem).modifyPage (Page.write_key _ _ _)
  maxPages := hrelaid.maxPages
  slot := hrelaid.slot
  lookup := hrelaid.lookup

/-- A part of `read` or `write`, or a `flush`, keeps the layout. -/
theorem Resumes.relaid (hresumes : Resumes c others reply task c' task')
    (hopens : task.Opens reply)
    (hmissing : ∀ r pc, task = .readAt r pc → Cache.Missing pc →
      c.slot r.key = none)
    (hopen : ∀ key, task.key = some key → (c.lookup key.id).isSome)
    (hlayout : c.Layout (task.held + others)) :
    Relaid c others task c' task' := by
  have hread : ∀ r pc, task = .readAt r pc → Cache.ReadAllowed
      (Cache.layoutGrant fun page => task.key = some page.key) c r pc
        reply := by
    rintro r pc rfl
    cases pc with
    | fetching fd fut =>
        unfold Cache.ReadAllowed
        split
        · trivial
        · next heq =>
            obtain ⟨rfl, rfl⟩ := ReadAtPc.fetching.inj heq
            exact fun _ => ⟨hopen r.key rfl, hmissing r _ rfl trivial, rfl⟩
        · next heq => cases heq
        · trivial
    | evicting addr epc => exact Cache.evictAllowed_of_opens hopens
    | _ => unfold Cache.ReadAllowed; split <;> trivial
  have hwrite : ∀ r input pc, task = .writeAt r input pc →
      Cache.WriteAllowed (Cache.layoutGrant fun page =>
        task.key = some page.key) c r pc reply := by
    rintro r input pc rfl
    cases pc with
    | evicting addr epc => exact Cache.evictAllowed_of_opens hopens
    | start => exact fun hsome hslot => ⟨hsome, hslot, rfl⟩
    | queued fut => exact fun hsome hslot => ⟨hsome, hslot, rfl⟩
  have hflush : ∀ id pc, Cache.FlushAllowed (Cache.layoutGrant fun page =>
      task.key = some page.key) c id pc reply := by
    intro id pc
    unfold Cache.FlushAllowed
    split
    · trivial
    · exact fun _ _ _ _ => trivial
    · trivial
  cases hresumes with
  | readAwait r pc pc' _ hstep =>
      exact relaid_of_acts (hstep.acts (hread r pc rfl) fun h => by cases h)
        hlayout
  | readDone r pc _ res hstep =>
      exact relaid_of_acts (hstep.acts (hread r pc rfl) fun h => by cases h)
        hlayout
  | writeAwait r input pc pc' _ hstep =>
      rcases hstep.acts (hwrite r input pc rfl) (fun h => by cases h) with
        ⟨-, hacts⟩ | ⟨c₁, addr, -, -, hfinish⟩
      · exact relaid_of_acts hacts hlayout
      · exact absurd (congrArg Prod.snd hfinish)
          (Cache.writeAtFinish_ne_await input addr c₁ pc')
  | writeDone r input pc _ res hstep =>
      rcases hstep.acts (hwrite r input pc rfl) (fun h => by cases h) with
        ⟨-, hacts⟩ | ⟨c₁, addr, hacts, -, hfinish⟩
      · exact relaid_of_acts hacts hlayout
      · obtain ⟨hslot, hmem, rfl, -⟩ :=
          Cache.writeAtFinish_cases hfinish fun h => by cases h
        refine Relaid.written (relaid_of_acts ?_ hlayout) hmem
        rw [show (Task.didWrite r res).held = 0 from rfl, Multiset.zero_add]
        exact hacts
  | flushAwait id pc pc' _ hstep =>
      rcases hstep.acts others (hflush id pc) (fun h => by cases h)
        with hacts | ⟨c₁, -, hflow, -⟩
      · rw [show (Task.flush id pc).held = 0 from rfl,
          Multiset.zero_add] at hlayout
        refine relaid_of_acts ?_ hlayout
        rw [show (Task.flush id pc').held = 0 from rfl, Multiset.zero_add]
        exact hacts
      · cases hflow
  | flushDone id pc _ res hstep =>
      rw [show (Task.flush id pc).held = 0 from rfl,
        Multiset.zero_add] at hlayout
      rcases hstep.acts others (hflush id pc) (fun h => by cases h)
        with hacts | ⟨c₁, hacts, -, rfl⟩
      · refine relaid_of_acts ?_ hlayout
        rw [show (Task.finished res).held = 0 from rfl, Multiset.zero_add]
        exact hacts
      · refine Relaid.modifyEntry (relaid_of_acts
          ?_ hlayout) fun _ => rfl
        rw [show (Task.finished res).held = 0 from rfl, Multiset.zero_add]
        exact hacts

/-- A part of `read` or `write`, or a `flush`, leaves the list short enough,
but for the pages it still has to take. -/
theorem resume_shorter (hplain : task.Plain)
    (hresume : task.resume c reply = some (c', task'))
    (hcrash : task' ≠ .crashed) :
    c'.lru.length ≤ max c.maxPages (c.lru.length - task.rest) +
      task'.rest := by
  cases task with
  | readAt r pc =>
      obtain ⟨⟨c₁, flow⟩, hx, heq⟩ := Option.map_eq_some_iff.mp hresume
      have hlength := Cache.readAtResume_shorter hx
      cases flow with
      | await pc' =>
          obtain ⟨rfl, rfl⟩ := Prod.mk.inj heq
          exact hlength
      | done value =>
          obtain ⟨rfl, rfl⟩ := Prod.mk.inj heq
          exact hlength
      | crash => exact absurd (Prod.mk.inj heq).2.symm hcrash
  | writeAt r input pc =>
      obtain ⟨⟨c₁, flow⟩, hx, heq⟩ := Option.map_eq_some_iff.mp hresume
      have hlength := Cache.writeAtResume_shorter hx
      cases flow with
      | await pc' =>
          obtain ⟨rfl, rfl⟩ := Prod.mk.inj heq
          exact hlength
      | done value =>
          obtain ⟨rfl, rfl⟩ := Prod.mk.inj heq
          exact hlength
      | crash => exact absurd (Prod.mk.inj heq).2.symm hcrash
  | flush id pc =>
      obtain ⟨⟨c₁, flow⟩, hx, heq⟩ := Option.map_eq_some_iff.mp hresume
      have hstep := Cache.flushResume_step hx
      cases flow with
      | await pc' =>
          obtain ⟨rfl, rfl⟩ := Prod.mk.inj heq
          rw [hstep.lru_eq fun h => by cases h]
          simp only [rest]
          omega
      | done value =>
          obtain ⟨rfl, rfl⟩ := Prod.mk.inj heq
          rw [hstep.lru_eq fun h => by cases h]
          simp only [rest]
          omega
      | crash => exact absurd (Prod.mk.inj heq).2.symm hcrash
  | truncate id oldSize newSize pc => exact hplain.elim
  | invalidateOne id shouldFlush pc => exact hplain.elim
  | shutdown after pc => exact hplain.elim
  | cleanStaleFds pc => exact hplain.elim
  | didRead r res => cases hresume
  | didWrite r res => cases hresume
  | finished res => cases hresume
  | crashed => exact hplain.elim

/-- The tasks of the other operations, which run alone. -/
def Lone : Task → Prop
  | .truncate _ _ _ _ => True
  | .invalidateOne _ _ _ => True
  | .shutdown _ _ => True
  | .cleanStaleFds _ => True
  | _ => False

/-- A running `truncate` grows over no cached page. -/
def Ungrown (c : Cache) : Task → Prop
  | .truncate id oldSize newSize _ => c.Ungrown id oldSize newSize
  | _ => True

theorem plain_of_isDone (hdone : task.isDone = true) : task.Plain := by
  cases task <;> first | exact trivial | cases hdone

theorem ungrown_of_isDone (hdone : task.isDone = true) : task.Ungrown c := by
  cases task <;> first | exact trivial | cases hdone

theorem ofFlow_tidy {π α : Type} {await : π → Task} {done : α → Task}
    {x : Cache × Flow π α}
    (hx : Flow.Ensures x
      (fun c' pc => c'.Tidy (await pc).held (await pc).rest ∧
        (await pc).Lone ∧ (await pc).Ungrown c')
      (fun c' _ => c'.Tidy 0 0)) (hdone : ∀ value, (done value).isDone = true)
    (heq : ofFlow await done x = (c', task')) (hcrash : task' ≠ .crashed) :
    c'.Tidy task'.held task'.rest ∧
      (task'.isDone = true ∨ task'.Lone ∧ task'.Ungrown c') := by
  obtain ⟨c₁, pc | value | _⟩ := x
  · obtain ⟨rfl, rfl⟩ := Prod.mk.inj heq
    exact ⟨hx.1, .inr hx.2⟩
  · obtain ⟨rfl, rfl⟩ := Prod.mk.inj heq
    rw [held_of_isDone (hdone value), rest_of_isDone (hdone value)]
    exact ⟨hx, .inl (hdone value)⟩
  · exact absurd (Prod.mk.inj heq).2.symm hcrash

/-- An operation that runs alone keeps the list and the tables tidy. -/
theorem resume_lone (hlone : task.Lone) (hungrown : task.Ungrown c)
    (hopens : task.Opens reply)
    (hresume : task.resume c reply = some (c', task'))
    (hcrash : task' ≠ .crashed) (htidy : c.Tidy task.held task.rest) :
    c'.Tidy task'.held task'.rest ∧
      (task'.isDone = true ∨ task'.Lone ∧ task'.Ungrown c') := by
  cases task with
  | truncate id oldSize newSize pc =>
      obtain ⟨x, hx, heq⟩ := Option.map_eq_some_iff.mp hresume
      rw [held_truncate] at htidy
      refine ofFlow_tidy ?_ (fun _ => rfl) heq hcrash
      refine (Cache.truncateResume_tidy hx htidy ?_ hungrown).mono
        (fun c' pc' h => ?_) fun _ _ h => h
      · rintro first epc rfl
        exact hopens
      · rw [held_truncate]
        exact ⟨h.1, trivial, h.2⟩
  | invalidateOne id shouldFlush pc =>
      obtain ⟨x, hx, heq⟩ := Option.map_eq_some_iff.mp hresume
      refine ofFlow_tidy ?_ (fun _ => rfl) heq hcrash
      exact (Cache.invalidateOneResume_tidy hx htidy).mono
        (fun _ _ h => ⟨h, trivial, trivial⟩) fun _ _ h => h
  | shutdown after pc =>
      obtain ⟨x, hx, heq⟩ := Option.map_eq_some_iff.mp hresume
      refine ofFlow_tidy ?_ (fun _ => rfl) heq hcrash
      exact (Cache.shutdownResume_tidy hx htidy).mono
        (fun _ _ h => ⟨h, trivial, trivial⟩) fun _ _ h => h
  | cleanStaleFds pc =>
      obtain ⟨x, hx, heq⟩ := Option.map_eq_some_iff.mp hresume
      refine ofFlow_tidy ?_ (fun _ => rfl) heq hcrash
      exact (Cache.cleanStaleFdsResume_tidy hx htidy).mono
        (fun _ _ h => ⟨h, trivial, trivial⟩) fun _ _ h => h
  | _ => exact hlone.elim

end

end Task

namespace Pool

/-- The list and the page tables while calls are made one at a time. -/
structure Tidy (p : Pool) : Prop where
  layout : p.cache.Layout (Task.heldAll p.tasks)
  length_le : p.cache.lru.length ≤ p.cache.maxPages + Task.restAll p.tasks
  kinds : ∀ task ∈ p.tasks, task.Plain ∨ task.Lone
  ungrown : ∀ task ∈ p.tasks, task.Ungrown p.cache
  apart : ∀ (i j : Nat) (left right : Task), i ≠ j →
    p.tasks[i]? = some left → p.tasks[j]? = some right → left.Apart right
  missing : ∀ r pc, Task.readAt r pc ∈ p.tasks → Cache.Missing pc →
    p.cache.slot r.key = none
  opened : ∀ task ∈ p.tasks, ∀ key, task.key = some key →
    (p.cache.lookup key.id).isSome

section

variable {p p' : Pool} {i : Nat} {reply : Reply}

/-- No dangling iterator was dereferenced. -/
def Intact (p : Pool) : Prop :=
  ∀ task ∈ p.tasks, task.isCrashed = false

instance (p : Pool) : Decidable p.Intact :=
  inferInstanceAs (Decidable (∀ task ∈ p.tasks, task.isCrashed = false))

/-- While an operation runs alone, all other tasks are over. -/
theorem Tidy.done_of_lone (htidy : p.Tidy) {task : Task}
    (htask : p.tasks[i]? = some task) (hlone : task.Lone) {j : Nat}
    {task' : Task} (hne : j ≠ i) (htask' : p.tasks[j]? = some task') :
    task'.isDone = true := by
  have hapart := htidy.apart j i task' task hne htask' htask
  cases task with
  | truncate id oldSize newSize pc =>
      cases task' <;> rcases hapart with h | h <;> first | exact h | cases h
  | invalidateOne id shouldFlush pc =>
      cases task' <;> rcases hapart with h | h <;> first | exact h | cases h
  | shutdown after pc =>
      cases task' <;> rcases hapart with h | h <;> first | exact h | cases h
  | cleanStaleFds pc =>
      cases task' <;> rcases hapart with h | h <;> first | exact h | cases h
  | _ => exact hlone.elim

/-- While an operation runs alone, no other task holds a page. -/
theorem Tidy.others_eq_zero (htidy : p.Tidy) {task : Task}
    (htask : p.tasks[i]? = some task) (hlone : task.Lone)
    {others : Multiset Addr}
    (hset : ∀ task', Task.heldAll (p.tasks.set i task') =
      task'.held + others) {n : Nat}
    (hrest : ∀ task', Task.restAll (p.tasks.set i task') =
      task'.rest + n) : others = 0 ∧ n = 0 := by
  have hdone : ∀ task' ∈ p.tasks.set i (.finished (.ok ())),
      task'.isDone = true := by
    intro task' hmem
    rcases World.mem_set_cases hmem with rfl | ⟨j, hne, hj⟩
    · rfl
    · exact htidy.done_of_lone htask hlone hne hj
  have hheld := Task.heldAll_eq_zero fun task hmem =>
    Task.held_of_isDone (hdone task hmem)
  have hrests := Task.restAll_eq_zero fun task hmem =>
    Task.rest_of_isDone (hdone task hmem)
  rw [hset, show (Task.finished (.ok ())).held = 0 from rfl,
    Multiset.zero_add] at hheld
  rw [hrest, show (Task.finished (.ok ())).rest = 0 from rfl,
    Nat.zero_add] at hrests
  exact ⟨hheld, hrests⟩

/-- The resumption of an operation that runs alone. -/
theorem Tidy.resume_lone (htidy : p.Tidy) {task task' : Task} {c' : Cache}
    (htask : p.tasks[i]? = some task) (hlone : task.Lone)
    (hopens : task.Opens reply)
    (hstep : task.resume p.cache reply = some (c', task'))
    (hcrash : task' ≠ .crashed) (stale : List Nat) :
    Tidy ⟨c', p.tasks.set i task', stale⟩ := by
  have hmem := List.mem_of_getElem? htask
  obtain ⟨others, hheld, hset⟩ := Task.heldAll_set htask
  obtain ⟨n, hrest, hsetRest⟩ := Task.restAll_set htask
  obtain ⟨rfl, rfl⟩ := htidy.others_eq_zero htask hlone hset hsetRest
  have hlayout := htidy.layout
  have hlength := htidy.length_le
  rw [hheld, Multiset.add_zero] at hlayout
  rw [hrest, Nat.add_zero] at hlength
  obtain ⟨hnext, hkind⟩ := Task.resume_lone hlone (htidy.ungrown task hmem)
    hopens hstep hcrash ⟨hlayout, hlength⟩
  -- the other tasks are over, and this one is over or still runs alone
  have hcases : ∀ task₁ ∈ p.tasks.set i task', task₁.isDone = true ∨
      task₁.Lone ∧ task₁.Ungrown c' := by
    intro task₁ hmem₁
    rcases World.mem_set_cases hmem₁ with rfl | ⟨j, hne, hj⟩
    · exact hkind
    · exact .inl (htidy.done_of_lone htask hlone hne hj)
  refine ⟨?_, ?_, ?_, ?_, ?_, ?_, ?_⟩
  · change c'.Layout (Task.heldAll (p.tasks.set i task'))
    rw [hset, Multiset.add_zero]
    exact hnext.layout
  · change c'.lru.length ≤ c'.maxPages + Task.restAll (p.tasks.set i task')
    rw [hsetRest, Nat.add_zero]
    exact hnext.length_le
  · intro task₁ hmem₁
    rcases hcases task₁ hmem₁ with hdone | ⟨h, -⟩
    · exact .inl (Task.plain_of_isDone hdone)
    · exact .inr h
  · intro task₁ hmem₁
    rcases hcases task₁ hmem₁ with hdone | ⟨-, h⟩
    · exact Task.ungrown_of_isDone hdone
    · exact h
  · refine Task.apart_set htidy.apart htask fun j right hne hright _ => ?_
    exact (Task.apart_of_isDone (htidy.done_of_lone htask hlone hne hright)
      task').symm
  · intro r pc hmem₁
    rcases hcases _ hmem₁ with hdone | ⟨h, -⟩
    · cases hdone
    · exact h.elim
  · intro task₁ hmem₁ key hkey
    rcases hcases _ hmem₁ with hdone | ⟨h, -⟩
    · rw [Task.key_of_isDone hdone] at hkey
      cases hkey
    · cases task₁ <;> first | exact h.elim | cases hkey

/-- The resumption of a part of `read` or `write`, or of `flush`. -/
theorem Tidy.resume_plain (htidy : p.Tidy) {task task' : Task} {c' : Cache}
    (htask : p.tasks[i]? = some task) (hplain : task.Plain)
    (hopens : task.Opens reply)
    (hstep : task.resume p.cache reply = some (c', task'))
    (hcrash : task' ≠ .crashed) (stale : List Nat) :
    Tidy ⟨c', p.tasks.set i task', stale⟩ := by
  have hmem := List.mem_of_getElem? htask
  obtain ⟨others, hheld, hset⟩ := Task.heldAll_set htask
  obtain ⟨n, hrest, hsetRest⟩ := Task.restAll_set htask
  have hlayout := htidy.layout
  have hlength := htidy.length_le
  rw [hheld] at hlayout
  rw [hrest] at hlength
  have hresumes := Task.resume_resumes others hplain hstep hcrash
  have hrelaid := hresumes.relaid hopens
    (fun r pc heq => htidy.missing r pc (heq ▸ hmem))
    (htidy.opened task hmem) hlayout
  have hshorter := Task.resume_shorter hplain hstep hcrash
  have hnot := hresumes.not_done
  have hmax := hrelaid.maxPages
  refine ⟨?_, ?_, ?_, ?_, ?_, ?_, ?_⟩
  · change c'.Layout (Task.heldAll (p.tasks.set i task'))
    rw [hset]
    exact hrelaid.layout
  · change c'.lru.length ≤ c'.maxPages + Task.restAll (p.tasks.set i task')
    rw [hsetRest]
    omega
  · intro task₁ hmem₁
    rcases World.mem_set_cases hmem₁ with rfl | ⟨j, hne, hj⟩
    · refine .inl ?_
      cases hresumes <;> trivial
    · exact htidy.kinds task₁ (List.mem_of_getElem? hj)
  · intro task₁ hmem₁
    rcases World.mem_set_cases hmem₁ with rfl | ⟨j, hne, hj⟩
    · cases hresumes <;> trivial
    · cases task₁ with
      | truncate id oldSize newSize pc =>
          have hdone := htidy.done_of_lone hj trivial (Ne.symm hne) htask
          rw [hnot] at hdone
          cases hdone
      | _ => trivial
  · exact Task.apart_set htidy.apart htask
      fun _ _ _ _ happ => hresumes.apart happ
  · intro r pc hmem₁ hmissing
    rcases World.mem_set_cases hmem₁ with rfl | ⟨j, hne, hj⟩
    · cases hresumes with
      | readAwait _ pc₀ _ _ hread =>
          exact hread.slot_none hmissing (htidy.missing r pc₀ hmem)
    · change c'.slot r.key = none
      cases hslot : c'.slot r.key with
      | none => rfl
      | some addr =>
          rcases hrelaid.slot r.key addr hslot with hold | hkey
          · rw [htidy.missing r pc (List.mem_of_getElem? hj) hmissing] at hold
            cases hold
          · exact absurd rfl ((htidy.apart i j _ _ (Ne.symm hne) htask
              hj).key_ne hkey)
  · intro task₁ hmem₁ key hkey
    refine hrelaid.lookup _ ?_
    rcases World.mem_set_cases hmem₁ with rfl | ⟨j, hne, hj⟩
    · refine htidy.opened task hmem key ?_
      cases hresumes <;> first | exact hkey | cases hkey
    · exact htidy.opened task₁ (List.mem_of_getElem? hj) key hkey

theorem Tidy.resume (htidy : p.Tidy)
    (hopens : ∀ task, p.tasks[i]? = some task → task.Opens reply)
    (hresume : p.resume i reply = some p') (hintact : p'.Intact) :
    p'.Tidy := by
  obtain ⟨task, c', task', htask, hstep, hp'⟩ := resume_cases hresume
  have hlt : i < p.tasks.length := (List.getElem?_eq_some_iff.mp htask).1
  rcases hp' with ⟨-, rfl⟩ | ⟨-, -, rfl⟩
  · have hcrash : task' ≠ .crashed := by
      rintro rfl
      cases hintact _ (List.mem_set hlt _)
    rcases htidy.kinds task (List.mem_of_getElem? htask) with hplain | hlone
    · exact htidy.resume_plain htask hplain (hopens task htask) hstep hcrash _
    · exact htidy.resume_lone htask hlone (hopens task htask) hstep hcrash _
  · cases hintact _ (List.mem_set hlt _)

/-- A task at its start, as a call leaves it. -/
def Starting (c : Cache) : Task → Prop
  | .readAt r .start => (c.lookup r.id).isSome
  | .writeAt r _ .start => (c.lookup r.id).isSome
  | .flush _ .start => True
  | .truncate id oldSize newSize .start => c.Ungrown id oldSize newSize
  | .invalidateOne _ _ .start => True
  | .shutdown _ .start => True
  | .cleanStaleFds .start => True
  | .finished _ => True
  | _ => False

/-- A call of `truncate` that grows over no cached page. -/
def GrowsFree (c : Cache) : Call → Prop
  | .truncate id oldSize newSize => c.Ungrown id oldSize newSize
  | _ => True

/-- A call keeps the list and the tables, and its tasks are at their start. -/
theorem start_tidy {c : Cache} {op : Call} (htidy : c.Tidy 0 0)
    (hgrows : GrowsFree c op) : (op.start c).1.Tidy 0 0 ∧
      ∀ task ∈ (op.start c).2, Starting (op.start c).1 task := by
  have hsingle : ∀ {c' : Cache} {task : Task}, Starting c' task →
      ∀ task' ∈ [task], Starting c' task' := by
    intro c' task hstart task' hmem
    obtain rfl := List.mem_singleton.mp hmem
    exact hstart
  cases op with
  | hintOpen id path mode =>
      exact ⟨htidy.hintOpen id path mode, hsingle trivial⟩
  | hintClose id mode => exact ⟨htidy.hintClose id mode, hsingle trivial⟩
  | read id len offset =>
      cases hentry : c.lookup id with
      | none =>
          simp only [Call.start, hentry]
          exact ⟨htidy, hsingle trivial⟩
      | some entry =>
          simp only [Call.start, hentry]
          refine ⟨htidy, fun task hmem => ?_⟩
          obtain ⟨r, hr, rfl⟩ := List.mem_map.mp hmem
          change (c.lookup r.id).isSome = true
          rw [Call.id_of_mem_ranges hr, hentry]
          rfl
  | write id input offset =>
      cases hentry : c.lookup id with
      | none =>
          simp only [Call.start, hentry]
          exact ⟨htidy, hsingle trivial⟩
      | some entry =>
          simp only [Call.start, hentry]
          refine ⟨htidy.modifyEntry id fun _ => rfl, fun task hmem => ?_⟩
          obtain ⟨r, hr, rfl⟩ := List.mem_map.mp hmem
          change ((c.modifyEntry id _).lookup r.id).isSome = true
          rw [Call.id_of_mem_ranges hr, Cache.lookup_modifyEntry, if_pos rfl,
            hentry]
          rfl
  | flush id => exact ⟨htidy, hsingle trivial⟩
  | truncate id oldSize newSize => exact ⟨htidy, hsingle hgrows⟩
  | rename id path => exact ⟨htidy.modifyEntry id fun _ => rfl, hsingle trivial⟩
  | invalidateOne id shouldFlush => exact ⟨htidy, hsingle trivial⟩
  | invalidateAll => exact ⟨htidy, hsingle trivial⟩
  | setPageSize size => exact ⟨htidy, hsingle trivial⟩
  | setMaxPages count => exact ⟨htidy, hsingle trivial⟩
  | cleanStaleFds => exact ⟨htidy, hsingle trivial⟩

/-- The tasks of one call are apart. -/
theorem start_apart (c : Cache) (op : Call) {i j : Nat} (hne : i ≠ j)
    {left right : Task} (hleft : (op.start c).2[i]? = some left)
    (hright : (op.start c).2[j]? = some right) : left.Apart right := by
  have hsingle : ∀ {task : Task}, [task][i]? = some left →
      [task][j]? = some right → left.Apart right := by
    intro task hi hj
    have hi := (List.getElem?_eq_some_iff.mp hi).1
    have hj := (List.getElem?_eq_some_iff.mp hj).1
    rw [List.length_singleton] at hi hj
    omega
  cases op with
  | read id len offset =>
      cases hentry : c.lookup id with
      | none =>
          simp only [Call.start, hentry] at hleft hright
          exact hsingle hleft hright
      | some entry =>
          simp only [Call.start, hentry, List.getElem?_map] at hleft hright
          obtain ⟨r, hr, rfl⟩ := Option.map_eq_some_iff.mp hleft
          obtain ⟨r', hr', rfl⟩ := Option.map_eq_some_iff.mp hright
          exact Call.ranges_key_ne hne hr hr'
  | write id input offset =>
      cases hentry : c.lookup id with
      | none =>
          simp only [Call.start, hentry] at hleft hright
          exact hsingle hleft hright
      | some entry =>
          simp only [Call.start, hentry, List.getElem?_map] at hleft hright
          obtain ⟨r, hr, rfl⟩ := Option.map_eq_some_iff.mp hleft
          obtain ⟨r', hr', rfl⟩ := Option.map_eq_some_iff.mp hright
          exact Call.ranges_key_ne hne hr hr'
  | _ => exact hsingle hleft hright

theorem Idle.held_eq (hidle : p.Idle) : Task.heldAll p.tasks = 0 :=
  Task.heldAll_eq_zero fun task hmem => Task.held_of_isDone (hidle task hmem)

theorem Idle.rest_eq (hidle : p.Idle) : Task.restAll p.tasks = 0 :=
  Task.restAll_eq_zero fun task hmem => Task.rest_of_isDone (hidle task hmem)

theorem Tidy.call (htidy : p.Tidy) (hidle : p.Idle) {op : Call}
    (hgrows : GrowsFree p.cache op) : (p.call op).Tidy := by
  have hcache : p.cache.Tidy 0 0 := by
    refine ⟨?_, ?_⟩
    · rw [← hidle.held_eq]
      exact htidy.layout
    · rw [← hidle.rest_eq]
      exact htidy.length_le
  obtain ⟨hnext, hstarts⟩ := start_tidy hcache hgrows
  have hzero : ∀ task ∈ (op.start p.cache).2,
      task.held = 0 ∧ task.rest = 0 := by
    intro task hmem
    have hstart := hstarts task hmem
    unfold Starting at hstart
    split at hstart <;> first | exact ⟨rfl, rfl⟩ | exact hstart.elim
  have hmem : ∀ {task}, task ∈ p.tasks ++ (op.start p.cache).2 →
      task.isDone = true ∨ Starting (op.start p.cache).1 task := by
    intro task hmem
    rcases List.mem_append.mp hmem with hold | hnew
    · exact .inl (hidle task hold)
    · exact .inr (hstarts task hnew)
  refine ⟨?_, ?_, ?_, ?_, ?_, ?_, ?_⟩
  · change Cache.Layout _ (Task.heldAll (p.tasks ++ (op.start p.cache).2))
    rw [Task.heldAll_append, hidle.held_eq, Task.heldAll_eq_zero fun task h =>
      (hzero task h).1]
    exact hnext.layout
  · change (op.start p.cache).1.lru.length ≤ (op.start p.cache).1.maxPages +
      Task.restAll (p.tasks ++ (op.start p.cache).2)
    rw [Task.restAll_append, hidle.rest_eq, Task.restAll_eq_zero fun task h =>
      (hzero task h).2]
    exact hnext.length_le
  · intro task htask
    rcases hmem htask with hdone | hstart
    · exact .inl (Task.plain_of_isDone hdone)
    · unfold Starting at hstart
      split at hstart <;>
        first | exact .inl trivial | exact .inr trivial | exact hstart.elim
  · intro task htask
    rcases hmem htask with hdone | hstart
    · exact Task.ungrown_of_isDone hdone
    · unfold Starting at hstart
      split at hstart <;> first | exact hstart | trivial
  · intro i j left right hne hleft hright
    change (p.tasks ++ (op.start p.cache).2)[i]? = _ at hleft
    change (p.tasks ++ (op.start p.cache).2)[j]? = _ at hright
    rw [List.getElem?_append] at hleft hright
    split_ifs at hleft hright with hi hj
    · exact Task.apart_of_isDone (hidle _ (List.mem_of_getElem? hleft)) right
    · exact Task.apart_of_isDone (hidle _ (List.mem_of_getElem? hleft)) right
    · exact (Task.apart_of_isDone (hidle _ (List.mem_of_getElem? hright))
        left).symm
    · exact start_apart p.cache op (by omega) hleft hright
  · intro r pc htask hmissing
    rcases hmem htask with hdone | hstart
    · cases hdone
    · cases pc with
      | start => exact hmissing.elim
      | _ => exact hstart.elim
  · intro task htask key hkey
    rcases hmem htask with hdone | hstart
    · rw [Task.key_of_isDone hdone] at hkey
      cases hkey
    · unfold Starting at hstart
      split at hstart
      · obtain rfl := Option.some.inj hkey
        exact hstart
      · obtain rfl := Option.some.inj hkey
        exact hstart
      all_goals first | cases hkey | exact hstart.elim

/-- Calls made one at a time, with any answers of the device. -/
def Serially (p : Pool) (event : PoolEvent) (_ : Pool) : Prop :=
  match event with
  | .call _ => p.Idle
  | .resume _ _ => True

/-- Calls made one at a time in which no eviction fails to open a file, no
`truncate` grows over a cached page and no dangling iterator is
dereferenced. -/
def Careful (p : Pool) (event : PoolEvent) (p' : Pool) : Prop :=
  match event with
  | .call op => p.Idle ∧ GrowsFree p.cache op
  | .resume i reply =>
      (∀ task, p.tasks[i]? = some task → task.Opens reply) ∧ p'.Intact

theorem Tidy.step {event : PoolEvent} (hstep : p.step event = some p')
    (hguard : p.Careful event p') (htidy : p.Tidy) : p'.Tidy := by
  cases event with
  | call op =>
      obtain rfl := Option.some.inj hstep
      exact htidy.call hguard.1 hguard.2
  | resume i reply => exact htidy.resume hguard.1 hstep hguard.2

/-- A cache as it is constructed. -/
def fresh (pageSize maxPages : Nat) : Pool :=
  ⟨Cache.create pageSize maxPages, [], []⟩

theorem tidy_fresh (pageSize maxPages : Nat) :
    (fresh pageSize maxPages).Tidy where
  layout := by
    have hlive : ∀ addr, addr ∉
        (Cache.create pageSize maxPages).live (Task.heldAll []) := by
      intro addr hmem
      simp [Cache.mem_live, Cache.create, Task.heldAll] at hmem
    refine ⟨?_, fun addr h => absurd h (hlive addr), ?_,
      fun addr h => absurd h (hlive addr)⟩
    · exact Multiset.nodup_zero
    · intro key addr hslot
      cases hslot
  length_le := Nat.zero_le _
  kinds := fun task hmem => by cases hmem
  ungrown := fun task hmem => by cases hmem
  apart := fun i j left right _ hleft => by cases hleft
  missing := fun r pc hmem => by cases hmem
  opened := fun task hmem => by cases hmem

end

end Pool

/-- The list and the page tables are in bijection, no key is listed twice, and
the list is not too long. -/
structure Cache.Bijective (c : Cache) : Prop where
  slot_of_mem : ∀ addr ∈ c.lru, c.slot (c.heap addr).key = some addr
  mem_of_slot : ∀ key addr, c.slot key = some addr →
    addr ∈ c.lru ∧ (c.heap addr).key = key
  nodup : (c.lru.map fun addr => (c.heap addr).key).Nodup
  length_le : c.lru.length ≤ c.maxPages

/-- Over any careful run the two containers of the cache are in bijection
whenever no operation is in progress. -/
theorem Pool.bijective_of_careful {pageSize maxPages : Nat}
    {events : List PoolEvent} {p : Pool}
    (hruns : Runs Pool.step Pool.Careful (Pool.fresh pageSize maxPages)
      events p) (hidle : p.Idle) : p.cache.Bijective := by
  have htidy : p.Tidy := hruns.preserves (I := Pool.Tidy)
    (fun hstep hguard h => h.step hstep hguard)
    (Pool.tidy_fresh pageSize maxPages)
  have hlayout := htidy.layout
  have hlength := htidy.length_le
  rw [hidle.held_eq] at hlayout
  rw [hidle.rest_eq] at hlength
  have hmem : ∀ addr, addr ∈ p.cache.live 0 ↔ addr ∈ p.cache.lru := by
    intro addr
    simp [Cache.mem_live]
  refine ⟨?_, ?_, ?_, hlength⟩
  · intro addr h
    exact hlayout.slot_of_live addr ((hmem addr).mpr h)
  · intro key addr hslot
    obtain ⟨h, hkey⟩ := hlayout.live_of_slot key addr hslot
    exact ⟨(hmem addr).mp h, hkey⟩
  · have hnodup := hlayout.nodup
    rw [Cache.live, Multiset.add_zero, Multiset.coe_nodup] at hnodup
    refine (List.nodup_map_iff_inj_on hnodup).mpr ?_
    intro left hleft right hright hkey
    exact hlayout.key_inj ((hmem left).mpr hleft) ((hmem right).mpr hright)
      hkey

namespace FailedEviction

/-- Two writes to different pages of a cache with room for one. -/
def twoWrites : List PoolEvent :=
  [.call (.hintOpen ⟨1⟩ ["f"] .write), .call (.write ⟨1⟩ [1] 0),
    .resume 1 .go, .call (.write ⟨1⟩ [2] 1), .resume 2 .go]

/-- The eviction of the first page succeeds. -/
theorem bijective_of_careful_evicted : ∃ p : Pool, p.Idle ∧
    p.cache.lru = [1] ∧ p.cache.Bijective := by
  have hrun : ∃ p, Runs Pool.step Pool.Careful (Pool.fresh 1 1)
      (twoWrites ++ [.resume 2 (.opened (.ok 7)),
        .resume 2 (.written (.ok 1))]) p ∧ p.Idle ∧ p.cache.lru = [1] := by
    refine ⟨_, .cons rfl ⟨by decide, trivial⟩
      (.cons rfl ⟨by decide, trivial⟩
      (.cons rfl ⟨?_, (by decide : Pool.Intact _)⟩
      (.cons rfl ⟨by decide, trivial⟩
      (.cons rfl ⟨?_, (by decide : Pool.Intact _)⟩
      (.cons rfl ⟨?_, (by decide : Pool.Intact _)⟩
      (.cons rfl ⟨?_, (by decide : Pool.Intact _)⟩ (.nil _))))))),
      by decide, rfl⟩
    all_goals
      intro task htask
      obtain rfl := Option.some.inj htask
      trivial
  obtain ⟨p, hruns, hidle, hlru⟩ := hrun
  exact ⟨p, hidle, hlru, Pool.bijective_of_careful hruns hidle⟩

/-- An eviction that cannot open the file of a dirty page drops the page and
leaves its slot. -/
theorem not_bijective : ¬ ∀ (pageSize maxPages : Nat)
    (events : List PoolEvent) (p : Pool), 1 ≤ maxPages →
    Runs Pool.step Pool.Serially (Pool.fresh pageSize maxPages) events p →
    p.Idle → p.cache.Bijective := by
  intro hall
  have hrun : ∃ p, Runs Pool.step Pool.Serially (Pool.fresh 1 1)
      (twoWrites ++ [.resume 2 (.opened (.error Errc.ioError))]) p ∧
      p.Idle ∧ p.cache.slot ⟨⟨1⟩, 0⟩ = some 0 ∧ p.cache.lru = [1] := by
    exact ⟨_, .cons rfl (by decide : Pool.Idle _)
      (.cons rfl (by decide : Pool.Idle _)
      (.cons rfl trivial (.cons rfl (by decide : Pool.Idle _)
      (.cons rfl trivial (.cons rfl trivial (.nil _)))))),
      by decide, rfl, rfl⟩
  obtain ⟨p, hruns, hidle, hslot, hlru⟩ := hrun
  have hmem := ((hall 1 1 _ p (Nat.le_refl 1) hruns hidle).mem_of_slot _ _
    hslot).1
  rw [hlru] at hmem
  exact absurd hmem (by decide)

end FailedEviction

end Madbfs
