/-
Calls that are made while nothing is running and whose tasks have all ended.
No task crashed on the way, for a crashed task does not end, so the steps were
those of calls made one at a time.  A `read` and a `flush` leave the flat files
as they are, and a `flush` leaves its file without changes in the cache.
-/
import Madbfs.Cache.Durable
import Madbfs.Cache.ReadBack
import Madbfs.Filesystem

namespace Madbfs

open Bytes

/-- The task has returned or crashed. -/
def Task.Over (task : Task) : Prop :=
  task.isDone = true ∨ task = .crashed

theorem Task.Over.resume {task : Task} (hover : task.Over) (c : Cache)
    (reply : Reply) : task.resume c reply = none := by
  rcases hover with hdone | rfl
  · exact Task.resume_of_isDone hdone c reply
  · rfl

/-- An entry is not marked dirty by the steps of a task. -/
theorem Task.Effect.flagged {S : Id → Prop} {d : Device} {c c' : Cache}
    {others : Multiset Addr} {allowed : Page → Prop} {task task' : Task}
    (heffect : Task.Effect S d c others allowed task c' task') {id : Id}
    (hflag : c'.Flagged id) : c.Flagged id := by
  cases heffect with
  | acts task task' c' hacts hwrite =>
      exact (Cache.flagged_congr (hacts.headOf_eq id)).mp hflag
  | wrote r input pc c₁ addr n hacts hslot hmem hsize =>
      exact (Cache.flagged_congr (hacts.headOf_eq id)).mp hflag
  | cleared id' pc c₁ hacts =>
      refine (Cache.flagged_congr (hacts.headOf_eq id)).mp ?_
      obtain ⟨entry, hentry, hdirty⟩ := hflag
      rw [Cache.lookup_modifyEntry] at hentry
      split_ifs at hentry with hid
      · obtain ⟨entry', -, rfl⟩ := Option.map_eq_some_iff.mp hentry
        cases hdirty
      · exact ⟨entry, hentry, hdirty⟩

/-- A `flush` that returns without an error leaves its entry unmarked. -/
theorem Cache.FlushStep.unflagged {c c' : Cache} {id : Id} {pc : FlushPc}
    {reply : Reply}
    (hstep : FlushStep c id pc reply c' (.done (.ok ()))) :
    ¬ c'.Flagged id := by
  rintro ⟨entry, hentry, hdirty⟩
  generalize hflow : Flow.done (Except.ok ()) = flow at hstep
  cases hstep with
  | nothing hclean =>
      rw [hclean entry hentry] at hdirty
      cases hdirty
  | loop pc _ c₁ indices henter hruns =>
      generalize (flushLoop id indices c₁).1 = cfinal at hruns hentry
      generalize (flushLoop id indices c₁).2 = flow' at hruns hflow
      subst hflow
      cases hruns with
      | done c₂ hmoves =>
          rw [lookup_modifyEntry, if_pos rfl] at hentry
          obtain ⟨entry', -, rfl⟩ := Option.map_eq_some_iff.mp hentry
          cases hdirty
  | crash => cases hflow
  | «open» entry hentry hdirty hfd => cases hflow
  | openFail err => cases hflow
  | send index addr fd fpc _ hslot hmem htook hmore => cases hflow
  | refused index addr fd fpc _ err hrefused => cases hflow

namespace World

section

variable {w w' : World} {events : List Event} {i j : Nat} {task : Task}

/-- Without calls there are no new tasks, and those that are over stay. -/
theorem step_over {event : Event} (hstep : w.step event = some w')
    (hcall : event.isCall = false) :
    w'.pool.tasks.length = w.pool.tasks.length ∧
      ∀ (j : Nat) task, w.pool.tasks[j]? = some task → task.Over →
        w'.pool.tasks[j]? = some task := by
  cases event with
  | call call => cases hcall
  | exec i accept =>
      obtain ⟨task, request, -, -, -, rfl⟩ := exec_cases hstep
      exact ⟨rfl, fun j task htask _ => htask⟩
  | resume i =>
      obtain ⟨task, c', task', htask, hresume, pool, rfl, hpool⟩ :=
        resume_cases hstep
      have hset : ∃ task₂, pool.tasks = w.pool.tasks.set i task₂ := by
        rcases hpool with rfl | rfl
        · exact ⟨task', rfl⟩
        · exact ⟨.crashed, rfl⟩
      obtain ⟨task₂, hset⟩ := hset
      dsimp only
      rw [hset]
      refine ⟨List.length_set, fun j task₁ htask₁ hover => ?_⟩
      by_cases hne : i = j
      · subst hne
        obtain rfl := Option.some.inj (htask.symm.trans htask₁)
        rw [hover.resume] at hresume
        cases hresume
      · rw [List.getElem?_set_ne hne]
        exact htask₁

theorem runs_over
    (hruns : Runs step (fun _ event _ => event.isCall = false) w events w') :
    w'.pool.tasks.length = w.pool.tasks.length ∧
      ∀ (j : Nat) task, w.pool.tasks[j]? = some task → task.Over →
        w'.pool.tasks[j]? = some task := by
  induction hruns with
  | nil w => exact ⟨rfl, fun j task htask _ => htask⟩
  | cons hstep hguard hrest ih =>
      obtain ⟨hlength, hover⟩ := step_over hstep hguard
      refine ⟨ih.1.trans hlength, fun j task htask hdone => ?_⟩
      exact ih.2 j task (hover j task htask hdone) hdone

/-- No task has crashed in a run after which all have returned. -/
theorem runs_careful
    (hruns : Runs step (fun _ event _ => event.isCall = false) w events w')
    (hidle : w'.pool.Idle) :
    Runs step (fun w event w' => w.OneAtATime event w' ∧
      event.isCall = false) w events w' := by
  induction hruns with
  | nil w => exact .nil w
  | @cons w w₁ w' event events hstep hcall hrest ih =>
      refine .cons hstep ⟨?_, hcall⟩ (ih hidle)
      cases event with
      | call call => cases hcall
      | exec i accept => trivial
      | resume i =>
          intro task hmem
          obtain ⟨j, hj⟩ := List.mem_iff_getElem?.mp hmem
          cases task with
          | crashed =>
              have hend := (runs_over hrest).2 j _ hj (.inr rfl)
              cases hidle _ (List.mem_of_getElem? hend)
          | _ => rfl

/-- A call that was completed while nothing else was running. -/
theorem Completes.runs {call : Call} {parts : List Task}
    (hcompletes : w.Completes call w' parts) (hidle : w.pool.Idle) :
    (∃ rest, Runs step (fun w event w' => w.OneAtATime event w' ∧
      event.isCall = false) { w with pool := w.pool.call call } rest w') ∧
    w'.pool.Idle ∧ parts = w'.pool.tasks.drop w.pool.tasks.length ∧
    parts.length = (call.start w.pool.cache).2.length := by
  obtain ⟨⟨rest, hruns⟩, hdone, hparts⟩ := hcompletes
  obtain ⟨hlength, hover⟩ := runs_over hruns
  have hstarted : w'.pool.tasks.length =
      w.pool.tasks.length + (call.start w.pool.cache).2.length :=
    hlength.trans List.length_append
  have hdrop : parts = w'.pool.tasks.drop w.pool.tasks.length := by
    rw [hparts, List.take_of_length_le]
    rw [List.length_drop]
    omega
  have hend : w'.pool.Idle := by
    intro task hmem
    obtain ⟨j, hj⟩ := List.mem_iff_getElem?.mp hmem
    by_cases hlt : j < w.pool.tasks.length
    · have hold := List.getElem?_eq_getElem hlt
      have hold' := hidle _ (List.mem_of_getElem? hold)
      have hkept := hover j w.pool.tasks[j]
        ((List.getElem?_append_left hlt).trans hold) (.inl hold')
      rw [hj] at hkept
      rw [Option.some.inj hkept]
      exact hold'
    · refine hdone task ?_
      rw [hdrop]
      refine List.mem_of_getElem? (i := j - w.pool.tasks.length) ?_
      rw [List.getElem?_drop]
      rwa [Nat.add_sub_cancel' (Nat.le_of_not_lt hlt)]
  refine ⟨⟨rest, runs_careful hruns hend⟩, hend, hdrop, ?_⟩
  rw [hdrop, List.length_drop]
  omega

/-- No part of a `write` is running. -/
def Quiet (w : World) : Prop :=
  ∀ id r input, ¬ w.Writing id r input

theorem Quiet.step {S : Id → Prop} (hquiet : w.Quiet) (hserial : w.Serial S)
    {event : Event} (hstep : w.step event = some w')
    (hguard : w.OneAtATime event w') (hcall : event.isCall = false) :
    w'.Quiet := by
  intro id r input hwriting
  cases event with
  | call call => cases hcall
  | exec i accept =>
      obtain ⟨task, request, -, -, -, rfl⟩ := exec_cases hstep
      exact hquiet id r input hwriting
  | resume i =>
      obtain ⟨task, c', task', others, hres⟩ :=
        hserial.resumption hstep hguard
      exact hquiet id r input
        ((hres.writing_iff hserial id r input).mp hwriting).1

/-- A call that starts no `write` starts a quiet run. -/
theorem quiet_call (hidle : w.pool.Idle) {call : Call}
    (hcall : call.Proper w.pool.cache)
    (hwrite : ∀ id input offset, call ≠ .write id input offset) :
    Quiet { w with pool := w.pool.call call } := by
  intro id r input hwriting
  obtain ⟨-, id', offset, heq, -⟩ := (writing_call hidle hcall).mp hwriting
  exact hwrite id' input offset heq

end

end World

namespace Shadowed

section

variable {w w' : World} {flat : Id → List Byte} {events : List Event}

/-- Nothing is skipped or cut off in a quiet run. -/
theorem runs_quiet
    (hruns : Runs World.step (fun w event w' => w.OneAtATime event w' ∧
      event.isCall = false) w events w')
    (hserial : w.Serial fun _ => True) (hquiet : w.Quiet) :
    Runs Shadowed.step Seamless ⟨w, flat⟩ events ⟨w', flat⟩ := by
  induction hruns with
  | nil w => exact .nil _
  | @cons w w₁ w' event events hstep hguard hrest ih =>
      have hnext := ih (hserial.step hstep hguard.1)
        (hquiet.step hserial hstep hguard.1 hguard.2)
      cases event with
      | call call => cases hguard.2
      | exec i accept =>
          refine .cons ?_ ⟨⟨trivial, trivial⟩, trivial⟩ hnext
          exact Option.map_eq_some_iff.mpr ⟨w₁, hstep, rfl⟩
      | resume i =>
          refine .cons ?_ ⟨⟨hguard.1, ?_⟩, ?_⟩ hnext
          · exact Option.map_eq_some_iff.mpr ⟨w₁, hstep, rfl⟩
          · intro r input pc n htask
            exact absurd ⟨rfl, pc, List.mem_of_getElem? htask⟩
              (hquiet r.id r input)
          · intro r input pc n htask
            exact absurd ⟨rfl, pc, List.mem_of_getElem? htask⟩
              (hquiet r.id r input)

/-- A call of `read` or `flush` leaves the flat files. -/
theorem runs_call {call : Call}
    (hruns : Runs World.step (fun w event w' => w.OneAtATime event w' ∧
      event.isCall = false) { w with pool := w.pool.call call } events w')
    (hserial : w.Serial fun _ => True) (hidle : w.pool.Idle)
    (hcall : call.Proper w.pool.cache)
    (hwrite : ∀ id input offset, call ≠ .write id input offset) :
    Runs Shadowed.step Seamless ⟨w, flat⟩ (.call call :: events)
      ⟨w', flat⟩ := by
  have hsame : ∀ id, call.applied id (flat id) = flat id := by
    intro id
    cases call with
    | write id' input offset => exact absurd rfl (hwrite id' input offset)
    | _ => rfl
  refine .cons ?_ ⟨⟨⟨hidle, hcall⟩, trivial⟩, ?_⟩
    (runs_quiet hruns (hserial.call hidle hcall)
      (World.quiet_call hidle hcall hwrite))
  · exact congrArg some (congrArg (Shadowed.mk _) (funext hsame))
  · intro id input offset heq
    exact absurd heq (hwrite id input offset)

end

end Shadowed

namespace World

section

variable {w w' : World} {flat : Id → List Byte} {id : Id}
  {parts : List Task}

theorem Completes.mirrors {call : Call}
    (hcompletes : w.Completes call w' parts) (hmirrors : w.Mirrors flat)
    (hidle : w.pool.Idle) (hcall : call.Proper w.pool.cache)
    (hwrite : ∀ id input offset, call ≠ .write id input offset) :
    w'.Mirrors flat := by
  obtain ⟨⟨rest, hruns⟩, -⟩ := hcompletes.runs hidle
  exact Shadowed.mirrors_runs (Shadowed.runs_call hruns hmirrors.serial hidle
    hcall hwrite) hmirrors

/-- What the steps of tasks keep of the state before them: no entry gets
marked. -/
structure Tame (w w' : World) : Prop where
  flag : ∀ id, w'.pool.cache.Flagged id → w.pool.cache.Flagged id
  path : ∀ id, w'.pool.cache.pathOf id = w.pool.cache.pathOf id
  pageSize : w'.pool.cache.pageSize = w.pool.cache.pageSize

theorem Tame.refl (w : World) : w.Tame w :=
  ⟨fun _ h => h, fun _ => rfl, rfl⟩

theorem Tame.trans {w₁ : World} (hleft : w.Tame w₁) (hright : w₁.Tame w') :
    w.Tame w' :=
  ⟨fun id h => hleft.flag id (hright.flag id h),
    fun id => (hright.path id).trans (hleft.path id),
    hright.pageSize.trans hleft.pageSize⟩

theorem tame_step {S : Id → Prop} (hserial : w.Serial S) {event : Event}
    (hstep : w.step event = some w') (hguard : w.OneAtATime event w')
    (hcall : event.isCall = false) : w.Tame w' := by
  cases event with
  | call call => cases hcall
  | exec i accept =>
      obtain ⟨task, request, -, -, -, rfl⟩ := exec_cases hstep
      exact ⟨fun _ h => h, fun _ => rfl, rfl⟩
  | resume i =>
      obtain ⟨task, c', task', others, hres⟩ :=
        hserial.resumption hstep hguard
      rw [hres.world_eq]
      exact ⟨fun id h => hres.effect.flagged h, hres.keeps.path,
        hres.keeps.pageSize⟩

theorem tame_runs {S : Id → Prop} {events : List Event}
    (hruns : Runs step (fun w event w' => w.OneAtATime event w' ∧
      event.isCall = false) w events w') (hserial : w.Serial S) :
    w.Tame w' := by
  induction hruns with
  | nil w => exact .refl w
  | cons hstep hguard hrest ih =>
      exact (tame_step hserial hstep hguard.1 hguard.2).trans
        (ih (hserial.step hstep hguard.1))

/-- A call of `read` or `flush`, completed while nothing else was running. -/
theorem Completes.tame {call : Call} (hcompletes : w.Completes call w' parts)
    (hserial : w.Serial fun _ => True) (hidle : w.pool.Idle)
    (hcall : call.Proper w.pool.cache)
    (hwrite : ∀ id input offset, call ≠ .write id input offset) :
    w.Tame w' := by
  obtain ⟨⟨rest, hruns⟩, -⟩ := hcompletes.runs hidle
  have hsame : (call.start w.pool.cache).1 = w.pool.cache := by
    cases call with
    | read id len offset =>
        obtain ⟨entry, hentry⟩ := Option.isSome_iff_exists.mp hcall.1
        simp only [Call.start, hentry]
    | flush id => rfl
    | write id input offset => exact absurd rfl (hwrite id input offset)
    | _ => exact hcall.elim
  have htame := tame_runs hruns (hserial.call hidle hcall)
  obtain ⟨hflag, hpath, hsize⟩ := htame
  simp only [Pool.call, hsame] at hflag hpath hsize
  exact ⟨hflag, hpath, hsize⟩

/-- A `flush` as the only running task, or its end.  No page comes into the
cache. -/
structure Syncing (w₀ : World) (n : Nat) (id : Id) (w : World) : Prop where
  others : ∀ (j : Nat) task, j ≠ n → w.pool.tasks[j]? = some task →
    task.isDone = true
  task : (∃ pc, w.pool.tasks[n]? = some (.flush id pc)) ∨
    (w.pool.tasks[n]? = some (.finished (.ok ())) ∧
      ¬ w.pool.cache.Flagged id)
  slot : ∀ key addr, w.pool.cache.slot key = some addr →
    w₀.pool.cache.slot key = some addr

theorem Syncing.step {S : Id → Prop} {w₀ : World} {n : Nat}
    (hsyncing : w₀.Syncing n id w) (hserial : w.Serial S) {event : Event}
    (hstep : w.step event = some w') (hguard : w.OneAtATime event w')
    (hcall : event.isCall = false) : w₀.Syncing n id w' := by
  cases event with
  | call call => cases hcall
  | exec i accept =>
      obtain ⟨task, request, -, -, -, rfl⟩ := exec_cases hstep
      exact ⟨hsyncing.others, hsyncing.task, hsyncing.slot⟩
  | resume i =>
      obtain ⟨task, c', task', others, hres⟩ :=
        hserial.resumption hstep hguard
      have hnot := hres.resumes.not_done
      have hin : i = n := by
        by_contra hne
        rw [hsyncing.others i task hne hres.task_eq] at hnot
        cases hnot
      subst hin
      rcases hsyncing.task with ⟨pc, htask⟩ | ⟨htask, -⟩
      · obtain rfl := Option.some.inj (hres.task_eq.symm.trans htask)
        have hself := List.getElem?_set_self (a := task') hres.lt_length
        have hslot : ∀ key addr, c'.slot key = some addr →
            w.pool.cache.slot key = some addr := by
          intro key addr h
          rcases hres.effect.slot_subset h with hold | hkey
          · exact hold
          · cases hkey
        have hresumes := hres.resumes
        rw [hres.world_eq]
        refine ⟨fun j task₁ hne hj => ?_, ?_,
          fun key addr h => hsyncing.slot key addr (hslot key addr h)⟩
        · change (w.pool.tasks.set i task')[j]? = _ at hj
          rw [List.getElem?_set_ne (Ne.symm hne)] at hj
          exact hsyncing.others j task₁ hne hj
        · cases hresumes with
          | flushAwait _ _ pc' _ hflush => exact .inl ⟨pc', hself⟩
          | flushDone _ _ _ res hflush =>
              obtain rfl := hserial.flush_ok htask hflush
              exact .inr ⟨hself, hflush.unflagged⟩
      · obtain rfl := Option.some.inj (hres.task_eq.symm.trans htask)
        cases hnot

/-- A `flush` that was completed while nothing else was running returns no
error. -/
theorem Completes.flush (hcompletes : w.Completes (.flush id) w' parts)
    (hserial : w.Serial fun _ => True) (hidle : w.pool.Idle) :
    parts = [.finished (.ok ())] ∧ ¬ w'.pool.cache.Flagged id ∧
      ∀ key addr, w'.pool.cache.slot key = some addr →
        w.pool.cache.slot key = some addr := by
  obtain ⟨⟨rest, hruns⟩, hend, hdrop, hlength⟩ := hcompletes.runs hidle
  have hstart : World.Serial (fun _ => True)
      { w with pool := w.pool.call (.flush id) } :=
    hserial.call hidle trivial
  have hfirst : w.Syncing w.pool.tasks.length id
      { w with pool := w.pool.call (.flush id) } := by
    refine ⟨fun j task hne hj => ?_, .inl ⟨.start, ?_⟩, fun _ _ h => h⟩
    · change (w.pool.tasks ++ [Task.flush id .start])[j]? = some task at hj
      rw [List.getElem?_append] at hj
      split_ifs at hj with hlt
      · exact hidle task (List.mem_of_getElem? hj)
      · rw [List.getElem?_singleton] at hj
        split_ifs at hj with hzero
        omega
    · exact List.getElem?_concat_length
  obtain ⟨-, hsyncing⟩ := hruns.preserves
    (I := fun w₁ => w₁.Serial (fun _ => True) ∧
      w.Syncing w.pool.tasks.length id w₁)
    (fun hstep hguard h => ⟨h.1.step hstep hguard.1,
      h.2.step h.1 hstep hguard.1 hguard.2⟩) ⟨hstart, hfirst⟩
  rcases hsyncing.task with ⟨pc, htask⟩ | ⟨htask, hunflagged⟩
  · cases hend _ (List.mem_of_getElem? htask)
  · obtain ⟨task, rfl⟩ := List.length_eq_one_iff.mp hlength
    have hhead := congrArg (fun tasks => tasks[0]?) hdrop
    simp only [List.getElem?_drop, Nat.add_zero, htask] at hhead
    obtain rfl := Option.some.inj hhead
    exact ⟨rfl, hunflagged, hsyncing.slot⟩

/-- The parts of a `write` as the only running tasks, or their ends without
an error. -/
def Storing (n : Nat) (w : World) : Prop :=
  ∀ (j : Nat) task, w.pool.tasks[j]? = some task →
    (j < n ∧ task.isDone = true) ∨
    (∃ r input pc, task = .writeAt r input pc) ∨
    ∃ r m, task = .didWrite r (.ok m)

theorem Storing.step {S : Id → Prop} {n : Nat} (hstoring : w.Storing n)
    (hserial : w.Serial S) {event : Event} (hstep : w.step event = some w')
    (hguard : w.OneAtATime event w') (hcall : event.isCall = false) :
    w'.Storing n := by
  cases event with
  | call call => cases hcall
  | exec i accept =>
      obtain ⟨task, request, -, -, -, rfl⟩ := exec_cases hstep
      exact hstoring
  | resume i =>
      obtain ⟨task, c', task', others, hres⟩ :=
        hserial.resumption hstep hguard
      have hnot := hres.resumes.not_done
      have hresumes := hres.resumes
      rw [hres.world_eq]
      intro j task₁ hj
      change (w.pool.tasks.set i task')[j]? = _ at hj
      by_cases hne : i = j
      · subst hne
        rw [List.getElem?_set_self hres.lt_length] at hj
        obtain rfl := Option.some.inj hj
        rcases hstoring i task hres.task_eq with
          ⟨-, hdone⟩ | ⟨r, input, pc, rfl⟩ | ⟨r, m, rfl⟩
        · rw [hdone] at hnot
          cases hnot
        · refine .inr ?_
          cases hresumes with
          | writeAwait _ _ _ pc' _ hwrite => exact .inl ⟨r, input, pc', rfl⟩
          | writeDone _ _ _ _ res hwrite =>
              have hcalm := hserial.calm _ (List.mem_of_getElem? hres.task_eq)
              obtain ⟨m, rfl⟩ := hwrite.done_ok (by
                rintro fut rfl
                exact hcalm)
              exact .inr ⟨r, m, rfl⟩
        · cases hnot
      · rw [List.getElem?_set_ne hne] at hj
        exact hstoring j task₁ hj

/-- After a `write` every part has returned without an error, and no entry but
that of the file is newly marked. -/
theorem stored {input : List Byte} {offset : Nat} {rest : List Event}
    (hruns : Runs step (fun w event w' => w.OneAtATime event w' ∧
      event.isCall = false)
      { w with pool := w.pool.call (.write id input offset) } rest w')
    (hserial : w.Serial fun _ => True) (hidle : w.pool.Idle)
    (hcall : Call.Proper w.pool.cache (.write id input offset))
    (hend : w'.pool.Idle) :
    (∀ task ∈ w'.pool.tasks.drop w.pool.tasks.length,
      ∃ r m, task = .didWrite r (.ok m)) ∧
    ∀ id', w'.pool.cache.Flagged id' → id' = id ∨ w.pool.cache.Flagged id' := by
  obtain ⟨entry, hentry⟩ := Option.isSome_iff_exists.mp hcall.1
  have hstart := hserial.call hidle hcall
  have hfirst : Storing w.pool.tasks.length
      { w with pool := w.pool.call (.write id input offset) } := by
    intro j task hj
    change (w.pool.tasks ++ _)[j]? = some task at hj
    rw [List.getElem?_append] at hj
    split_ifs at hj with hlt
    · exact .inl ⟨hlt, hidle task (List.mem_of_getElem? hj)⟩
    · have hmem := List.mem_of_getElem? hj
      simp only [Call.start, hentry, List.mem_map] at hmem
      obtain ⟨r, -, rfl⟩ := hmem
      exact .inr (.inl ⟨r, input, .start, rfl⟩)
  obtain ⟨-, hstoring⟩ := hruns.preserves
    (I := fun w₁ => w₁.Serial (fun _ => True) ∧
      w₁.Storing w.pool.tasks.length)
    (fun hstep hguard h => ⟨h.1.step hstep hguard.1,
      h.2.step h.1 hstep hguard.1 hguard.2⟩) ⟨hstart, hfirst⟩
  refine ⟨fun task hmem => ?_, fun id' hflag => ?_⟩
  · obtain ⟨j, hj⟩ := List.mem_iff_getElem?.mp hmem
    rw [List.getElem?_drop] at hj
    rcases hstoring _ task hj with
      ⟨hlt, -⟩ | ⟨r, input', pc, rfl⟩ | hdone
    · omega
    · cases hend _ (List.mem_of_getElem? hj)
    · exact hdone
  · obtain ⟨entry', hentry', hdirty⟩ :=
      (tame_runs hruns hstart).flag id' hflag
    simp only [Pool.call, Call.start, hentry] at hentry'
    rw [Cache.lookup_modifyEntry] at hentry'
    split_ifs at hentry' with hid
    · exact .inl hid
    · exact .inr ⟨entry', hentry', hdirty⟩

end

end World

end Madbfs
