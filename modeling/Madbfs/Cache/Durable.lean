/-
Write, then flush: the device has what was written.  After any calls, made one
at a time, a `flush` of a file ends, and when it has ended the file on the
device is what it was before with the writes overlaid in order.
-/
import Madbfs.Cache.Flat
import Madbfs.Cache.Progress

namespace Madbfs

open Bytes

namespace World

/-- The start of a run for one file: nothing is running, the file is open and
none of its pages is cached.  Other files may be cached. -/
structure Ready (w : World) (id : Id) : Prop where
  idle : w.pool.Idle
  sound : w.Sound (· = id)
  uncached : ∀ k, w.pool.cache.slot ⟨id, k⟩ = none
  queue : ∀ key, w.pool.cache.readQueue.lookup key = none

/-- A `flush` of the file is running, or it has ended and nothing is. -/
def Flushing (w : World) (id : Id) : Prop :=
  (∃ pc, Task.flush id pc ∈ w.pool.tasks) ∨
    (w.pool.Idle ∧ ∀ k, w.pool.cache.CleanAt ⟨id, k⟩)

section

variable {S : Id → Prop} {w w' : World} {i : Nat} {id : Id}

theorem Ready.serial (hready : w.Ready id) : w.Serial (· = id) := by
  refine .of_idle hready.sound hready.idle ?_ hready.queue
  rintro id' rfl
  exact hready.uncached

/-- Without faults a `flush` returns no error. -/
theorem Serial.flush_ok (hserial : w.Serial S) {pc : FlushPc} {c' : Cache}
    {res : Except Errc Unit}
    (htask : w.pool.tasks[i]? = some (.flush id pc))
    (hstep : Cache.FlushStep w.pool.cache id pc ((w.replies i).getD .go) c'
      (.done res)) : res = .ok () := by
  have hwait := hserial.kept.sound.waits i _ htask
  have hcalm := hserial.calm _ (List.mem_of_getElem? htask)
  generalize hflow : Flow.done res = flow at hstep
  generalize hreply : (w.replies i).getD .go = reply at hstep
  cases hstep with
  | crash => cases hflow
  | nothing hclean => exact Flow.done.inj hflow
  | «open» entry hentry hdirty hfd => cases hflow
  | openFail err =>
      have hsome := Cache.getD_eq_of_ne_go hreply fun h => by cases h
      obtain ⟨fd, h, -⟩ := hwait.2 _ hsome
      cases h
  | send index addr fd fpc _ hslot hmem htook hmore => cases hflow
  | refused index addr fd fpc _ err hrefused =>
      cases fpc with
      | queued fut => exact absurd rfl (hcalm addr fut)
      | writing written len =>
          unfold Cache.Refused at hrefused
          split at hrefused
          · next heq => cases heq
          · have hsome := Cache.getD_eq_of_ne_go hreply fun h => by cases h
            obtain ⟨n, -, -, h⟩ := hwait.2.2.2 _ hsome
            cases h
          · exact hrefused.elim
  | loop pc _ c₁ indices henter hruns =>
      generalize (Cache.flushLoop id indices c₁).1 = cfinal at hruns
      generalize (Cache.flushLoop id indices c₁).2 = flow' at hruns hflow
      subst hflow
      cases hruns with
      | done c₂ hmoves => rfl

/-- A `flush` that ends leaves no dirty page of its file. -/
theorem Flushing.resume (hflushing : w.Flushing id) (hserial : w.Serial S)
    (hS : S id) (hresume : w.resume i = some w') (hintact : w'.Intact) :
    w'.Flushing id := by
  obtain ⟨task, c', task', others, hres⟩ :=
    hserial.resumption hresume hintact
  have hnot := hres.resumes.not_done
  rcases hflushing with ⟨pc, hmem⟩ | ⟨hidle, -⟩
  · obtain ⟨j, hj⟩ := List.mem_iff_getElem?.mp hmem
    have hij : j = i := by
      by_contra hne
      have hdone := (hserial.apart i j _ _ (Ne.symm hne) hres.task_eq
        hj).done_of_flush
      rw [hnot] at hdone
      cases hdone
    subst hij
    obtain rfl := Option.some.inj (hres.task_eq.symm.trans hj)
    have hresumes := hres.resumes
    rw [hres.world_eq]
    cases hresumes with
    | flushAwait _ _ pc' _ hstep =>
        exact .inl ⟨pc', List.mem_set hres.lt_length _⟩
    | flushDone _ _ _ res hstep =>
        obtain rfl := hserial.flush_ok hres.task_eq hstep
        refine .inr ⟨?_, ?_⟩
        · intro task₁ hmem₁
          rcases mem_set_cases hmem₁ with rfl | ⟨k, hne, hk⟩
          · rfl
          · exact (hserial.apart k j _ _ hne hk hres.task_eq).done_of_flush
        · have hpassed : ∀ index addr fd fpc, pc = .flushing index addr fd
              fpc → ∀ k < index, w.pool.cache.CleanAt ⟨id, k⟩ := by
            rintro index addr fd fpc rfl
            exact hserial.flushing id index addr fd fpc hmem
          rcases (hstep.clean (fun h => by cases h) hpassed).2 rfl with
            ⟨rfl, hflag⟩ | hclean
          · intro k addr hslot
            obtain ⟨hlive, hkey⟩ :=
              hserial.kept.sound.cache.layout.live_of_slot _ _ hslot
            by_contra hdirty
            have hmarked := hserial.kept.marked addr hlive
            rw [hkey] at hmarked
            exact hflag (hmarked hS (by simpa using hdirty))
          · exact hclean
  · have hdone := hidle task (List.mem_of_getElem? hres.task_eq)
    rw [hnot] at hdone
    cases hdone

theorem Flushing.step {event : Event} (hstep : w.step event = some w')
    (hguard : w.OneAtATime event w') (hcall : event.isCall = false)
    (hserial : w.Serial S) (hS : S id) (hflushing : w.Flushing id) :
    w'.Flushing id := by
  cases event with
  | call call => cases hcall
  | exec i accept =>
      obtain ⟨task, request, -, -, -, rfl⟩ := exec_cases hstep
      exact hflushing
  | resume i => exact hflushing.resume hserial hS hstep hguard

/-- The steps of a run without calls are steps of calls made one at a time. -/
theorem runs_without_calls {events : List Event}
    (hruns : Runs World.step (Gapless S) w events w')
    (hcalls : ∀ event ∈ events, event.isCall = false) :
    Runs World.step (fun w event w' =>
      w.OneAtATime event w' ∧ event.isCall = false) w events w' :=
  hruns.weaken fun event hmem _ _ hguard => ⟨hguard.1, hcalls event hmem⟩

theorem Flushing.runs {events : List Event}
    (hruns : Runs World.step (fun w event w' =>
      w.OneAtATime event w' ∧ event.isCall = false) w events w')
    (hserial : w.Serial S) (hS : S id) (hflushing : w.Flushing id) :
    w'.Flushing id :=
  (hruns.preserves (I := fun w => w.Serial S ∧ w.Flushing id)
    (fun hstep hguard h => ⟨h.1.step hstep hguard.1,
      h.2.step hstep hguard.1 hguard.2 h.1 hS⟩) ⟨hserial, hflushing⟩).2

theorem appliedAll_without_calls {events : List Event}
    (hcalls : ∀ event ∈ events, event.isCall = false) (file : List Byte) :
    appliedAll id file events = file := by
  induction events with
  | nil => rfl
  | cons event rest ih =>
      have hhead := hcalls event List.mem_cons_self
      have hrest := ih fun event hmem =>
        hcalls event (List.mem_cons_of_mem _ hmem)
      cases event with
      | call call => cases hhead
      | exec i accept => exact hrest
      | resume i => exact hrest

end

/-- Durability.  After calls made one at a time that write over no gap, a
`flush` ends: some step is possible while it is in progress, and it takes no
more steps than there is work.  When it has ended, the device has the file
with the writes overlaid in order. -/
theorem write_flush_durable {id : Id} {w w₁ w₂ : World}
    {writes rest : List Event} (hready : w.Ready id)
    (hwrites : Runs World.step (Gapless (· = id)) w writes w₁)
    (hflush : Runs World.step (Gapless (· = id)) w₁
      (.call (.flush id) :: rest) w₂)
    (hrest : ∀ event ∈ rest, event.isCall = false) :
    (w₂.pool.Idle → w₂.pool.cache.fileOf w₂.device id =
      appliedAll id (w.pool.cache.fileOf w.device id) writes) ∧
    (¬ w₂.pool.Idle →
      ∃ event w₃, event.isCall = false ∧ w₂.step event = some w₃) ∧
    rest.length ≤ work { w₁ with pool := w₁.pool.call (.flush id) } := by
  have hstart := tracks_of_uncached hready.sound rfl hready.idle
    hready.uncached
  obtain ⟨hserial₁, htracks₁⟩ := hstart.runs hwrites hready.serial rfl
  obtain ⟨hserial₂, htracks₂⟩ := htracks₁.runs hflush hserial₁ rfl
  cases hflush with
  | cons hstep hguard hruns =>
      obtain rfl := Option.some.inj hstep
      have hserial := hserial₁.call hguard.1.1 hguard.1.2
      have hruns' := runs_without_calls hruns hrest
      refine ⟨fun hidle => ?_, hserial₂.enabled, hserial.length_le hruns'⟩
      have hflushing : Flushing { w₁ with pool := w₁.pool.call (.flush id) }
          id := .inl ⟨.start, List.mem_append_right _ List.mem_cons_self⟩
      have hclean : ∀ k, w₂.pool.cache.CleanAt ⟨id, k⟩ := by
        rcases hflushing.runs hruns' hserial rfl with ⟨pc, hmem⟩ | ⟨-, hclean⟩
        · cases hidle _ hmem
        · exact hclean
      have hfile := htracks₂.file_eq hserial₂ rfl hidle hclean
      rw [hfile]
      change appliedAll id (appliedAll id _ writes) rest = _
      exact appliedAll_without_calls hrest _

theorem Opened.ready {w : World} (hopened : w.Opened) (id : Id) :
    w.Ready id where
  idle := by
    intro task hmem
    rw [hopened.tasks] at hmem
    cases hmem
  sound := hopened.sound
  uncached := fun k => hopened.slot ⟨id, k⟩
  queue := hopened.readQueue

end World

namespace PartialPage

/-- The steps of a `flush` as task 1 that sends one page. -/
def flushSteps : List Event :=
  [.resume 1, .exec 1 1, .resume 1, .exec 1 2, .resume 1]

/-- A write to the front of a page leaves the rest of the file. -/
theorem write_flush_durable_front : ∃ w₂ : World, w₂.pool.Idle ∧
    w₂.pool.cache.fileOf w₂.device ⟨1⟩ = [1, 1, 9] := by
  have hwrites : ∃ w₁, Runs World.step (World.Gapless (· = ⟨1⟩))
      (World.single 2 [7, 8, 9])
      [.call (.write ⟨1⟩ [1, 1] 0), .resume 0] w₁ ∧
      ∃ w₂, Runs World.step (World.Gapless (· = ⟨1⟩)) w₁
        (.call (.flush ⟨1⟩) :: flushSteps) w₂ ∧ w₂.pool.Idle := by
    refine ⟨_, .cons rfl ⟨⟨by decide, by decide, by decide, by decide⟩,
      trivial⟩ (.cons rfl ⟨(by decide : World.Intact _), ?_⟩ (.nil _)), _,
      .cons rfl ⟨⟨by decide, trivial⟩, trivial⟩
        (.cons rfl ⟨(by decide : World.Intact _), ?_⟩
          (.cons rfl ⟨trivial, trivial⟩
            (.cons rfl ⟨(by decide : World.Intact _), ?_⟩
              (.cons rfl ⟨trivial, trivial⟩
                (.cons rfl ⟨(by decide : World.Intact _), ?_⟩
                  (.nil _)))))), by decide⟩
    · intro r input pc n htask _ _ pos _ hlt
      obtain ⟨rfl, -, -⟩ := Task.writeAt.inj (Option.some.inj htask)
      exact absurd hlt (Nat.not_lt_zero pos)
    all_goals
      intro r input pc n htask
      cases htask
  obtain ⟨w₁, hwrites, w₂, hflush, hidle⟩ := hwrites
  have hdurable := World.write_flush_durable
    ((World.opened_single 2 [7, 8, 9]).ready ⟨1⟩) hwrites hflush (by decide)
  exact ⟨w₂, hidle, (hdurable.1 hidle).trans (by decide)⟩

/-- A write into a page whose old bytes were never fetched sends zeros for the
bytes before it. -/
theorem not_write_flush_durable : ¬ ∀ (id : Id) (w w₁ w₂ : World)
    (writes rest : List Event), w.Ready id →
    Runs World.step World.OneAtATime w writes w₁ →
    Runs World.step World.OneAtATime w₁ (.call (.flush id) :: rest) w₂ →
    (∀ event ∈ rest, event.isCall = false) → w₂.pool.Idle →
    w₂.pool.cache.fileOf w₂.device id =
      appliedAll id (w.pool.cache.fileOf w.device id) writes := by
  intro hall
  have hrun : ∃ w₁, Runs World.step World.OneAtATime
      (World.single 2 [1, 2, 3]) [.call (.write ⟨1⟩ [9] 1), .resume 0] w₁ ∧
      ∃ w₂, Runs World.step World.OneAtATime w₁
        (.call (.flush ⟨1⟩) :: flushSteps) w₂ ∧ w₂.pool.Idle ∧
        w₂.pool.cache.fileOf w₂.device ⟨1⟩ = [0, 9, 3] := by
    exact ⟨_, .cons rfl ⟨by decide, by decide, by decide, by decide⟩
      (.cons rfl (by decide : World.Intact _) (.nil _)), _,
      .cons rfl ⟨by decide, trivial⟩ (.cons rfl (by decide : World.Intact _)
        (.cons rfl trivial (.cons rfl (by decide : World.Intact _)
          (.cons rfl trivial (.cons rfl (by decide : World.Intact _)
            (.nil _)))))), by decide, by decide⟩
  obtain ⟨w₁, hwrites, w₂, hflush, hidle, hfile⟩ := hrun
  have hdurable := hall ⟨1⟩ _ w₁ w₂ _ flushSteps
    ((World.opened_single 2 [1, 2, 3]).ready ⟨1⟩) hwrites hflush (by decide)
    hidle
  rw [hfile] at hdurable
  exact absurd hdurable (by decide)

end PartialPage

end Madbfs
