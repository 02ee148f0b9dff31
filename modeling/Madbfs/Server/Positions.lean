/-
The server as a device without positions.  One step lemma for every request
gives what a whole run of them is to its clients.
-/
import Madbfs.Server.Copying

namespace Madbfs

namespace Rpc

namespace Server

open Rpc Program

variable {κ ι : Type}

section Steps

variable [DecidableEq ι] {kernel : Kernel κ} {view : κ → OpenFiles ι}
  {s s' : RequestHandler κ}

/-- One request. -/
theorem answers_step (h : kernel.Files view) {e : Exchange}
    (hstep : step kernel s e = some s') :
    (view s.kernel).toDevice.Answers e.1 e.2 (view s'.kernel).toDevice := by
  obtain ⟨req, response⟩ := e
  obtain ⟨⟨r, t⟩, hrun, hpair⟩ :=
    Option.map_eq_some_iff.mp (step_eq_some.mp hstep)
  obtain ⟨hresponse, hstate⟩ := Prod.mk.inj hpair
  dsimp only at hrun hresponse hstate ⊢
  subst hstate
  subst hresponse
  by_cases hreq : Shallow req
  · have hquiet := (quietly_handler h hreq s trivial r t hrun).1
    cases req with
    | truncate path size => exact absurd hreq id
    | copyFileRange inPath inOff outPath outOff size => exact absurd hreq id
    | «open» path mode => exact absurd hreq id
    | close fd => exact absurd hreq id
    | read fd offset out => exact absurd hreq id
    | write fd offset input => exact absurd hreq id
    | _ => exact hquiet
  · cases req with
    | truncate path size => exact answers_truncate h hrun
    | copyFileRange inPath inOff outPath outOff size =>
        exact answers_copyFileRange h hrun
    | «open» path mode => exact answers_open h hrun
    | close fd => exact answers_close h hrun
    | read fd offset out => exact answers_read h hrun
    | write fd offset input => exact answers_write h hrun
    | _ => exact absurd trivial hreq

/-- Whatever its clients have asked before, the server is a device whose files
are read, written and copied at the offsets of the requests. -/
theorem serves_of_runs (h : kernel.Files view) {exchanges : List Exchange}
    (hruns : Runs (step kernel) (fun _ _ _ => True) s exchanges s') :
    (view s.kernel).toDevice.Serves exchanges (view s'.kernel).toDevice := by
  induction hruns with
  | nil s => exact .nil _
  | cons hstep hguard hrest ih => exact .cons (answers_step h hstep) ih

end Steps

namespace OneFile

/-- There is one file, which has no number. -/
def view (k : OneFile) : OpenFiles Unit where
  name path := if path = OneFile.path then some () else none
  file fd := if fd = 3 then k.pos.map fun _ => () else none
  content _ := k.content
  pos fd := if fd = 3 then k.pos.getD 0 else 0

theorem file_other (k : OneFile) {fd : Int32} (hne : fd ≠ 3) :
    (view k).file fd = none :=
  if_neg hne

/-- What changes when the position does. -/
theorem view_seek {content : List Byte} {old : Nat} (pos : Nat) :
    view ⟨content, some pos⟩ = (view ⟨content, some old⟩).seek 3 pos := by
  refine OpenFiles.ext rfl rfl rfl (funext fun fd => ?_)
  by_cases hfd : fd = 3
  · subst hfd
    rw [OpenFiles.pos_seek]
    rfl
  · rw [OpenFiles.pos_seek_of_ne _ hfd]
    simp [view, hfd]

theorem file_update (content : List Byte) (old new : Option Nat) :
    (view ⟨content, new⟩).file =
      Function.update (view ⟨content, old⟩).file 3 (new.map fun _ => ()) := by
  funext fd
  by_cases hfd : fd = 3
  · subst hfd
    rw [Function.update_self]
    rfl
  · rw [Function.update_of_ne hfd, file_other _ hfd, file_other _ hfd]

theorem toDevice_closed (k : OneFile) (fd : Int32) :
    (view (k.closed fd).2).toDevice = { (view k).toDevice with
      file := Function.update (view k).file fd none } := by
  obtain ⟨content, pos⟩ := k
  by_cases hopen : fd = 3 ∧ pos.isSome
  · obtain ⟨rfl, hsome⟩ := hopen
    have hclosed : (closed ⟨content, pos⟩ 3).2 = ⟨content, none⟩ := by
      simp [closed, hsome]
    rw [hclosed]
    exact Device.ext rfl (file_update content pos none) rfl
  · have hclosed : (closed ⟨content, pos⟩ fd).2 = ⟨content, pos⟩ := by
      simp [closed, hopen]
    have hfile : (view ⟨content, pos⟩).file fd = none := by
      by_cases hfd : fd = 3
      · subst hfd
        cases pos with
        | none => rfl
        | some pos => exact absurd ⟨rfl, rfl⟩ hopen
      · exact file_other _ hfd
    rw [hclosed, ← hfile, Function.update_eq_self]

theorem files : OneFile.kernel.Files view where
  opened := by
    rintro path flags ⟨content, pos⟩ k' fd - hanswer
    simp only [OneFile.kernel, answer] at hanswer
    split_ifs at hanswer with hpath
    · cases hanswer
    · obtain rfl : path = OneFile.path := by
        by_contra hne
        exact hpath (.inl hne)
      cases pos with
      | some pos => cases hanswer
      | none =>
          cases hanswer
          refine ⟨rfl, file_update content none (some 0), rfl, ?_,
            fun _ => rfl⟩
          intro fd' hne
          simp [view]
  closed fd k := toDevice_closed k fd
  seeked := by
    rintro fd offset ⟨content, pos⟩ k' hanswer
    simp only [OneFile.kernel, answer] at hanswer
    split_ifs at hanswer with hopen hneg
    · cases hanswer
    · obtain ⟨rfl, hsome⟩ := hopen
      obtain ⟨old, rfl⟩ := Option.isSome_iff_exists.mp hsome
      cases hanswer
      exact ⟨by omega, view_seek _⟩
    · cases hanswer
  read := by
    rintro fd size ⟨content, pos⟩ k' bytes hanswer
    simp only [OneFile.kernel, answer] at hanswer
    split at hanswer
    · cases hanswer
    · next old hpos =>
        split_ifs at hpos with hfd
        subst hfd
        obtain rfl : pos = some old := hpos
        cases hanswer
        refine ⟨_, view_seek _, fun i _ => ⟨rfl, List.prefix_rfl, id⟩⟩
  written := by
    rintro fd bytes ⟨content, pos⟩ k' n hanswer
    simp only [OneFile.kernel, answer] at hanswer
    split at hanswer
    · cases hanswer
    · next old hpos =>
        split_ifs at hpos with hfd
        subst hfd
        obtain rfl : pos = some old := hpos
        cases hanswer
        refine ⟨_, rfl, ?_⟩
        rw [List.take_length]
        exact (view_seek _).trans rfl
  copied := by
    intro inFd outFd inOff outOff size n k k' hanswer
    cases hanswer
  refused := by
    intro inFd outFd inOff outOff size k k' err hanswer
    cases hanswer
    rfl
  truncated := by
    intro path size k k' hanswer
    cases hanswer
  failed := by
    intro α c k k' err hc hanswer
    cases c with
    | truncate path size =>
        cases hanswer
        rfl
    | «open» path flags =>
        simp only [OneFile.kernel, answer] at hanswer
        split_ifs at hanswer
        · cases hanswer
          rfl
        · split at hanswer <;> cases hanswer
          rfl
    | lseek fd offset =>
        simp only [OneFile.kernel, answer] at hanswer
        split_ifs at hanswer <;> cases hanswer <;> rfl
    | read fd size =>
        simp only [OneFile.kernel, answer] at hanswer
        split at hanswer <;> cases hanswer
        rfl
    | write fd bytes =>
        simp only [OneFile.kernel, answer] at hanswer
        split at hanswer <;> cases hanswer
        rfl
    | _ => cases hc
  quiet := by
    intro α c hc k
    cases c with
    | closedir dir => cases hc
    | truncate path size => cases hc
    | copyFileRange inFd inOff outFd outOff size => cases hc
    | «open» path flags => cases hc
    | close fd => cases hc
    | lseek fd offset => cases hc
    | read fd size => cases hc
    | write fd bytes => cases hc
    | _ => exact ⟨rfl, rfl⟩
  directory := by
    intro path k k' dir hanswer
    cases hanswer
  closedir := by
    intro dir k hdir
    have hclosed := toDevice_closed k dir
    rw [← hdir, Function.update_eq_self] at hclosed
    exact ⟨congrArg Device.file hclosed, congrArg Device.content hclosed⟩

/-- Reads and writes at other offsets than where the descriptor stands. -/
def transfers : List Exchange :=
  [(.open path ⟨2⟩, .success (.open 3)),
    (.write 3 1 [9, 9], .success (.write 2)),
    (.read 3 0 [0, 0], .success (.read [7, 9])),
    (.read 3 0 [0, 0], .success (.read [7, 9])),
    (.read 3 9 [0], .success (.read []))]

theorem runs_transfers :
    Runs (step OneFile.kernel) (fun _ _ _ => True) (.create ⟨[7, 8], none⟩)
      transfers (.create ⟨[7, 9, 9], some 9⟩) :=
  .cons rfl trivial <| .cons rfl trivial <| .cons rfl trivial <|
    .cons rfl trivial <| .cons rfl trivial <| .nil _

theorem serves_of_runs_transfers :
    (view ⟨[7, 8], none⟩).toDevice.Serves transfers
      (view ⟨[7, 9, 9], some 9⟩).toDevice :=
  serves_of_runs files runs_transfers

end OneFile

end Server

end Rpc

end Madbfs
