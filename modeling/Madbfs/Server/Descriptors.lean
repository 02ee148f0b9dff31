/-
The descriptors of the server.  A handler that opens one for itself closes it
again on each of its ways out, so the server holds what `Open` has answered and
`Close` has not taken back.
-/
import Mathlib.Data.Finset.Basic
import Madbfs.Run
import Madbfs.Server.RequestHandler

namespace Madbfs

namespace Rpc

namespace Server

open Rpc Program

variable {κ α : Type}

/-- How a kernel keeps the descriptors of a process.  A new one is not in use,
and one that is given back is free, even if the call fails. -/
structure Kernel.Tracks (kernel : Kernel κ) (fds : κ → Finset Int32) :
    Prop where
  acquired : ∀ {c : Call Int32}, Acquires c → ∀ {k k' : κ} {fd : Int32},
    kernel.answer c k = (.ok fd, k') →
      fd ∉ fds k ∧ fds k' = insert fd (fds k)
  refused : ∀ {c : Call Int32}, Acquires c → ∀ {k k' : κ} {err : Errc},
    kernel.answer c k = (.error err, k') → fds k' = fds k
  released : ∀ {c : Call Unit} {fd : Int32}, Releases c fd → ∀ k,
    fds (kernel.answer c k).2 = (fds k).erase fd
  still : ∀ {α : Type} {c : Call α}, c.Still → ∀ k,
    fds (kernel.answer c k).2 = fds k

/-- The descriptors are the ones that there were. -/
def keeping (fds : κ → Finset Int32) : Discipline (RequestHandler κ) where
  holds _ := True
  rel s s' := fds s'.kernel = fds s.kernel
  refl _ := rfl
  trans h h' := h'.trans h
  keeps _ _ := trivial

/-- The program leaves the descriptors as they are. -/
def Keeps (fds : κ → Finset Int32) (x : Handle κ α) : Prop :=
  ∀ s, x.Obeys (keeping fds) s fun _ _ => True

section Keeps

variable {kernel : Kernel κ} {fds : κ → Finset Int32} {β : Type}
  {x : Handle κ α}

theorem Keeps.apply (hx : Keeps fds x) {s s' : RequestHandler κ}
    {r : Except Errc α} (hrun : x s = some (r, s')) :
    fds s'.kernel = fds s.kernel :=
  (hx s trivial r s' hrun).1

theorem ordinary_keeps (h : kernel.Tracks fds) :
    Ordinary kernel fun _ (x : Handle κ _) => Keeps fds x where
  toClosed := obeys_closed (keeping fds)
  still := by
    intro α c hc s _ r s' hrun
    cases hrun
    exact ⟨h.still hc s.kernel, fun _ _ => trivial⟩

theorem Keeps.change {g : RequestHandler κ → RequestHandler κ}
    (hg : ∀ s, (g s).kernel = s.kernel) :
    Keeps fds (change g : Handle κ Unit) :=
  fun s => Obeys.change (fun _ => congrArg fds (hg s)) fun _ => trivial

/-- A descriptor that is given back when its scope is left. -/
theorem Keeps.scope (h : kernel.Tracks fds) {acquire : Call Int32}
    {release : Int32 → Call Unit} (hacquire : Acquires acquire)
    (hrelease : ∀ fd, Releases (release fd) fd) {body : Int32 → Handle κ β}
    (hbody : ∀ fd, Keeps fds (body fd)) :
    Keeps fds (Server.call kernel acquire >>= fun fd =>
      defer (Server.call kernel (release fd)) (body fd)) := by
  intro s _ r s' hrun
  refine ⟨?_, fun _ _ => trivial⟩
  rcases bind_cases hrun with ⟨err, hacq, -⟩ | ⟨fd, s₁, hacq, hscope⟩
  · obtain ⟨herr, hstate⟩ := Prod.mk.inj (Option.some.inj hacq)
    cases hstate
    exact h.refused hacquire (Prod.ext herr rfl)
  · obtain ⟨hok, hstate⟩ := Prod.mk.inj (Option.some.inj hacq)
    cases hstate
    obtain ⟨hfree, hopened⟩ := h.acquired hacquire (Prod.ext hok rfl)
    obtain ⟨s₂, u, hin, hout⟩ := defer_cases hscope
    cases hout
    have hclosed := h.released (hrelease fd) s₂.kernel
    change fds (kernel.answer (release fd) s₂.kernel).2 = fds s.kernel
    rw [hclosed, (hbody fd).apply hin]
    exact (congrArg (Finset.erase · fd) hopened).trans
      (Finset.erase_insert hfree)

/-- A handler gives back what it has opened for itself, whichever of its calls
fails. -/
theorem handler_keeps (h : kernel.Tracks fds) {req : Request}
    (hreq : ¬Handles req) : Keeps fds (handler kernel req) := by
  have hkeeps := ordinary_keeps h
  have hstate {β : Type} {f : RequestHandler κ → Handle κ β}
      (hf : ∀ s, Keeps fds (f s)) : Keeps fds (state >>= f) :=
    fun s => Obeys.bind_state (hf s s)
  exact hkeeps.handler
    (fun hacquire hrelease => Keeps.scope h hacquire hrelease)
    (hkeeps.handleRename hstate (Keeps.change fun _ => rfl))
    (hkeeps.copyOpened hstate (Keeps.change fun _ => rfl)) hreq

end Keeps

/-- What the server holds after an exchange: a successful `Open` adds the
descriptor it answers, and `Close` takes its one away. -/
def heldAfter (fds : Finset Int32) : Exchange → Finset Int32
  | (.open _ _, .success (.open fd)) => insert (toFd fd) fds
  | (.close fd, _) => fds.erase (toFd fd)
  | _ => fds

def held (fds : Finset Int32) (exchanges : List Exchange) : Finset Int32 :=
  exchanges.foldl heldAfter fds

/-- The descriptor that an exchange has opened. -/
def opened : Exchange → Option Int32
  | (.open _ _, .success (.open fd)) => some (toFd fd)
  | _ => none

section Runs

variable {kernel : Kernel κ} {fds : κ → Finset Int32}
  {s s' : RequestHandler κ}

/-- One exchange.  A descriptor that it opens is a new one. -/
theorem step_held (h : kernel.Tracks fds) {e : Exchange}
    (hstep : step kernel s e = some s') :
    fds s'.kernel = heldAfter (fds s.kernel) e ∧
      ∀ fd ∈ opened e, fd ∉ fds s.kernel := by
  obtain ⟨req, response⟩ := e
  obtain ⟨⟨r, t⟩, hrun, hpair⟩ :=
    Option.map_eq_some_iff.mp (step_eq_some.mp hstep)
  obtain ⟨hresponse, hstate⟩ := Prod.mk.inj hpair
  dsimp only at hrun hresponse hstate
  subst hstate
  by_cases hreq : Handles req
  · cases req with
    | «open» path mode =>
        rcases bind_cases hrun with ⟨err, hopen, rfl⟩ | ⟨fd, s₁, hopen, hrest⟩
        · obtain ⟨herr, hstate⟩ := Prod.mk.inj (Option.some.inj hopen)
          subst hstate
          subst hresponse
          refine ⟨h.refused (.open _ _) (Prod.ext herr rfl), fun fd hfd => ?_⟩
          cases hfd
        · obtain ⟨hok, hstate⟩ := Prod.mk.inj (Option.some.inj hopen)
          cases hrest
          subst hstate
          subst hresponse
          obtain ⟨hfree, hinsert⟩ :=
            h.acquired (.open _ _) (Prod.ext hok rfl)
          refine ⟨hinsert.trans ?_, fun fd' hfd => ?_⟩
          · rw [respond, heldAfter, toFd_ofFd]
          · rw [respond, opened, toFd_ofFd] at hfd
            cases hfd
            exact hfree
    | close fd =>
        have hkernel : t.kernel =
            (kernel.answer (.close (toFd fd)) s.kernel).2 := by
          rcases bind_cases hrun with ⟨err, hclose, -⟩ | ⟨u, s₁, hclose, hrest⟩
          · obtain ⟨-, hstate⟩ := Prod.mk.inj (Option.some.inj hclose)
            rw [← hstate]
          · obtain ⟨-, hstate⟩ := Prod.mk.inj (Option.some.inj hclose)
            cases hrest
            rw [← hstate]
        refine ⟨?_, fun fd hfd => by cases hfd⟩
        rw [hkernel, h.released (.close (toFd fd)), heldAfter]
    | _ => exact absurd hreq id
  · have hkept : fds t.kernel = fds s.kernel :=
      (handler_keeps h hreq).apply hrun
    cases req with
    | «open» path mode => exact absurd trivial hreq
    | close fd => exact absurd trivial hreq
    | _ => exact ⟨hkept, fun fd hfd => by cases hfd⟩

/-- Over any run the server holds exactly the descriptors that `Open` has
answered and `Close` has not taken back, and every one that `Open` answers was
free. -/
theorem descriptors_of_runs (h : kernel.Tracks fds) {exchanges : List Exchange}
    (hruns : Runs (step kernel) (fun _ _ _ => True) s exchanges s') :
    fds s'.kernel = held (fds s.kernel) exchanges ∧
      ∀ left e right, exchanges = left ++ e :: right →
        ∀ fd ∈ opened e, fd ∉ held (fds s.kernel) left := by
  induction hruns with
  | nil s =>
      refine ⟨rfl, fun left e right heq => ?_⟩
      cases left <;> cases heq
  | @cons s s₁ t e exchanges hstep hguard hrest ih =>
      obtain ⟨hone, hfresh⟩ := step_held h hstep
      obtain ⟨hmany, hrestFresh⟩ := ih
      rw [hone] at hmany hrestFresh
      refine ⟨hmany, fun left e' right heq fd hfd => ?_⟩
      cases left with
      | nil =>
          cases heq
          exact hfresh fd hfd
      | cons head left =>
          cases heq
          exact hrestFresh left e' right rfl fd hfd

end Runs

/-- A device with one file that can be open once.  The position of its
descriptor is there while it is. -/
structure OneFile where
  content : List Byte
  pos : Option Nat
deriving Repr, DecidableEq

namespace OneFile

def path : List Byte :=
  [47, 102]

def fds (k : OneFile) : Finset Int32 :=
  if k.pos.isSome then {3} else ∅

def tooManyFilesOpen : Errc :=
  ⟨24⟩

def permissionDenied : Errc :=
  ⟨13⟩

def closed (k : OneFile) (fd : Int32) : Except Errc Unit × OneFile :=
  if fd = 3 ∧ k.pos.isSome then (.ok (), { k with pos := none })
  else (.error Errc.badFileDescriptor, k)

theorem fds_closed (k : OneFile) (fd : Int32) :
    fds (k.closed fd).2 = (fds k).erase fd := by
  cases hpos : k.pos with
  | none => simp [closed, fds, hpos]
  | some pos =>
      by_cases hfd : fd = 3
      · simp [closed, fds, hpos, hfd]
      · simp [closed, fds, hpos, hfd]

/-- An old kernel, with neither `renameat2` nor `copy_file_range`, and a
process that may do nothing but open the file. -/
def answer {α : Type} : Call α → OneFile → Except Errc α × OneFile
  | .open path flags, k =>
      if path ≠ OneFile.path ∨ flags < 0 then
        (.error Errc.noSuchFileOrDirectory, k)
      else match k.pos with
        | some _ => (.error tooManyFilesOpen, k)
        | none => (.ok 3, { k with pos := some 0 })
  | .close fd, k => k.closed fd
  | .closedir dir, k => k.closed dir
  | .lseek fd offset, k =>
      if fd = 3 ∧ k.pos.isSome then
        if offset.toInt < 0 then (.error Errc.invalidArgument, k)
        else (.ok (), { k with pos := some offset.toInt.toNat })
      else (.error Errc.badFileDescriptor, k)
  | .read fd size, k =>
      match if fd = 3 then k.pos else none with
      | none => (.error Errc.badFileDescriptor, k)
      | some pos =>
          let bytes := Bytes.slice k.content pos size
          (.ok ⟨bytes, (Bytes.length_slice k.content pos size).trans_le
            (Nat.min_le_left _ _)⟩,
            { k with pos := some (pos + bytes.length) })
  | .write fd bytes, k =>
      match if fd = 3 then k.pos else none with
      | none => (.error Errc.badFileDescriptor, k)
      | some pos => (.ok ⟨bytes.length, Nat.le_refl _, id⟩,
          { content := Bytes.overlay k.content pos bytes
            pos := some (pos + bytes.length) })
  | .renameat2 _ _ _, k => (.error functionNotSupported, k)
  | .copyFileRange _ _ _ _ _, k => (.error functionNotSupported, k)
  | .readdir _, k => (.error Errc.badFileDescriptor, k)
  | .fstatat _ _, k => (.error Errc.badFileDescriptor, k)
  | .opendir _, k => (.error permissionDenied, k)
  | .lstat _, k => (.error permissionDenied, k)
  | .readlink _ _, k => (.error permissionDenied, k)
  | .mknod _ _ _, k => (.error permissionDenied, k)
  | .mkdir _ _, k => (.error permissionDenied, k)
  | .unlink _, k => (.error permissionDenied, k)
  | .rmdir _, k => (.error permissionDenied, k)
  | .renameat _ _, k => (.error permissionDenied, k)
  | .truncate _ _, k => (.error permissionDenied, k)
  | .utimensat _ _ _, k => (.error permissionDenied, k)

def kernel : Kernel OneFile :=
  ⟨answer⟩

theorem tracks : kernel.Tracks fds where
  acquired := by
    intro c hc k k' fd hanswer
    cases hc with
    | opendir path => cases hanswer
    | «open» path flags =>
        simp only [kernel, answer] at hanswer
        split_ifs at hanswer
        · cases hanswer
        · cases hpos : k.pos with
          | some pos =>
              rw [hpos] at hanswer
              cases hanswer
          | none =>
              rw [hpos] at hanswer
              cases hanswer
              simp [fds, hpos]
  refused := by
    intro c hc k k' err hanswer
    cases hc with
    | opendir path =>
        cases hanswer
        rfl
    | «open» path flags =>
        simp only [kernel, answer] at hanswer
        split_ifs at hanswer
        · cases hanswer
          rfl
        · split at hanswer
          · cases hanswer
            rfl
          · cases hanswer
  released := by
    intro c fd hc k
    cases hc with
    | closedir dir => exact fds_closed k _
    | close fd => exact fds_closed k _
  still := by
    intro α c hc k
    cases c with
    | opendir path => cases hc
    | closedir dir => cases hc
    | «open» path flags => cases hc
    | close fd => cases hc
    | lseek fd offset =>
        simp only [kernel, answer]
        split_ifs with hopen
        · rfl
        · simp [fds, hopen.2]
        · rfl
    | read fd size =>
        simp only [kernel, answer]
        split
        · rfl
        · next pos hpos =>
            have hsome : k.pos = some pos := by
              split_ifs at hpos
              exact hpos
            simp [fds, hsome]
    | write fd bytes =>
        simp only [kernel, answer]
        split
        · rfl
        · next pos hpos =>
            have hsome : k.pos = some pos := by
              split_ifs at hpos
              exact hpos
            simp [fds, hsome]
    | _ => rfl

/-- The file is opened, copied onto itself, which needs a second descriptor,
read and closed, and opened again. -/
def exchanges : List Exchange :=
  [(.open path ⟨2⟩, .success (.open 3)),
    (.copyFileRange path 0 path 4 4, .failed .copyFileRange tooManyFilesOpen),
    (.read 3 1 [0, 0], .success (.read [8])),
    (.close 3, .success .close),
    (.copyFileRange path 0 path 4 4, .failed .copyFileRange tooManyFilesOpen),
    (.open path ⟨2⟩, .success (.open 3))]

theorem runs_exchanges :
    Runs (step kernel) (fun _ _ _ => True) (.create ⟨[7, 8], none⟩) exchanges
      (.create ⟨[7, 8], some 0⟩) :=
  .cons rfl trivial <| .cons rfl trivial <| .cons rfl trivial <|
    .cons rfl trivial <| .cons rfl trivial <| .cons rfl trivial <| .nil _

theorem descriptors_of_runs_exchanges :
    fds ⟨[7, 8], some 0⟩ = held ∅ exchanges :=
  (descriptors_of_runs tracks runs_exchanges).1

end OneFile

end Server

end Rpc

end Madbfs
