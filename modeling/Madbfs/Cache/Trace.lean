/-
A coroutine that runs alone.  It is resumed with one reply after the other, and
a log keeps which reply it was given at which suspension point.  From the log
one reads which bytes of a page the device has accepted.  The replies can be
those of a device that serves some requests and fails others.
-/
import Madbfs.Cache.Engine
import Madbfs.Run

namespace Madbfs

open Bytes

/-- A coroutine that runs alone, with the replies it was given, the latest one
first. -/
structure Trace (π α : Type) where
  cache : Cache
  flow : Flow π α
  log : List (π × Reply)

namespace Trace

variable {π α : Type}

/-- The coroutine at its first suspension point. -/
def start (x : Cache × Flow π α) : Trace π α :=
  ⟨x.1, x.2, []⟩

def step (resume : Cache → π → Reply → Option (Cache × Flow π α))
    (t : Trace π α) (reply : Reply) : Option (Trace π α) :=
  match t.flow with
  | .await pc =>
      (resume t.cache pc reply).map fun x => ⟨x.1, x.2, (pc, reply) :: t.log⟩
  | _ => none

/-- The runs of a coroutine that may be given any replies. -/
abbrev AnyRuns (resume : Cache → π → Reply → Option (Cache × Flow π α)) :
    Trace π α → List Reply → Trace π α → Prop :=
  Runs (step resume) fun _ _ _ => True

theorem step_cases {resume : Cache → π → Reply → Option (Cache × Flow π α)}
    {t t' : Trace π α} {reply : Reply} (hstep : t.step resume reply = some t') :
    ∃ pc x, t.flow = .await pc ∧ resume t.cache pc reply = some x ∧
      t' = ⟨x.1, x.2, (pc, reply) :: t.log⟩ := by
  unfold step at hstep
  split at hstep
  · next pc hflow =>
      obtain ⟨x, hx, rfl⟩ := Option.map_eq_some_iff.mp hstep
      exact ⟨pc, x, hflow, hx, rfl⟩
  · cases hstep

end Trace

/-- The page that `flush_at` sends, and the position up to which it has. -/
def FlushAtPc.sends (addr : Addr) : FlushAtPc → Option (Addr × Nat)
  | .queued _ => none
  | .writing written _ => some (addr, written)

def EvictPc.sends : EvictPc → Option (Addr × Nat)
  | .opening _ _ => none
  | .flushing addr _ _ pc => pc.sends addr

def FlushPc.sends : FlushPc → Option (Addr × Nat)
  | .flushing _ addr _ pc => pc.sends addr
  | _ => none

section

variable {π : Type} {sends : π → Option (Addr × Nat)}
  {log : List (π × Reply)} {pc : π}

/-- The device has accepted a byte of a page: it is one of the first bytes of
a write, as many as the device has reported. -/
def Accepted (sends : π → Option (Addr × Nat)) (log : List (π × Reply))
    (addr : Addr) (pos : Nat) : Prop :=
  ∃ pc written n, (pc, .written (.ok n)) ∈ log ∧
    sends pc = some (addr, written) ∧ written ≤ pos ∧ pos < written + n

/-- The bytes before the position that a coroutine has sent up to are with the
device. -/
def Reached (sends : π → Option (Addr × Nat)) (log : List (π × Reply))
    (pc : π) : Prop :=
  ∀ addr written, sends pc = some (addr, written) →
    ∀ pos < written, Accepted sends log addr pos

theorem Accepted.cons {addr : Addr} {pos : Nat}
    (haccepted : Accepted sends log addr pos) (event : π × Reply) :
    Accepted sends (event :: log) addr pos := by
  obtain ⟨pc, written, n, hmem, hrest⟩ := haccepted
  exact ⟨pc, written, n, List.mem_cons_of_mem event hmem, hrest⟩

theorem reached_of_none (hsends : sends pc = none) : Reached sends log pc := by
  intro addr written hsome
  rw [hsends] at hsome
  cases hsome

/-- What one reply adds to the bytes that are accepted. -/
theorem accepted_cons {reply : Reply} {addr : Addr} {pos : Nat} :
    Accepted sends ((pc, reply) :: log) addr pos ↔
      (∃ written n, reply = .written (.ok n) ∧
        sends pc = some (addr, written) ∧ written ≤ pos ∧ pos < written + n) ∨
      Accepted sends log addr pos := by
  constructor
  · rintro ⟨pc', written, n, hmem, hsends, hle, hlt⟩
    rcases List.mem_cons.mp hmem with heq | hmem
    · obtain ⟨rfl, rfl⟩ := Prod.mk.inj heq
      exact .inl ⟨written, n, rfl, hsends, hle, hlt⟩
    · exact .inr ⟨pc', written, n, hmem, hsends, hle, hlt⟩
  · rintro (⟨written, n, rfl, hsends, hle, hlt⟩ | haccepted)
    · exact ⟨pc, written, n, List.mem_cons_self, hsends, hle, hlt⟩
    · exact haccepted.cons _

/-- A reply that is no successful write adds nothing. -/
theorem accepted_cons_other {reply : Reply} {addr : Addr} {pos : Nat}
    (hother : ∀ n, reply ≠ .written (.ok n)) :
    Accepted sends ((pc, reply) :: log) addr pos ↔
      Accepted sends log addr pos := by
  rw [accepted_cons]
  refine ⟨fun h => h.resolve_left ?_, .inr⟩
  rintro ⟨written, n, heq, -⟩
  exact hother n heq

/-- `flush_at` is suspended first before it has sent anything. -/
theorem reached_of_fresh {c : Cache} {addr : Addr} {fpc : FlushAtPc}
    (hsends : sends pc = fpc.sends addr) (hfresh : fpc.Fresh c addr) :
    Reached sends log pc := by
  cases fpc with
  | queued fut => exact reached_of_none hsends
  | writing written len =>
      intro addr' written' hsome pos hlt
      rw [hsends] at hsome
      obtain ⟨-, rfl⟩ := Prod.mk.inj (Option.some.inj hsome)
      rw [hfresh.1] at hlt
      cases hlt

/-- The bytes that are sent when `flush_at` is resumed without a failure are
with the device. -/
theorem Reached.sent (hreached : Reached sends log pc) {c : Cache}
    {addr : Addr} {fpc : FlushAtPc} (hsends : sends pc = fpc.sends addr)
    {reply : Reply} (htook : Cache.Took c fpc reply) :
    ∀ pos < fpc.sent (some reply),
      Accepted sends ((pc, reply) :: log) addr pos := by
  intro pos hlt
  cases fpc with
  | queued fut => cases hlt
  | writing written len =>
      by_cases hold : pos < written
      · exact (hreached addr written hsends pos hold).cons (pc, reply)
      · cases reply with
        | written res =>
            cases res with
            | error err => exact htook.elim
            | ok n =>
                exact ⟨pc, written, n, List.mem_cons_self, hsends,
                  Nat.le_of_not_lt hold, hlt⟩
        | _ => exact htook.elim

end

/-- What a device does with a request: it serves it, accepting some bytes if
it is a write, or it fails and leaves everything as it is. -/
inductive Answer where
  | serve (accept : Nat)
  | fail (err : Errc)

/-- The request was served. -/
def Answer.Serves : Answer → Prop
  | .serve _ => True
  | .fail _ => False

/-- The reply to a request that failed. -/
def Request.refuse (err : Errc) : Request → Reply
  | .open _ _ => .opened (.error err)
  | .close _ => .closed (.error err)
  | .read _ _ _ => .fetched (.error err)
  | .write _ _ _ => .written (.error err)

/-- A coroutine that runs alone is answered, or woken if it waits for no
device. -/
def Device.answer (d : Device) (answer : Answer) :
    Option Request → Device × Reply
  | none => (d, .go)
  | some request =>
      match answer with
      | .serve accept => d.exec accept request
      | .fail err => (d, request.refuse err)

/-- A coroutine that runs alone on a device. -/
structure Served (π α : Type) where
  trace : Trace π α
  device : Device

namespace Served

variable {π α : Type}

def step (resume : Cache → π → Reply → Option (Cache × Flow π α))
    (request : Cache → π → Option Request) (s : Served π α)
    (answer : Answer) : Option (Served π α) :=
  match s.trace.flow with
  | .await pc =>
      let x := s.device.answer answer (request s.trace.cache pc)
      (s.trace.step resume x.2).map fun trace => ⟨trace, x.1⟩
  | _ => none

theorem step_cases {resume : Cache → π → Reply → Option (Cache × Flow π α)}
    {request : Cache → π → Option Request} {s s' : Served π α}
    {answer : Answer} (hstep : s.step resume request answer = some s') :
    ∃ pc reply, s.trace.flow = .await pc ∧
      s.device.answer answer (request s.trace.cache pc) = (s'.device, reply) ∧
      s.trace.step resume reply = some s'.trace ∧
      s'.trace.log = (pc, reply) :: s.trace.log := by
  unfold step at hstep
  split at hstep
  · next pc hflow =>
      obtain ⟨t, ht, rfl⟩ := Option.map_eq_some_iff.mp hstep
      obtain ⟨pc', x, hflow', -, heq⟩ := Trace.step_cases ht
      obtain rfl := Flow.await.inj (hflow.symm.trans hflow')
      exact ⟨pc, _, hflow, rfl, ht, congrArg Trace.log heq⟩
  · cases hstep

end Served

end Madbfs
