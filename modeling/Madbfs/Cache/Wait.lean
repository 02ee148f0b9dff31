/-
What the suspended operations rely on while others run.  A wait is the part of
a program counter that matters to the rest of the system; its soundness says
what the cache and the device keep for it, and that the device answered it
without a fault.
-/
import Madbfs.Cache.Frame

namespace Madbfs

open Bytes

/-- What a suspended operation waits for. -/
inductive Wait where
  | other
  | opening (id : Id)
  | openingPage (page : Addr)
  | fetching (key : PageKey) (fd : Fd) (fut : Fut)
  | queued (page : Addr) (fut : Fut)
  | sending (page : Addr) (fd : Fd) (written len : Nat)

def FlushAtPc.wait (page : Addr) (fd : Fd) : FlushAtPc → Wait
  | .queued fut => .queued page fut
  | .writing written len => .sending page fd written len

def EvictPc.wait : EvictPc → Wait
  | .opening page _ => .openingPage page
  | .flushing page fd _ pc => pc.wait page fd

def ReadAtPc.wait (r : Range) : ReadAtPc → Wait
  | .start => .other
  | .queued _ => .other
  | .opening => .opening r.id
  | .fetching fd fut => .fetching r.key fd fut
  | .evicting _ pc => pc.wait

def WriteAtPc.wait : WriteAtPc → Wait
  | .start => .other
  | .queued _ => .other
  | .evicting _ pc => pc.wait

def FlushPc.wait (id : Id) : FlushPc → Wait
  | .start => .other
  | .opening => .opening id
  | .flushing _ page fd pc => pc.wait page fd

namespace Cache

/-- The descriptor leads to the file. -/
def ValidFd (c : Cache) (d : Device) (id : Id) (fd : Fd) : Prop :=
  ∀ path, c.pathOf id = some path → d.fds fd = some path

/-- A registered fetch is still running. -/
structure Queue (c : Cache) : Prop where
  lt_next : ∀ key fut, c.readQueue.lookup key = some fut → fut < c.nextFut
  unset : ∀ key fut, c.readQueue.lookup key = some fut →
    c.promises fut = none
  fresh : ∀ fut, c.nextFut ≤ fut → c.promises fut = none

end Cache

/-- What holds for a suspended operation; `reply` is the answer of the device
that is not delivered yet. -/
def Wait.Sound (S : Id → Prop) (c : Cache) (d : Device)
    (held : Multiset Addr) (reply : Option Reply) : Wait → Prop
  | .other => reply = none
  | .opening id => (c.pathOf id).isSome ∧ ∀ rep, reply = some rep →
      ∃ fd, rep = .opened (.ok fd) ∧ c.ValidFd d id fd
  | .openingPage page => page < c.nextAddr ∧ ∀ rep, reply = some rep →
      ∃ fd, rep = .opened (.ok fd) ∧ c.ValidFd d (c.heap page).key.id fd
  | .fetching key fd fut => (c.pathOf key.id).isSome ∧
      c.ValidFd d key.id fd ∧ fut < c.nextFut ∧
      (∀ key', c.readQueue.lookup key' = some fut → key' = key) ∧
      ∀ rep, reply = some rep → ∃ bytes, rep = .fetched (.ok bytes)
  | .queued page fut => page < c.nextAddr ∧ reply = none ∧
      (page ∈ c.live held →
        c.readQueue.lookup (c.heap page).key = some fut ∧
          c.promises fut = none)
  | .sending page fd written len => page < c.nextAddr ∧
      (page ∈ c.live held → c.ValidFd d (c.heap page).key.id fd ∧
        written + len ≤ (c.heap page).size ∧
        (S (c.heap page).key.id → c.Agrees d (c.heap page)
          ((FlushAtPc.writing written len).sent reply))) ∧
      0 < len ∧ ∀ rep, reply = some rep →
        ∃ n, 0 < n ∧ n ≤ len ∧ rep = .written (.ok n)

namespace Cache

section

variable {S : Id → Prop} {c c' : Cache} {d : Device}
  {held held' : Multiset Addr} {reply : Option Reply} {wait : Wait}

theorem ValidFd.keep {id : Id} {fd : Fd} (hvalid : c.ValidFd d id fd)
    (hpath : ∀ id, c'.pathOf id = c.pathOf id) : c'.ValidFd d id fd := by
  intro path hpath'
  exact hvalid path (hpath id ▸ hpath')

/-- A suspended operation is not disturbed by a step that leaves the bytes the
device has of its page, and its future. -/
theorem wait_sound_keep (hsound : wait.Sound S c d held reply)
    (hkeeps : Keeps (c, held) (c', held'))
    (hdata : ∀ page fd written len, wait = .sending page fd written len →
      ∀ pos < (FlushAtPc.writing written len).sent reply,
        valueAt (c'.heap page).data pos = valueAt (c.heap page).data pos)
    (hfetch : ∀ key fd fut, wait = .fetching key fd fut →
      fut < c'.nextFut ∧
        ∀ key', c'.readQueue.lookup key' = some fut → key' = key)
    (hqueue : ∀ page fut, wait = .queued page fut → page ∈ c'.live held' →
      c'.readQueue.lookup (c.heap page).key = some fut ∧
        c'.promises fut = none) :
    wait.Sound S c' d held' reply := by
  cases wait with
  | other => exact hsound
  | opening id =>
      obtain ⟨hsome, hreply⟩ := hsound
      have hpath : c'.pathOf id = c.pathOf id := hkeeps.path id
      refine ⟨hpath ▸ hsome, ?_⟩
      intro rep hrep
      obtain ⟨fd, rfl, hvalid⟩ := hreply rep hrep
      exact ⟨fd, rfl, hvalid.keep hkeeps.path⟩
  | openingPage page =>
      obtain ⟨hlt, hreply⟩ := hsound
      refine ⟨Nat.lt_of_lt_of_le hlt hkeeps.next, ?_⟩
      intro rep hrep
      obtain ⟨fd, rfl, hvalid⟩ := hreply rep hrep
      have hkey : (c'.heap page).key = (c.heap page).key :=
        hkeeps.key page hlt
      rw [hkey]
      exact ⟨fd, rfl, hvalid.keep hkeeps.path⟩
  | fetching key fd fut =>
      obtain ⟨hsome, hvalid, -, -, hreply⟩ := hsound
      obtain ⟨hlt, hown⟩ := hfetch key fd fut rfl
      have hpath : c'.pathOf key.id = c.pathOf key.id := hkeeps.path key.id
      exact ⟨hpath ▸ hsome, hvalid.keep hkeeps.path, hlt, hown, hreply⟩
  | queued page fut =>
      obtain ⟨hlt, hreply, -⟩ := hsound
      have hkey : (c'.heap page).key = (c.heap page).key :=
        hkeeps.key page hlt
      refine ⟨Nat.lt_of_lt_of_le hlt hkeeps.next, hreply, fun hmem => ?_⟩
      rw [hkey]
      exact hqueue page fut rfl hmem
  | sending page fd written len =>
      obtain ⟨hlt, hpage, hreply⟩ := hsound
      have hkey : (c'.heap page).key = (c.heap page).key :=
        hkeeps.key page hlt
      refine ⟨Nat.lt_of_lt_of_le hlt hkeeps.next, fun hmem => ?_, hreply⟩
      obtain ⟨hvalid, hle, hagrees⟩ := hpage (hkeeps.live page hlt hmem)
      rw [hkey]
      refine ⟨hvalid.keep hkeeps.path,
        Nat.le_trans hle (hkeeps.size page hlt), fun hS => ?_⟩
      have hold := hagrees hS
      have hfile : c'.fileOf d (c.heap page).key.id =
          c.fileOf d (c.heap page).key.id := by
        rw [fileOf, fileOf, hkeeps.path]
      have hsize : c'.pageSize = c.pageSize := hkeeps.pageSize
      refine ⟨fun pos hpos => ?_, fun hpos => ?_⟩
      · rw [hdata page fd written len rfl pos hpos, filePos, hkey, hfile,
          hsize]
        exact hold.valueAt_eq pos hpos
      · rw [filePos, hkey, hfile, hsize]
        exact hold.le_length hpos

/-- An operation that was suspended in `flush_at` just now is sound. -/
theorem flushAt_wait_sound {page : Addr} {fd : Fd} {pc : FlushAtPc}
    (hqueue : Queue c) (hlt : page < c.nextAddr) (hfresh : pc.Fresh c page)
    (hvalid : c.ValidFd d (c.heap page).key.id fd) :
    (pc.wait page fd).Sound S c d held none := by
  cases pc with
  | queued fut => exact ⟨hlt, rfl, fun _ => ⟨hfresh, hqueue.unset _ _ hfresh⟩⟩
  | writing written len =>
      obtain ⟨rfl, rfl, hpos⟩ := hfresh
      refine ⟨hlt, fun _ => ⟨hvalid, Nat.le_of_eq (Nat.zero_add _), ?_⟩,
        hpos, fun rep hrep => (by cases hrep)⟩
      exact fun _ => agrees_zero c d _

theorem validFd_of_writeFd (hsound : Sound S c d held) {id : Id} {fd : Fd}
    (hfd : ∀ entry, c.lookup id = some entry → entry.writeFd = some fd) :
    c.ValidFd d id fd := by
  intro path hpath
  obtain ⟨entry, hentry, rfl⟩ := Option.map_eq_some_iff.mp hpath
  exact hsound.writeFd id entry fd hentry (hfd entry hentry)

theorem evict_wait_sound {pc : EvictPc} (hsound : Sound S c d held)
    (hqueue : Queue c) (hmem : pc.page ∈ held) (hfresh : pc.Fresh c) :
    pc.wait.Sound S c d held none := by
  have hlt := hsound.layout.lt_next pc.page (mem_live.mpr (.inr hmem))
  cases pc with
  | opening page rest => exact ⟨hlt, fun rep hrep => (by cases hrep)⟩
  | flushing page fd rest pc =>
      exact flushAt_wait_sound hqueue hlt hfresh.1
        (validFd_of_writeFd hsound hfresh.2)

/-- In a run without faults `flush_at` is only resumed with an answer of the
device that took some of its bytes. -/
theorem flushAt_took {page : Addr} {fd : Fd} {pc : FlushAtPc}
    (hwait : (pc.wait page fd).Sound S c d held reply)
    (hlive : page ∈ c.live held) (htook : Took c pc (reply.getD .go)) :
    ∃ written len, pc = .writing written len ∧
      pc.sent (some (reply.getD .go)) = pc.sent reply ∧
      c.ValidFd d (c.heap page).key.id fd ∧
      written + len ≤ (c.heap page).size ∧
      pc.sent reply ≤ written + len ∧
      (S (c.heap page).key.id → c.Agrees d (c.heap page) (pc.sent reply)) := by
  cases pc with
  | queued fut =>
      obtain ⟨-, rfl, hpage⟩ := hwait
      have hset : c.promises fut = some ⟨0⟩ := htook
      rw [(hpage hlive).2] at hset
      cases hset
  | writing written len =>
      obtain ⟨-, hpage, -, hreply⟩ := hwait
      obtain ⟨hvalid, hle, hagrees⟩ := hpage hlive
      cases reply with
      | none => exact htook.elim
      | some rep =>
          obtain ⟨n, -, hn, rfl⟩ := hreply rep rfl
          refine ⟨written, len, rfl, rfl, hvalid, hle, ?_, hagrees⟩
          change written + n ≤ written + len
          omega

theorem flushAt_not_refused {page : Addr} {fd : Fd} {pc : FlushAtPc}
    (hwait : (pc.wait page fd).Sound S c d held reply)
    (hlive : page ∈ c.live held) : ¬ Refused c pc (reply.getD .go) := by
  intro hrefused
  cases pc with
  | queued fut =>
      obtain ⟨-, rfl, hpage⟩ := hwait
      obtain ⟨err, hset, -⟩ := hrefused
      rw [(hpage hlive).2] at hset
      cases hset
  | writing written len =>
      obtain ⟨-, -, -, hreply⟩ := hwait
      cases reply with
      | none => exact hrefused
      | some rep =>
          obtain ⟨n, -, -, rfl⟩ := hreply rep rfl
          exact hrefused

theorem evictAllowed_of_wait {pc : EvictPc} {allowed : Page → Prop}
    (hwait : pc.wait.Sound S c d held reply) (hmem : pc.page ∈ held) :
    EvictAllowed (soundGrant S d allowed) c pc (reply.getD .go) := by
  have hlive : pc.page ∈ c.live held := mem_live.mpr (.inr hmem)
  cases pc with
  | opening page rest =>
      cases reply with
      | none => trivial
      | some rep =>
          obtain ⟨fd, rfl, hvalid⟩ := hwait.2 rep rfl
          exact hvalid
  | flushing page fd rest pc =>
      refine ⟨fun htook hsent hS => ?_, flushAt_not_refused hwait hlive⟩
      obtain ⟨written, len, -, heq, -, -, -, hagrees⟩ :=
        flushAt_took hwait hlive htook
      rw [heq] at hsent
      exact (hagrees hS).mono hsent

/-- The wait of an eviction that asks the device to take more of the page. -/
theorem send_wait_sound {page : Addr} {fd : Fd} {pc : FlushAtPc}
    (hwait : (pc.wait page fd).Sound S c d held reply)
    (hlive : page ∈ c.live held) (htook : Took c pc (reply.getD .go))
    (hmore : pc.sent (some (reply.getD .go)) < (c.heap page).size) :
    (Wait.sending page fd (pc.sent (some (reply.getD .go)))
      ((c.heap page).size - pc.sent (some (reply.getD .go)))).Sound S c d held
        none := by
  obtain ⟨written, len, rfl, heq, hvalid, hle, -, hagrees⟩ :=
    flushAt_took hwait hlive htook
  obtain ⟨hlt, -, -⟩ := hwait
  refine ⟨hlt, fun _ => ⟨hvalid, by omega, ?_⟩, by omega,
    fun rep hrep => (by cases hrep)⟩
  rw [heq]
  exact hagrees

theorem EvictStep.wait_sound {π α : Type} {wrap : EvictPc → π}
    {finish : Cache → Cache × Flow π α} {pc pc' : EvictPc}
    (hinj : ∀ pc pc', wrap pc = wrap pc' → pc = pc')
    (hdone : ∀ c pc, (finish c).2 ≠ .await (wrap pc))
    (hstep : EvictStep c held wrap finish (reply.getD .go) pc c'
      (.await (wrap pc')))
    (hwait : pc.wait.Sound S c d (pc.page ::ₘ held) reply)
    (hsound : Sound S c' d (pc'.page ::ₘ held)) (hqueue : Queue c') :
    pc'.wait.Sound S c' d (pc'.page ::ₘ held) none := by
  generalize hflow : Flow.await (wrap pc') = flow at hstep
  cases hstep with
  | send addr fd rest pc htook hmore =>
      obtain rfl := hinj _ _ (Flow.await.inj hflow)
      exact send_wait_sound hwait
        (mem_live.mpr (.inr (Multiset.mem_cons_self _ _))) htook hmore
  | rounds pc c₁ start _ _ hbegin hthen =>
      cases hthen with
      | await _ pc'' hmoves hfresh =>
          obtain rfl := hinj _ _ (Flow.await.inj hflow)
          exact evict_wait_sound hsound hqueue (Multiset.mem_cons_self _ _)
            hfresh
      | finish c₂ hmoves => exact absurd hflow.symm (hdone c₂ pc')

end

end Cache

end Madbfs
