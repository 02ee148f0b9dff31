/-
Soundness of the whole system: the cache, the device and every suspended
operation.  It is kept by calls of `read`, `write` and `flush`, by the device,
and by every resumption that inserts no stale page and overwrites no byte of a
page while it is being sent.
-/
import Madbfs.Cache.Resume

namespace Madbfs

open Bytes

namespace Task

/-- The pages held by the eviction of a suspended task. -/
def held : Task → Multiset Addr
  | .readAt _ pc => pc.held
  | .writeAt _ _ pc => pc.held
  | .truncate _ _ _ (.evicting _ pc) => {pc.page}
  | _ => 0

def wait : Task → Wait
  | .readAt r pc => pc.wait r
  | .writeAt _ _ pc => pc.wait
  | .flush id pc => pc.wait id
  | _ => .other

def isCrashed : Task → Bool
  | .crashed => true
  | _ => false

/-- The tasks of `read`, `write` and `flush`. -/
def Plain : Task → Prop
  | .readAt _ _ => True
  | .writeAt _ _ _ => True
  | .flush _ _ => True
  | .didRead _ _ => True
  | .didWrite _ _ => True
  | .finished _ => True
  | _ => False

/-- The pages held by all tasks. -/
def heldAll : List Task → Multiset Addr
  | [] => 0
  | task :: rest => task.held + heldAll rest

theorem heldAll_append (left right : List Task) :
    heldAll (left ++ right) = heldAll left + heldAll right := by
  induction left with
  | nil => exact (Multiset.zero_add _).symm
  | cons task rest ih =>
      simp only [List.cons_append, heldAll, ih, Multiset.add_assoc]

theorem heldAll_eq_zero {tasks : List Task}
    (hnone : ∀ task ∈ tasks, task.held = 0) : heldAll tasks = 0 := by
  induction tasks with
  | nil => rfl
  | cons task rest ih =>
      rw [heldAll, hnone task List.mem_cons_self,
        ih fun task hmem => hnone task (List.mem_cons_of_mem _ hmem)]
      rfl

/-- The pages held by the others stay while one task moves on. -/
theorem heldAll_set {tasks : List Task} {i : Nat} {task : Task}
    (htask : tasks[i]? = some task) :
    ∃ others, heldAll tasks = task.held + others ∧
      ∀ task', heldAll (tasks.set i task') = task'.held + others := by
  induction tasks generalizing i with
  | nil => cases htask
  | cons head rest ih =>
      cases i with
      | zero =>
          obtain rfl := Option.some.inj htask
          exact ⟨heldAll rest, rfl, fun task' => rfl⟩
      | succ i =>
          obtain ⟨others, heq, hset⟩ := ih (i := i) htask
          have hswap : ∀ left : Multiset Addr, head.held + (left + others) =
              left + (head.held + others) := by
            intro left
            rw [← Multiset.add_assoc, Multiset.add_comm head.held left,
              Multiset.add_assoc]
          refine ⟨head.held + others, ?_, ?_⟩
          · rw [heldAll, heq, hswap]
          · intro task'
            rw [List.set_cons_succ, heldAll, hset, hswap]

theorem held_le_heldAll {tasks : List Task} {i : Nat} {task : Task}
    (htask : tasks[i]? = some task) {addr : Addr} (hmem : addr ∈ task.held) :
    addr ∈ heldAll tasks := by
  obtain ⟨others, heq, -⟩ := heldAll_set htask
  rw [heq]
  exact Multiset.mem_add.mpr (.inl hmem)

theorem evictRequest_cases {c : Cache} {pc : EvictPc} {request : Request}
    (hrequest : evictRequest c pc = some request) :
    (∃ page path mode, pc.wait = .openingPage page ∧
      request = .open path mode ∧
      c.pathOf (c.heap page).key.id = some path) ∨
    ∃ page fd written len, pc.wait = .sending page fd written len ∧
      page = pc.page ∧ request = .write fd
        (slice (c.heap page).data written len)
        (c.filePos (c.heap page) written) := by
  cases pc with
  | opening page rest =>
      obtain ⟨entry, hentry, rfl⟩ := Option.map_eq_some_iff.mp hrequest
      exact .inl ⟨page, entry.path, .write, rfl, rfl,
        Cache.pathOf_of_lookup hentry⟩
  | flushing page fd rest pc =>
      cases pc with
      | queued fut => cases hrequest
      | writing written len =>
          obtain rfl := Option.some.inj hrequest
          exact .inr ⟨page, fd, written, len, rfl, rfl, rfl⟩

/-- The requests of the tasks of `read`, `write` and `flush`. -/
theorem request_cases {c : Cache} {task : Task} {request : Request}
    (hplain : task.Plain) (hrequest : task.request c = some request) :
    (∃ id path mode, task.wait = .opening id ∧ request = .open path mode ∧
      c.pathOf id = some path) ∨
    (∃ page path mode, task.wait = .openingPage page ∧
      request = .open path mode ∧
      c.pathOf (c.heap page).key.id = some path) ∨
    (∃ key fd fut, task.wait = .fetching key fd fut ∧
      request = .read fd c.pageSize (key.index * c.pageSize)) ∨
    ∃ page fd written len, task.wait = .sending page fd written len ∧
      (page ∈ c.lru ∨ page ∈ task.held) ∧ request = .write fd
        (slice (c.heap page).data written len)
        (c.filePos (c.heap page) written) := by
  cases task with
  | readAt r pc =>
      cases pc with
      | start => cases hrequest
      | queued fut => cases hrequest
      | opening =>
          obtain ⟨entry, hentry, rfl⟩ := Option.map_eq_some_iff.mp hrequest
          exact .inl ⟨r.id, entry.path, .read, rfl, rfl,
            Cache.pathOf_of_lookup hentry⟩
      | fetching fd fut =>
          obtain rfl := Option.some.inj hrequest
          exact .inr (.inr (.inl ⟨r.key, fd, fut, rfl, rfl⟩))
      | evicting addr pc =>
          rcases evictRequest_cases hrequest with
            hopen | ⟨page, fd, written, len, hwait, rfl, hreq⟩
          · exact .inr (.inl hopen)
          · exact .inr (.inr (.inr ⟨_, fd, written, len, hwait,
              .inr (Multiset.mem_singleton_self _), hreq⟩))
  | writeAt r input pc =>
      cases pc with
      | start => cases hrequest
      | queued fut => cases hrequest
      | evicting addr pc =>
          rcases evictRequest_cases hrequest with
            hopen | ⟨page, fd, written, len, hwait, rfl, hreq⟩
          · exact .inr (.inl hopen)
          · exact .inr (.inr (.inr ⟨_, fd, written, len, hwait,
              .inr (Multiset.mem_singleton_self _), hreq⟩))
  | flush id pc =>
      cases pc with
      | start => cases hrequest
      | opening =>
          obtain ⟨entry, hentry, rfl⟩ := Option.map_eq_some_iff.mp hrequest
          exact .inl ⟨id, entry.path, .write, rfl, rfl,
            Cache.pathOf_of_lookup hentry⟩
      | flushing index addr fd pc =>
          change (if _ then _ else _) = _ at hrequest
          split_ifs at hrequest with hvalid
          cases pc with
          | queued fut => cases hrequest
          | writing written len =>
              obtain rfl := Option.some.inj hrequest
              exact .inr (.inr (.inr ⟨addr, fd, written, len, rfl,
                .inl hvalid.2, rfl⟩))
  | truncate id oldSize newSize pc => exact hplain.elim
  | invalidateOne id shouldFlush pc => exact hplain.elim
  | shutdown after pc => exact hplain.elim
  | cleanStaleFds pc => exact hplain.elim
  | didRead r res => cases hrequest
  | didWrite r res => cases hrequest
  | finished res => cases hrequest
  | crashed => exact hplain.elim

end Task

namespace Cache

/-- The device after it took `n` bytes of a page from position `written`. -/
def sentDevice (c : Cache) (d : Device) (page : Page) (path : Path)
    (written len n : Nat) : Device :=
  { d with
    file := Function.update d.file path (overlay (d.file path)
      (c.filePos page written) ((slice page.data written len).take n)) }

section

variable {S : Id → Prop} {c : Cache} {d d' : Device}
  {held : Multiset Addr} {reply : Option Reply} {wait : Wait}

/-- Positions of different pages of a file are different. -/
theorem index_eq_of_pos {pageSize left right pos : Nat} (offset : Nat)
    (hpos : pos < pageSize) (hoffset : offset < pageSize)
    (heq : left * pageSize + pos = right * pageSize + offset) :
    left = right := by
  rcases Nat.lt_trichotomy left right with hlt | heq | hgt
  · have hmul := Nat.mul_le_mul_right pageSize hlt
    rw [Nat.succ_mul] at hmul
    omega
  · exact heq
  · have hmul := Nat.mul_le_mul_right pageSize hgt
    rw [Nat.succ_mul] at hmul
    omega

theorem fileOf_sentDevice (c : Cache) (d : Device) (page : Page)
    (path : Path) (written len n : Nat) {id : Id} :
    c.fileOf (c.sentDevice d page path written len n) id =
      if c.pathOf id = some path then overlay (d.file path)
        (c.filePos page written) ((slice page.data written len).take n)
      else c.fileOf d id := by
  unfold fileOf
  cases hpath : c.pathOf id with
  | none => simp
  | some path' =>
      by_cases heq : path' = path
      · subst heq
        simp [sentDevice]
      · simp [sentDevice, heq]

theorem length_le_overlay (file : List Byte) (off : Nat) (bytes : List Byte) :
    file.length ≤ (overlay file off bytes).length := by
  rcases Nat.eq_zero_or_pos bytes.length with hzero | hpos
  · simp [overlay, hzero]
  · rw [length_overlay file off hpos]
    omega

/-- What the device has of a page stays there when it takes bytes of a live
page with another key. -/
theorem Agrees.sent_ne (hsound : Sound S c d held) {page : Addr}
    (hmem : page ∈ c.live held) {path : Path}
    (hpath : c.pathOf (c.heap page).key.id = some path)
    (written len n : Nat) {page' : Page} (hne : page'.key ≠ (c.heap page).key)
    {m : Nat} (hm : m ≤ c.pageSize) (hagrees : Agrees c d page' m) :
    Agrees c (c.sentDevice d (c.heap page) path written len n) page' m := by
  have hlength := (hsound.wf page hmem).length_data
  by_cases hid : c.pathOf page'.key.id = some path
  · have hfile : c.fileOf d page'.key.id = d.file path := fileOf_eq hid
    refine ⟨fun pos hpos => ?_, fun hpos => ?_⟩
    · rw [fileOf_sentDevice, if_pos hid, valueAt_overlay, if_neg, ← hfile]
      · exact hagrees.valueAt_eq pos hpos
      · rintro ⟨hge, hlt⟩
        simp only [List.length_take, length_slice] at hlt
        unfold filePos at hge hlt
        have hid' := hsound.path_inj _ _ path hid hpath
        have hindex : page'.key.index = (c.heap page).key.index := by
          have heq : page'.key.index * c.pageSize + pos =
              (c.heap page).key.index * c.pageSize +
                (page'.key.index * c.pageSize + pos -
                  (c.heap page).key.index * c.pageSize) := by
            omega
          exact index_eq_of_pos _ (by omega) (by omega) heq
        refine hne ?_
        calc page'.key = ⟨page'.key.id, page'.key.index⟩ := rfl
          _ = ⟨(c.heap page).key.id, (c.heap page).key.index⟩ := by
              rw [hid', hindex]
          _ = (c.heap page).key := rfl
    · rw [fileOf_sentDevice, if_pos hid]
      have hold := hagrees.le_length hpos
      rw [hfile] at hold
      exact Nat.le_trans hold (length_le_overlay _ _ _)
  · refine ⟨fun pos hpos => ?_, fun hpos => ?_⟩
    · rw [fileOf_sentDevice, if_neg hid]
      exact hagrees.valueAt_eq pos hpos
    · rw [fileOf_sentDevice, if_neg hid]
      exact hagrees.le_length hpos

/-- What the device has of a live page stays there when it takes bytes of a
live page. -/
theorem Agrees.sent (hsound : Sound S c d held) {page page' : Addr}
    (hmem : page ∈ c.live held) (hmem' : page' ∈ c.live held) {path : Path}
    (hpath : c.pathOf (c.heap page).key.id = some path)
    (written len n : Nat) {m : Nat} (hm : m ≤ (c.heap page').size)
    (hagrees : Agrees c d (c.heap page') m) :
    Agrees c (c.sentDevice d (c.heap page) path written len n)
      (c.heap page') m := by
  by_cases hkey : (c.heap page').key = (c.heap page).key
  · obtain rfl := hsound.layout.key_inj hmem' hmem hkey
    have hfile : c.fileOf d (c.heap page').key.id = d.file path :=
      fileOf_eq hpath
    refine ⟨fun pos hpos => ?_, fun hpos => ?_⟩
    · rw [fileOf_sentDevice, if_pos hpath, valueAt_overlay]
      split_ifs with hin
      · simp only [List.length_take, length_slice] at hin
        unfold filePos at hin ⊢
        rw [show (c.heap page').key.index * c.pageSize + pos -
            ((c.heap page').key.index * c.pageSize + written) =
              pos - written by omega,
          show (slice (c.heap page').data written len).take n =
            slice (slice (c.heap page').data written len) 0 n by simp [slice],
          valueAt_slice, if_pos (by omega), Nat.zero_add, valueAt_slice,
          if_pos (by omega), Nat.add_sub_of_le (by omega)]
      · rw [← hfile]
        exact hagrees.valueAt_eq pos hpos
    · rw [fileOf_sentDevice, if_pos hpath]
      have hold := hagrees.le_length hpos
      rw [hfile] at hold
      exact Nat.le_trans hold (length_le_overlay _ _ _)
  · exact hagrees.sent_ne hsound hmem hpath written len n hkey
      (Nat.le_trans hm (hsound.wf page' hmem').size_le)

/-- The device has the bytes it took. -/
theorem Agrees.sent_self {page : Addr} {path : Path}
    (hpath : c.pathOf (c.heap page).key.id = some path)
    (hlength : (c.heap page).size ≤ (c.heap page).data.length)
    {written len n : Nat} (hle : written + len ≤ (c.heap page).size)
    (hn : n ≤ len) (hagrees : Agrees c d (c.heap page) written) :
    Agrees c (c.sentDevice d (c.heap page) path written len n)
      (c.heap page) (written + n) := by
  have hfile : c.fileOf d (c.heap page).key.id = d.file path :=
    fileOf_eq hpath
  have hbytes : ((slice (c.heap page).data written len).take n).length =
      n := by
    rw [List.length_take, length_slice]
    omega
  refine ⟨fun pos hpos => ?_, fun hpos => ?_⟩
  · rw [fileOf_sentDevice, if_pos hpath, valueAt_overlay, hbytes]
    by_cases hold : pos < written
    · rw [if_neg (by unfold filePos; omega), ← hfile]
      exact hagrees.valueAt_eq pos hold
    · rw [if_pos (by unfold filePos; omega)]
      have hoff : c.filePos (c.heap page) pos -
          c.filePos (c.heap page) written = pos - written := by
        unfold filePos
        omega
      rw [hoff, show (slice (c.heap page).data written len).take n =
        slice (slice (c.heap page).data written len) 0 n by simp [slice],
        valueAt_slice, if_pos (by omega), Nat.zero_add, valueAt_slice,
        if_pos (by omega), Nat.add_sub_of_le (by omega)]
  · rw [fileOf_sentDevice, if_pos hpath]
    rcases Nat.eq_zero_or_pos n with rfl | hn
    · refine Nat.le_trans ?_ (length_le_overlay _ _ _)
      rw [← hfile]
      exact hagrees.le_length hpos
    · rw [length_overlay _ _ (by rw [hbytes]; exact hn), hbytes]
      unfold filePos
      omega

/-- A sound cache stays sound when the device takes bytes of a page. -/
theorem Sound.sent (hsound : Sound S c d held) {page : Addr}
    (hmem : page ∈ c.live held) {path : Path}
    (hpath : c.pathOf (c.heap page).key.id = some path)
    (written len n : Nat) :
    Sound S c (c.sentDevice d (c.heap page) path written len n) held where
  layout := hsound.layout
  pageSize_pos := hsound.pageSize_pos
  pageSize_lt := hsound.pageSize_lt
  wf := hsound.wf
  tail := hsound.tail
  readFd := hsound.readFd
  writeFd := hsound.writeFd
  path_inj := hsound.path_inj
  agrees := fun page' hmem' hS hclean =>
    (hsound.agrees page' hmem' hS hclean).sent hsound hmem hmem' hpath
      written len n (Nat.le_refl _)

theorem wait_sound_sent (hsound : Sound S c d held) {page : Addr}
    (hmem : page ∈ c.live held) {path : Path}
    (hpath : c.pathOf (c.heap page).key.id = some path)
    (written len n : Nat) (hwait : wait.Sound S c d held reply) :
    wait.Sound S c (c.sentDevice d (c.heap page) path written len n) held
      reply := by
  cases wait with
  | other => exact hwait
  | opening id => exact hwait
  | openingPage page' => exact hwait
  | fetching key fd fut => exact hwait
  | queued page' fut => exact hwait
  | sending page' fd written' len' =>
      obtain ⟨hlt, hpage, hreply⟩ := hwait
      refine ⟨hlt, fun hmem' => ?_, hreply⟩
      obtain ⟨hvalid, hle, hagrees⟩ := hpage hmem'
      refine ⟨hvalid, hle, fun hS => ?_⟩
      refine (hagrees hS).sent hsound hmem hmem' hpath written len n ?_
      refine Nat.le_trans ?_ hle
      cases reply with
      | none => exact Nat.le_add_right _ _
      | some rep =>
          obtain ⟨n', -, hn', rfl⟩ := hreply.2 rep rfl
          exact Nat.add_le_add_left hn' _

/-- More descriptors and the same files. -/
theorem Sound.device (hsound : Sound S c d held)
    (hfile : d'.file = d.file)
    (hfds : ∀ fd path, d.fds fd = some path → d'.fds fd = some path) :
    Sound S c d' held where
  layout := hsound.layout
  pageSize_pos := hsound.pageSize_pos
  pageSize_lt := hsound.pageSize_lt
  wf := hsound.wf
  tail := hsound.tail
  readFd := fun id entry fd hentry hfd =>
    hfds fd _ (hsound.readFd id entry fd hentry hfd)
  writeFd := fun id entry fd hentry hfd =>
    hfds fd _ (hsound.writeFd id entry fd hentry hfd)
  path_inj := hsound.path_inj
  agrees := fun page hmem hS hclean => by
    have hagrees := hsound.agrees page hmem hS hclean
    refine ⟨fun pos hpos => ?_, fun hpos => ?_⟩
    · rw [fileOf, hfile]
      exact hagrees.valueAt_eq pos hpos
    · rw [fileOf, hfile]
      exact hagrees.le_length hpos

theorem wait_sound_device (hfile : d'.file = d.file)
    (hfds : ∀ fd path, d.fds fd = some path → d'.fds fd = some path)
    (hwait : wait.Sound S c d held reply) :
    wait.Sound S c d' held reply := by
  have hvalid' : ∀ id fd, c.ValidFd d id fd → c.ValidFd d' id fd :=
    fun id fd hvalid path hpath => hfds fd path (hvalid path hpath)
  cases wait with
  | other => exact hwait
  | opening id =>
      refine ⟨hwait.1, fun rep hrep => ?_⟩
      obtain ⟨fd, rfl, hvalid⟩ := hwait.2 rep hrep
      exact ⟨fd, rfl, hvalid' _ _ hvalid⟩
  | openingPage page =>
      refine ⟨hwait.1, fun rep hrep => ?_⟩
      obtain ⟨fd, rfl, hvalid⟩ := hwait.2 rep hrep
      exact ⟨fd, rfl, hvalid' _ _ hvalid⟩
  | fetching key fd fut =>
      exact ⟨hwait.1, hvalid' _ _ hwait.2.1, hwait.2.2⟩
  | queued page fut => exact hwait
  | sending page fd written len =>
      obtain ⟨hlt, hpage, hreply⟩ := hwait
      refine ⟨hlt, fun hmem => ?_, hreply⟩
      obtain ⟨hvalid, hle, hagrees⟩ := hpage hmem
      refine ⟨hvalid' _ _ hvalid, hle, fun hS => ?_⟩
      refine ⟨fun pos hpos => ?_, fun hpos => ?_⟩
      · rw [fileOf, hfile]
        exact (hagrees hS).valueAt_eq pos hpos
      · rw [fileOf, hfile]
        exact (hagrees hS).le_length hpos

end

end Cache

/-- The page that `write_at` ends on has the size that was cached before. -/
theorem Cache.WriteOrigin.size_eq {S : Id → Prop} {c c₁ : Cache} {d : Device}
    {before after : Multiset Addr} {G : Cache.Grant} {r : Range} {addr : Addr}
    (horigin : c.WriteOrigin r c₁ addr) (hsound : c.Sound S d before)
    (hsound₁ : c₁.Sound S d after)
    (hacts : Cache.Acts G (c, before) (c₁, after))
    (hslot : c₁.slot r.key = some addr) :
    (c₁.heap addr).size = c.cachedSize r.key := by
  unfold Cache.cachedSize
  rcases horigin with ⟨rfl, hsome⟩ | ⟨hnone, hzero⟩ | hnext
  · rw [hsome]
  · rw [hnone]
    exact hzero
  · obtain ⟨hlive, hkey⟩ := hsound₁.layout.live_of_slot _ _ hslot
    have hlt : addr < c.nextAddr :=
      hnext ▸ hsound₁.layout.lt_next addr hlive
    have hkeeps := hacts.keepsData
    have hold := hsound.layout.slot_of_live addr
      (hkeeps.live addr hlt hlive)
    rw [show (c.heap addr).key = r.key from
      (hkeeps.key addr hlt).symm.trans hkey] at hold
    rw [hold]
    exact hkeeps.size_eq addr hlt

namespace Task

/-- One resumption of a task of `read`, `write` or `flush`, by the step of the
coroutine it runs. -/
inductive Resumes (c : Cache) (held : Multiset Addr) (reply : Reply) :
    Task → Cache → Task → Prop
  | readAwait (r : Range) (pc pc' : ReadAtPc) (c' : Cache)
      (hstep : Cache.ReadStep c held r pc reply c' (.await pc')) :
      Resumes c held reply (.readAt r pc) c' (.readAt r pc')
  | readDone (r : Range) (pc : ReadAtPc) (c' : Cache)
      (res : Except Errc (List Byte))
      (hstep : Cache.ReadStep c held r pc reply c' (.done res)) :
      Resumes c held reply (.readAt r pc) c' (.didRead r res)
  | writeAwait (r : Range) (input : List Byte) (pc pc' : WriteAtPc)
      (c' : Cache)
      (hstep : Cache.WriteStep c held r input pc reply c' (.await pc')) :
      Resumes c held reply (.writeAt r input pc) c' (.writeAt r input pc')
  | writeDone (r : Range) (input : List Byte) (pc : WriteAtPc) (c' : Cache)
      (res : Except Errc Nat)
      (hstep : Cache.WriteStep c held r input pc reply c' (.done res)) :
      Resumes c held reply (.writeAt r input pc) c' (.didWrite r res)
  | flushAwait (id : Id) (pc pc' : FlushPc) (c' : Cache)
      (hstep : Cache.FlushStep c id pc reply c' (.await pc')) :
      Resumes c held reply (.flush id pc) c' (.flush id pc')
  | flushDone (id : Id) (pc : FlushPc) (c' : Cache)
      (res : Except Errc Unit)
      (hstep : Cache.FlushStep c id pc reply c' (.done res)) :
      Resumes c held reply (.flush id pc) c' (.finished res)

theorem resume_resumes {c c' : Cache} {task task' : Task} {reply : Reply}
    (held : Multiset Addr) (hplain : task.Plain)
    (hresume : task.resume c reply = some (c', task'))
    (hcrash : task' ≠ .crashed) :
    Resumes c held reply task c' task' := by
  cases task with
  | readAt r pc =>
      obtain ⟨⟨c₁, flow⟩, hx, heq⟩ := Option.map_eq_some_iff.mp hresume
      have hstep := Cache.readAtResume_step held hx
      cases flow with
      | await pc' =>
          obtain ⟨rfl, rfl⟩ := Prod.mk.inj heq
          exact .readAwait r pc pc' _ hstep
      | done value =>
          obtain ⟨rfl, rfl⟩ := Prod.mk.inj heq
          exact .readDone r pc _ value hstep
      | crash => exact absurd (Prod.mk.inj heq).2.symm hcrash
  | writeAt r input pc =>
      obtain ⟨⟨c₁, flow⟩, hx, heq⟩ := Option.map_eq_some_iff.mp hresume
      have hstep := Cache.writeAtResume_step held hx
      cases flow with
      | await pc' =>
          obtain ⟨rfl, rfl⟩ := Prod.mk.inj heq
          exact .writeAwait r input pc pc' _ hstep
      | done value =>
          obtain ⟨rfl, rfl⟩ := Prod.mk.inj heq
          exact .writeDone r input pc _ value hstep
      | crash => exact absurd (Prod.mk.inj heq).2.symm hcrash
  | flush id pc =>
      obtain ⟨⟨c₁, flow⟩, hx, heq⟩ := Option.map_eq_some_iff.mp hresume
      have hstep := Cache.flushResume_step hx
      cases flow with
      | await pc' =>
          obtain ⟨rfl, rfl⟩ := Prod.mk.inj heq
          exact .flushAwait id pc pc' _ hstep
      | done value =>
          obtain ⟨rfl, rfl⟩ := Prod.mk.inj heq
          exact .flushDone id pc _ value hstep
      | crash => exact absurd (Prod.mk.inj heq).2.symm hcrash
  | truncate id oldSize newSize pc => exact hplain.elim
  | invalidateOne id shouldFlush pc => exact hplain.elim
  | shutdown after pc => exact hplain.elim
  | cleanStaleFds pc => exact hplain.elim
  | didRead r res => cases hresume
  | didWrite r res => cases hresume
  | finished res => cases hresume
  | crashed => exact hplain.elim

/-- One resumption of a task of `read`, `write` or `flush` keeps soundness. -/
theorem resumed {S : Id → Prop} {c c' : Cache} {d : Device}
    {task task' : Task} {others : Multiset Addr} {reply : Option Reply}
    (hresumes : Resumes c others (reply.getD .go) task c' task')
    (hsound : c.Sound S d (task.held + others)) (hqueue : c.Queue)
    (hwait : task.wait.Sound S c d (task.held + others) reply)
    (hkept : ∀ r pc, task = .readAt r pc → c.FetchKept S d r pc reply) :
    c.Resumed S d (task.held + others) c' (task'.held + others) ∧
      task'.wait.Sound S c' d (task'.held + others) none ∧ task'.Plain := by
  cases hresumes with
  | readAwait r pc pc' _ hstep =>
      obtain ⟨hres, hnext⟩ := hstep.resumed (fun h => by cases h) hsound
        hqueue hwait (hkept r pc rfl)
      exact ⟨hres, hnext pc' rfl, trivial⟩
  | readDone r pc _ res hstep =>
      obtain ⟨hres, -⟩ := hstep.resumed (fun h => by cases h) hsound
        hqueue hwait (hkept r pc rfl)
      exact ⟨hres, rfl, trivial⟩
  | writeAwait r input pc pc' _ hstep =>
      obtain ⟨hres, hnext⟩ := hstep.resumed (fun h => by cases h) hsound
        hqueue hwait
      exact ⟨hres, hnext pc' rfl, trivial⟩
  | writeDone r input pc _ res hstep =>
      obtain ⟨hres, -⟩ := hstep.resumed (fun h => by cases h) hsound
        hqueue hwait
      exact ⟨hres, rfl, trivial⟩
  | flushAwait id pc pc' _ hstep =>
      obtain ⟨hres, hnext⟩ := hstep.resumed (fun h => by cases h) hsound
        hqueue hwait
      exact ⟨hres, hnext pc' rfl, trivial⟩
  | flushDone id pc _ res hstep =>
      obtain ⟨hres, -⟩ := hstep.resumed (fun h => by cases h) hsound
        hqueue hwait
      exact ⟨hres, rfl, trivial⟩

/-- The pages a task may insert when it is resumed. -/
def Inserts (c : Cache) (reply : Option Reply) (task : Task)
    (page : Page) : Prop :=
  (∃ r fd fut bytes, task = .readAt r (.fetching fd fut) ∧
    reply = some (.fetched (.ok bytes)) ∧
    page = c.fetchedPage r.key bytes) ∨
  ∃ r input pc, task = .writeAt r input pc ∧ page = c.emptyPage r.key

/-- What one resumption does to the cache: what the grant allows, and then the
write of `write_at` or the flag of `flush`. -/
inductive Effect (S : Id → Prop) (d : Device) (c : Cache)
    (others : Multiset Addr) (allowed : Page → Prop) :
    Task → Cache → Task → Prop
  | acts (task task' : Task) (c' : Cache)
      (hacts : Cache.Acts (Cache.soundGrant S d allowed)
        (c, task.held + others) (c', task'.held + others))
      (hwrite : ∀ r n, task' ≠ .didWrite r (.ok n)) :
      Effect S d c others allowed task c' task'
  | wrote (r : Range) (input : List Byte) (pc : WriteAtPc) (c₁ : Cache)
      (addr : Addr) (n : Nat)
      (hacts : Cache.Acts (Cache.soundGrant S d allowed)
        (c, pc.held + others) (c₁, others))
      (hslot : c₁.slot r.key = some addr) (hmem : addr ∈ c₁.lru)
      (hsize : (c₁.heap addr).size = c.cachedSize r.key) :
      Effect S d c others allowed (.writeAt r input pc) (c₁.written r input addr)
        (.didWrite r (.ok n))
  | cleared (id : Id) (pc : FlushPc) (c₁ : Cache)
      (hacts : Cache.Acts (Cache.soundGrant S d allowed) (c, others)
        (c₁, others)) :
      Effect S d c others allowed (.flush id pc) (c₁.modifyEntry id fun entry =>
        Cache.addWriteInflight (-1) (Cache.setEntryDirty false entry))
        (.finished (.ok ()))

theorem effect {S : Id → Prop} {c c' : Cache} {d : Device}
    {task task' : Task} {others : Multiset Addr} {reply : Option Reply}
    (hresumes : Resumes c others (reply.getD .go) task c' task')
    (hsound : c.Sound S d (task.held + others))
    (hwait : task.wait.Sound S c d (task.held + others) reply)
    (hkept : ∀ r pc, task = .readAt r pc → c.FetchKept S d r pc reply) :
    Effect S d c others (task.Inserts c reply) task c' task' := by
  have hread : ∀ r pc, task = .readAt r pc → Cache.ReadAllowed
      (Cache.soundGrant S d (task.Inserts c reply)) c r pc
        (reply.getD .go) := by
    rintro r pc rfl
    refine Cache.readAllowed_of_wait _ hsound hwait (hkept r pc rfl) ?_
    rintro fd fut bytes rfl rfl
    exact .inl ⟨r, fd, fut, bytes, rfl, rfl, rfl⟩
  have hwrite : ∀ r input pc, task = .writeAt r input pc →
      Cache.WriteAllowed (Cache.soundGrant S d (task.Inserts c reply)) c r pc
        (reply.getD .go) := by
    rintro r input pc rfl
    exact Cache.writeAllowed_of_wait _ hsound hwait
      (.inr ⟨r, input, pc, rfl, rfl⟩)
  cases hresumes with
  | readAwait r pc pc' _ hstep =>
      exact .acts _ _ _ (hstep.acts (hread r pc rfl) fun h => by cases h)
        fun _ _ h => by cases h
  | readDone r pc _ res hstep =>
      exact .acts _ _ _ (hstep.acts (hread r pc rfl) fun h => by cases h)
        fun _ _ h => by cases h
  | writeAwait r input pc pc' _ hstep =>
      rcases hstep.acts (hwrite r input pc rfl) (fun h => by cases h) with
        ⟨-, hacts⟩ | ⟨c₂, addr, -, -, hfinish⟩
      · exact .acts _ _ _ hacts fun _ _ h => by cases h
      · cases (Cache.writeAtFinish_cases hfinish fun h => by cases h).2.2.2
  | writeDone r input pc _ res hstep =>
      rcases hstep.acts (hwrite r input pc rfl) (fun h => by cases h) with
        ⟨hnot, hacts⟩ | ⟨c₂, addr, hacts, horigin, hfinish⟩
      · refine .acts _ _ _ hacts ?_
        rintro r' n h
        obtain ⟨-, rfl⟩ := Task.didWrite.inj h
        exact hnot n rfl
      · obtain ⟨hslot, hmem, rfl, hres⟩ :=
          Cache.writeAtFinish_cases hfinish fun h => by cases h
        obtain rfl := Flow.done.inj hres
        exact .wrote r input pc c₂ addr _ hacts hslot hmem
          (horigin.size_eq hsound (Cache.Sound.acts hacts hsound) hacts hslot)
  | flushAwait id pc pc' _ hstep =>
      rcases hstep.acts others (Cache.flushAllowed_of_wait _ hwait)
        (fun h => by cases h) with hacts | ⟨c₂, -, heq, -⟩
      · refine .acts _ _ _ ?_ fun _ _ h => by cases h
        exact (Multiset.zero_add others).symm ▸ hacts
      · cases heq
  | flushDone id pc _ res hstep =>
      rcases hstep.acts others (Cache.flushAllowed_of_wait _ hwait)
        (fun h => by cases h) with hacts | ⟨c₂, hacts, heq, rfl⟩
      · refine .acts _ _ _ ?_ fun _ _ h => by cases h
        exact (Multiset.zero_add others).symm ▸ hacts
      · obtain rfl := Flow.done.inj heq
        exact .cleared id pc c₂ hacts

end Task

namespace World

/-- The system is sound for the files of `S`. -/
structure Sound (S : Id → Prop) (w : World) : Prop where
  cache : w.pool.cache.Sound S w.device (Task.heldAll w.pool.tasks)
  queue : w.pool.cache.Queue
  fds : ∀ fd path, w.device.fds fd = some path → fd < w.device.nextFd
  plain : ∀ task ∈ w.pool.tasks, task.Plain
  waits : ∀ (i : Nat) (task : Task), w.pool.tasks[i]? = some task →
    task.wait.Sound S w.pool.cache w.device (Task.heldAll w.pool.tasks)
      (w.replies i)
  replies : ∀ i, w.pool.tasks.length ≤ i → w.replies i = none

/-- The start of a run: entries for open files, and nothing cached yet. -/
structure Opened (w : World) : Prop where
  tasks : w.pool.tasks = []
  lru : w.pool.cache.lru = []
  slot : ∀ key, w.pool.cache.slot key = none
  readQueue : ∀ key, w.pool.cache.readQueue.lookup key = none
  promises : ∀ fut, w.pool.cache.promises fut = none
  pageSize_pos : 0 < w.pool.cache.pageSize
  pageSize_lt : w.pool.cache.pageSize < 2 ^ 32
  closed : ∀ id entry, w.pool.cache.lookup id = some entry →
    entry.readFd = none ∧ entry.writeFd = none
  path_inj : ∀ id id' path, w.pool.cache.pathOf id = some path →
    w.pool.cache.pathOf id' = some path → id = id'
  fds : ∀ fd path, w.device.fds fd = some path → fd < w.device.nextFd
  replies : ∀ i, w.replies i = none

section

variable {S : Id → Prop} {w w' : World} {i accept : Nat}

theorem Opened.not_live (hopened : w.Opened) {addr : Addr} :
    addr ∉ w.pool.cache.live (Task.heldAll w.pool.tasks) := by
  rw [Cache.mem_live, hopened.lru, hopened.tasks]
  simp [Task.heldAll]

theorem Opened.sound (hopened : w.Opened) : w.Sound S where
  cache := {
    layout := {
      nodup := by
        rw [Cache.live, hopened.lru, hopened.tasks]
        exact Multiset.nodup_zero
      slot_of_live := fun addr hmem => absurd hmem hopened.not_live
      live_of_slot := by
        intro key addr hslot
        rw [hopened.slot] at hslot
        cases hslot
      lt_next := fun addr hmem => absurd hmem hopened.not_live }
    pageSize_pos := hopened.pageSize_pos
    pageSize_lt := hopened.pageSize_lt
    wf := fun addr hmem => absurd hmem hopened.not_live
    tail := fun addr hmem => absurd hmem hopened.not_live
    readFd := by
      intro id entry fd hentry hfd
      rw [(hopened.closed id entry hentry).1] at hfd
      cases hfd
    writeFd := by
      intro id entry fd hentry hfd
      rw [(hopened.closed id entry hentry).2] at hfd
      cases hfd
    path_inj := hopened.path_inj
    agrees := fun addr hmem => absurd hmem hopened.not_live }
  queue := {
    lt_next := by
      intro key fut hfut
      rw [hopened.readQueue] at hfut
      cases hfut
    unset := fun key fut _ => hopened.promises fut
    fresh := fun fut _ => hopened.promises fut }
  fds := hopened.fds
  plain := by
    intro task hmem
    rw [hopened.tasks] at hmem
    cases hmem
  waits := by
    intro i task htask
    rw [hopened.tasks] at htask
    cases htask
  replies := fun i _ => hopened.replies i

theorem exec_cases (hexec : w.exec i accept = some w') :
    ∃ task request, w.pool.tasks[i]? = some task ∧
      task.request w.pool.cache = some request ∧ w.replies i = none ∧
      w' = { w with
        device := (w.device.exec accept request).1
        replies := Function.update w.replies i
          (some (w.device.exec accept request).2) } := by
  unfold exec at hexec
  split at hexec
  · next request hnone hrequest =>
      obtain ⟨task, htask, hrequest⟩ := Option.bind_eq_some_iff.mp hrequest
      exact ⟨task, request, htask, hrequest, hnone,
        (Option.some.inj hexec).symm⟩
  · cases hexec

/-- The waits after the device answered task `i`: that of the task itself has
to be shown, the others only see a changed device. -/
theorem Sound.answer (hsound : w.Sound S) {device : Device} {reply : Reply}
    {task : Task} (htask : w.pool.tasks[i]? = some task)
    (hcache : w.pool.cache.Sound S device (Task.heldAll w.pool.tasks))
    (hfds : ∀ fd path, device.fds fd = some path → fd < device.nextFd)
    (hself : task.wait.Sound S w.pool.cache device
      (Task.heldAll w.pool.tasks) (some reply))
    (hothers : ∀ (wait : Wait) (reply : Option Reply),
      wait.Sound S w.pool.cache w.device (Task.heldAll w.pool.tasks) reply →
      wait.Sound S w.pool.cache device (Task.heldAll w.pool.tasks) reply) :
    Sound S { w with
      device := device
      replies := Function.update w.replies i (some reply) } where
  cache := hcache
  queue := hsound.queue
  fds := hfds
  plain := hsound.plain
  waits := by
    intro j task' htask'
    by_cases heq : j = i
    · subst heq
      obtain rfl := Option.some.inj (htask.symm.trans htask')
      change Wait.Sound S _ _ _ (Function.update w.replies j (some reply) j) _
      rw [Function.update_self]
      exact hself
    · change Wait.Sound S _ _ _ (Function.update w.replies i (some reply) j) _
      rw [Function.update_of_ne heq]
      exact hothers _ _ (hsound.waits j task' htask')
  replies := by
    intro j hle
    have hlt : i < w.pool.tasks.length :=
      (List.getElem?_eq_some_iff.mp htask).1
    change Function.update w.replies i (some reply) j = none
    have hne : j ≠ i := fun heq => absurd hlt (heq ▸ Nat.not_lt.mpr hle)
    rw [Function.update_of_ne hne]
    exact hsound.replies j hle

/-- What the device does for the task it answers, in terms of what the task
waits for. -/
inductive Executes (w : World) (task : Task) : Device → Reply → Prop
  | opened (id : Id) (path : Path)
      (hwait : task.wait = .opening id ∨ ∃ page,
        task.wait = .openingPage page ∧ (w.pool.cache.heap page).key.id = id)
      (hpath : w.pool.cache.pathOf id = some path) :
      Executes w task { w.device with
        fds := Function.update w.device.fds w.device.nextFd (some path)
        nextFd := w.device.nextFd + 1 } (.opened (.ok w.device.nextFd))
  | fetched (key : PageKey) (fd : Fd) (fut : Fut)
      (hwait : task.wait = .fetching key fd fut) :
      Executes w task w.device (.fetched (.ok (slice
        (w.pool.cache.fileOf w.device key.id)
        (key.index * w.pool.cache.pageSize) w.pool.cache.pageSize)))
  | sent (page : Addr) (fd : Fd) (written len n : Nat) (path : Path)
      (hwait : task.wait = .sending page fd written len)
      (hlive : page ∈ w.pool.cache.live (Task.heldAll w.pool.tasks))
      (hpath : w.pool.cache.pathOf (w.pool.cache.heap page).key.id = some path)
      (hle : written + len ≤ (w.pool.cache.heap page).size)
      (hpos : 0 < n) (hn : n ≤ len) :
      Executes w task (w.pool.cache.sentDevice w.device
        (w.pool.cache.heap page) path written len n) (.written (.ok n))

theorem Sound.executes (hsound : w.Sound S)
    (hexec : w.exec i accept = some w') :
    ∃ task device reply, w.pool.tasks[i]? = some task ∧
      w.replies i = none ∧ w.Executes task device reply ∧
      w' = { w with
        device := device
        replies := Function.update w.replies i (some reply) } := by
  obtain ⟨task, request, htask, hrequest, hnone, rfl⟩ := exec_cases hexec
  have hwait := hsound.waits i task htask
  have hplain := hsound.plain task (List.mem_of_getElem? htask)
  refine ⟨task, _, _, htask, hnone, ?_, rfl⟩
  rcases Task.request_cases hplain hrequest with
    ⟨id, path, mode, heq, rfl, hpath⟩ | ⟨page, path, mode, heq, rfl, hpath⟩ |
    ⟨key, fd, fut, heq, rfl⟩ |
    ⟨page, fd, written, len, heq, hmem, rfl⟩
  · exact .opened id path (.inl heq) hpath
  · exact .opened _ path (.inr ⟨page, heq, rfl⟩) hpath
  · rw [heq] at hwait
    obtain ⟨path, hpath⟩ := Option.isSome_iff_exists.mp hwait.1
    have hexec : w.device.exec accept
        (.read fd w.pool.cache.pageSize (key.index * w.pool.cache.pageSize)) =
        (w.device, .fetched (.ok (slice (w.device.file path)
          (key.index * w.pool.cache.pageSize) w.pool.cache.pageSize))) := by
      simp only [Device.exec, hwait.2.1 path hpath]
    rw [hexec, ← Cache.fileOf_eq (d := w.device) hpath]
    exact .fetched key fd fut heq
  · rw [heq] at hwait
    obtain ⟨hlt, hpage, hpos, -⟩ := hwait
    have hlive : page ∈ w.pool.cache.live
        (Task.heldAll w.pool.tasks) := by
      rcases hmem with hlru | hheld
      · exact Cache.mem_live_of_mem_lru hlru
      · exact Cache.mem_live.mpr (.inr (Task.held_le_heldAll htask hheld))
    obtain ⟨hvalid, hle, -⟩ := hpage hlive
    obtain ⟨entry, hentry⟩ := Option.isSome_iff_exists.mp
      (hsound.cache.layout.lookup_isSome hlive)
    have hpath := Cache.pathOf_of_lookup hentry
    have hinput : (slice (w.pool.cache.heap page).data written len).length =
        len := by
      have hwf := hsound.cache.wf page hlive
      have hlength := hwf.length_data
      have hsize := hwf.size_le
      rw [length_slice]
      omega
    have hexec : w.device.exec accept (.write fd
        (slice (w.pool.cache.heap page).data written len)
        (w.pool.cache.filePos (w.pool.cache.heap page) written)) =
        (w.pool.cache.sentDevice w.device (w.pool.cache.heap page) entry.path
          written len (min (max accept 1) len),
          .written (.ok (min (max accept 1) len))) := by
      simp only [Device.exec, hvalid entry.path hpath, hinput]
      rfl
    rw [hexec]
    exact .sent page fd written len _ entry.path heq hlive hpath hle
      (by omega) (Nat.min_le_right _ _)

/-- The device keeps a sound system sound. -/
theorem Sound.exec (hsound : w.Sound S) (hexec : w.exec i accept = some w') :
    w'.Sound S := by
  obtain ⟨task, device, reply, htask, hnone, hexecutes, rfl⟩ :=
    hsound.executes hexec
  have hwait := hsound.waits i task htask
  cases hexecutes with
  | opened id path heq hpath =>
      have hfds : ∀ fd path', w.device.fds fd = some path' →
          Function.update w.device.fds w.device.nextFd (some path) fd =
            some path' := by
        intro fd path' hfd
        rw [Function.update_of_ne (Nat.ne_of_lt (hsound.fds fd path' hfd))]
        exact hfd
      have hvalid : w.pool.cache.ValidFd { w.device with
          fds := Function.update w.device.fds w.device.nextFd (some path)
          nextFd := w.device.nextFd + 1 } id w.device.nextFd := by
        intro path' hpath'
        obtain rfl := Option.some.inj (hpath.symm.trans hpath')
        exact Function.update_self _ _ _
      refine hsound.answer htask (hsound.cache.device rfl hfds) ?_ ?_
        fun _ _ hwait => Cache.wait_sound_device (d := w.device) rfl hfds hwait
      · intro fd path' hfd
        change Function.update w.device.fds w.device.nextFd (some path) fd = _
          at hfd
        by_cases heq : fd = w.device.nextFd
        · rw [heq]
          exact Nat.lt_succ_self _
        · rw [Function.update_of_ne heq] at hfd
          exact Nat.lt_succ_of_lt (hsound.fds fd path' hfd)
      · rcases heq with heq | ⟨page, heq, rfl⟩
        · rw [heq] at hwait ⊢
          exact ⟨hwait.1, fun rep hrep =>
            ⟨_, (Option.some.inj hrep).symm, hvalid⟩⟩
        · rw [heq] at hwait ⊢
          exact ⟨hwait.1, fun rep hrep =>
            ⟨_, (Option.some.inj hrep).symm, hvalid⟩⟩
  | fetched key fd fut heq =>
      refine hsound.answer htask hsound.cache hsound.fds ?_ fun _ _ h => h
      rw [heq] at hwait ⊢
      obtain ⟨hsome, hvalid, hlt, hown, -⟩ := hwait
      exact ⟨hsome, hvalid, hlt, hown, fun rep hrep =>
        ⟨_, (Option.some.inj hrep).symm⟩⟩
  | sent page fd written len n path heq hlive hpath hle hpos hn =>
      rw [heq] at hwait
      obtain ⟨hlt, hpage, hlen, -⟩ := hwait
      obtain ⟨hvalid, -, hagrees⟩ := hpage hlive
      have hwf := hsound.cache.wf page hlive
      have hlength : (w.pool.cache.heap page).size ≤
          (w.pool.cache.heap page).data.length := by
        rw [hwf.length_data]
        exact hwf.size_le
      refine hsound.answer htask
        (hsound.cache.sent hlive hpath written len n) hsound.fds ?_
        fun _ _ hwait => Cache.wait_sound_sent hsound.cache hlive hpath
          written len n hwait
      rw [heq]
      refine ⟨hlt, fun _ => ⟨hvalid, hle, fun hS => ?_⟩, hlen,
        fun rep hrep => ⟨n, hpos, hn, (Option.some.inj hrep).symm⟩⟩
      have hbefore := hagrees hS
      rw [hnone] at hbefore
      exact hbefore.sent_self hpath hlength hle hn

theorem resume_cases (hresume : w.resume i = some w') :
    ∃ task c' task', w.pool.tasks[i]? = some task ∧
      task.resume w.pool.cache ((w.replies i).getD .go) = some (c', task') ∧
      ∃ pool, w' = { w with
        pool := pool
        replies := Function.update w.replies i none } ∧
        (pool = ⟨c', w.pool.tasks.set i task',
            w.pool.stale ++ w.pool.strays i c'⟩ ∨
          pool = ⟨w.pool.cache, w.pool.tasks.set i .crashed,
            w.pool.stale⟩) := by
  obtain ⟨pool, hpool, rfl⟩ := Option.map_eq_some_iff.mp hresume
  obtain ⟨task, c', task', htask, hstep, hcases⟩ := Pool.resume_cases hpool
  exact ⟨task, c', task', htask, hstep, pool, rfl,
    hcases.imp And.right fun h => h.2.2⟩

/-- No task has dereferenced a dangling iterator. -/
def Intact (w : World) : Prop :=
  ∀ task ∈ w.pool.tasks, task.isCrashed = false

instance (w : World) : Decidable w.Intact :=
  inferInstanceAs (Decidable (∀ task ∈ w.pool.tasks, task.isCrashed = false))

/-- The resumption of a task that does not crash. -/
theorem Intact.resume_cases (hintact : w'.Intact)
    (hresume : w.resume i = some w') :
    ∃ task c' task', w.pool.tasks[i]? = some task ∧
      task.resume w.pool.cache ((w.replies i).getD .go) = some (c', task') ∧
      task' ≠ .crashed ∧
      w' = { w with
        pool := ⟨c', w.pool.tasks.set i task',
          w.pool.stale ++ w.pool.strays i c'⟩
        replies := Function.update w.replies i none } := by
  obtain ⟨task, c', task', htask, hstep, pool, rfl, hpool⟩ :=
    World.resume_cases hresume
  have hlt : i < w.pool.tasks.length :=
    (List.getElem?_eq_some_iff.mp htask).1
  rcases hpool with rfl | rfl
  · refine ⟨task, c', task', htask, hstep, ?_, rfl⟩
    rintro rfl
    cases hintact _ (List.mem_set hlt _)
  · cases hintact _ (List.mem_set hlt _)

/-- A page that task `i` is about to insert after a fetch has its slot free
and holds what the device holds. -/
def FetchKept (S : Id → Prop) (w : World) (i : Nat) : Prop :=
  ∀ r pc, w.pool.tasks[i]? = some (.readAt r pc) →
    w.pool.cache.FetchKept S w.device r pc (w.replies i)

/-- The step of task `i` changes no byte that the device already has of a page
which another task is sending. -/
def SentSame (w : World) (i : Nat) (w' : World) : Prop :=
  ∀ (j : Nat) (task : Task), j ≠ i → w.pool.tasks[j]? = some task →
    ∀ page fd written len, task.wait = .sending page fd written len →
      ∀ pos < (FlushAtPc.writing written len).sent (w.replies j),
        valueAt (w'.pool.cache.heap page).data pos =
          valueAt (w.pool.cache.heap page).data pos

/-- A resumption keeps a sound system sound. -/
theorem Sound.resume (hsound : w.Sound S) (hresume : w.resume i = some w')
    (hintact : w'.Intact) (hfetch : w.FetchKept S i)
    (hsent : w.SentSame i w') : w'.Sound S := by
  obtain ⟨task, c', task', htask, hstep, hcrash, rfl⟩ :=
    hintact.resume_cases hresume
  obtain ⟨others, hheld, hset⟩ := Task.heldAll_set htask
  have hlt : i < w.pool.tasks.length :=
    (List.getElem?_eq_some_iff.mp htask).1
  have hcache := hsound.cache
  have hwait := hsound.waits i task htask
  rw [hheld] at hcache hwait
  obtain ⟨hres, hnext, hplain⟩ := Task.resumed
    (Task.resume_resumes others
      (hsound.plain task (List.mem_of_getElem? htask)) hstep hcrash) hcache
    hsound.queue hwait fun r pc heq => hfetch r pc (heq ▸ htask)
  have hlive : Task.heldAll (w.pool.tasks.set i task') =
      task'.held + others := hset task'
  refine ⟨?_, hres.queue, hsound.fds, ?_, ?_, ?_⟩
  · rw [hlive]
    exact hres.sound
  · intro task₁ hmem
    rcases List.mem_or_eq_of_mem_set hmem with hold | rfl
    · exact hsound.plain task₁ hold
    · exact hplain
  · intro j task₁ htask₁
    change (w.pool.tasks.set i task')[j]? = some task₁ at htask₁
    change Wait.Sound S c' w.device (Task.heldAll (w.pool.tasks.set i task'))
      (Function.update w.replies i none j) task₁.wait
    rw [hlive]
    by_cases heq : j = i
    · subst heq
      rw [List.getElem?_set_self hlt] at htask₁
      obtain rfl := Option.some.inj htask₁
      rw [Function.update_self]
      exact hnext
    · rw [List.getElem?_set_ne (Ne.symm heq)] at htask₁
      rw [Function.update_of_ne heq]
      have hother := hsound.waits j task₁ htask₁
      rw [hheld] at hother
      exact hres.others _ _ hother (hsent j task₁ heq htask₁)
  · intro j hle
    change (w.pool.tasks.set i task').length ≤ j at hle
    rw [List.length_set] at hle
    change Function.update w.replies i none j = none
    by_cases heq : j = i
    · rw [heq, Function.update_self]
    · rw [Function.update_of_ne heq]
      exact hsound.replies j hle

/-- A call starts tasks that hold no page and wait for no answer. -/
theorem Sound.append (hsound : w.Sound S) {c' : Cache} {tasks : List Task}
    (hcache : c'.Sound S w.device (Task.heldAll w.pool.tasks))
    (hkeeps : Cache.KeepsData (w.pool.cache, Task.heldAll w.pool.tasks)
      (c', Task.heldAll w.pool.tasks))
    (hfutures : c'.futures = w.pool.cache.futures)
    (hnew : ∀ task ∈ tasks, task.Plain ∧ task.held = 0 ∧
      task.wait = .other) :
    Sound S { w with
      pool := ⟨c', w.pool.tasks ++ tasks, w.pool.stale⟩ } := by
  have hzero : Task.heldAll tasks = 0 :=
    Task.heldAll_eq_zero fun task hmem => (hnew task hmem).2.1
  have hheld : Task.heldAll (w.pool.tasks ++ tasks) =
      Task.heldAll w.pool.tasks := by
    rw [Task.heldAll_append, hzero, Multiset.add_zero]
  have hres := Cache.resumed_of_futures hcache hsound.queue hkeeps.toKeeps
    hfutures
  refine ⟨?_, hres.queue, hsound.fds, ?_, ?_, ?_⟩
  · rw [hheld]
    exact hcache
  · intro task hmem
    rcases List.mem_append.mp hmem with hold | hmem
    · exact hsound.plain task hold
    · exact (hnew task hmem).1
  · intro j task htask
    change (w.pool.tasks ++ tasks)[j]? = some task at htask
    rw [hheld]
    by_cases hlt : j < w.pool.tasks.length
    · rw [List.getElem?_append_left hlt] at htask
      have hwait := hsound.waits j task htask
      refine hres.others _ _ hwait ?_
      intro page fd written len heq pos hpos
      rw [heq] at hwait
      have hdata : (c'.heap page).data = (w.pool.cache.heap page).data :=
        hkeeps.data page hwait.1
      rw [hdata]
    · rw [List.getElem?_append_right (by omega)] at htask
      rw [(hnew task (List.mem_of_getElem? htask)).2.2]
      exact hsound.replies j (by omega)
  · intro j hle
    change (w.pool.tasks ++ tasks).length ≤ j at hle
    rw [List.length_append] at hle
    exact hsound.replies j (by omega)

end

end World

theorem Call.id_of_mem_ranges {pageSize : Nat} {id : Id} {len offset : Nat}
    {r : Range} (hr : r ∈ Call.ranges pageSize id len offset) : r.id = id := by
  obtain ⟨index, -, rfl⟩ := List.mem_map.mp hr
  rfl

/-- The calls of `read`, `write` and `flush`. -/
def Call.Plain : Call → Prop
  | .read _ _ _ => True
  | .write _ _ _ => True
  | .flush _ => True
  | _ => False

/-- What a call does at once: it may mark the entry of a file dirty, and it
starts tasks.  A file that is being written is marked dirty. -/
theorem Call.start_cases {call : Call} (hcall : call.Plain) (c : Cache) :
    ((call.start c).1 = c ∨ ∃ id, (call.start c).1 =
      c.modifyEntry id (Cache.setEntryDirty true)) ∧
    (∀ task ∈ (call.start c).2, task.Plain ∧ task.held = 0 ∧
      task.wait = .other) ∧
    ∀ r input pc, Task.writeAt r input pc ∈ (call.start c).2 →
      ∃ entry, (call.start c).1.lookup r.id = some entry ∧
        entry.dirty = true := by
  cases call with
  | read id len offset =>
      unfold Call.start
      dsimp only
      split
      · refine ⟨.inl rfl, ?_, fun r input pc hmem => by simp at hmem⟩
        intro task hmem
        obtain rfl := List.mem_singleton.mp hmem
        exact ⟨trivial, rfl, rfl⟩
      · refine ⟨.inl rfl, ?_, fun r input pc hmem => by simp at hmem⟩
        intro task hmem
        obtain ⟨r, -, rfl⟩ := List.mem_map.mp hmem
        exact ⟨trivial, rfl, rfl⟩
  | write id input offset =>
      unfold Call.start
      dsimp only
      split
      · refine ⟨.inl rfl, ?_, fun r input pc hmem => by simp at hmem⟩
        intro task hmem
        obtain rfl := List.mem_singleton.mp hmem
        exact ⟨trivial, rfl, rfl⟩
      · next entry hentry =>
          refine ⟨.inr ⟨id, rfl⟩, ?_, ?_⟩
          · intro task hmem
            obtain ⟨r, -, rfl⟩ := List.mem_map.mp hmem
            exact ⟨trivial, rfl, rfl⟩
          · intro r input' pc hmem
            obtain ⟨r', hr', heq⟩ := List.mem_map.mp hmem
            obtain ⟨rfl, -, -⟩ := Task.writeAt.inj heq
            refine ⟨Cache.setEntryDirty true entry, ?_, rfl⟩
            rw [Cache.lookup_modifyEntry,
              if_pos (Call.id_of_mem_ranges hr'), hentry]
            rfl
  | flush id =>
      refine ⟨.inl rfl, ?_, fun r input pc hmem => by
        simp [Call.start] at hmem⟩
      intro task hmem
      obtain rfl := List.mem_singleton.mp hmem
      exact ⟨trivial, rfl, rfl⟩
  | _ => exact hcall.elim

theorem World.Sound.call {S : Id → Prop} {w : World} (hsound : w.Sound S)
    {call : Call} (hcall : call.Plain) :
    World.Sound S { w with pool := w.pool.call call } := by
  obtain ⟨hcache, hnew, -⟩ := Call.start_cases hcall w.pool.cache
  rcases hcache with heq | ⟨id, heq⟩
  · refine hsound.append ?_ ?_ ?_ hnew <;> rw [heq]
    · exact hsound.cache
    · exact .refl _
  · refine hsound.append ?_ ?_ ?_ hnew <;> rw [heq]
    · exact hsound.cache.modifyEntry id (fun _ => rfl) (fun _ => rfl)
        (fun _ _ _ h => .inl h) (fun _ _ _ h => .inl h)
    · exact Cache.keepsData_modifyEntry id fun _ => rfl
    · exact Cache.futures_modifyEntry _ _ _

end Madbfs
