/-
Reads of a file that is only read.  Its pages hold exactly what the file has
for them, so the parts of a `read` end with the file.  A part whose offset in
the page lies past the valid bytes of the page is the exception: the unsigned
difference wraps, and the part claims all the bytes it was asked for.
-/
import Madbfs.Cache.ReadBack

namespace Madbfs

open Bytes

namespace World

/-- The steps of calls made one at a time that do not write the file. -/
def OnlyRead (id : Id) (w : World) (event : Event) (w' : World) : Prop :=
  w.OneAtATime event w' ∧
    ∀ input offset, event ≠ .call (.write id input offset)

/-- The system while the file is only read. -/
structure Reads (w : World) (id : Id) (file : List Byte) : Prop where
  serial : w.Serial (· = id)
  tracks : w.Tracks id file
  complete : w.Complete id file.length
  quiet : ∀ r input, ¬ w.Writing id r input

section

variable {w w' : World} {id : Id} {file : List Byte} {event : Event} {i : Nat}

theorem Reads.gapless (h : w.Reads id file) (hguard : w.OnlyRead id event w') :
    w.Gapless (· = id) event w' := by
  refine ⟨hguard.1, ?_⟩
  cases event with
  | resume i =>
      intro r input pc n htask _ hid
      exact absurd ⟨hid, pc, List.mem_of_getElem? htask⟩ (h.quiet r input)
  | _ => trivial

theorem OnlyRead.applied (hguard : w.OnlyRead id event w')
    (file : List Byte) : event.applied id file = file := by
  cases event with
  | call op =>
      cases op with
      | write id' input offset =>
          refine if_neg fun hid => ?_
          subst hid
          exact hguard.2 input offset rfl
      | _ => rfl
  | _ => rfl

theorem Reads.quiet_step (h : w.Reads id file)
    (hstep : w.step event = some w') (hguard : w.OnlyRead id event w')
    (r : Range) (input : List Byte) : ¬ w'.Writing id r input := by
  cases event with
  | call op =>
      obtain rfl := Option.some.inj hstep
      intro hwriting
      obtain ⟨hid, id', offset, rfl, hr⟩ :=
        (writing_call hguard.1.1 hguard.1.2).mp hwriting
      rw [Call.id_of_mem_ranges hr] at hid
      subst hid
      exact hguard.2 input offset rfl
  | exec i accept =>
      obtain ⟨hpool, -⟩ := h.serial.exec_sameView hstep (fun _ => True) 0 id
      unfold Writing
      rw [hpool]
      exact h.quiet r input
  | resume i =>
      obtain ⟨task, c', task', others, hres⟩ :=
        h.serial.resumption hstep hguard.1
      intro hwriting
      exact h.quiet r input ((hres.writing_iff h.serial id r input).mp
        hwriting).1

theorem Reads.complete_step (h : w.Reads id file)
    (hstep : w.step event = some w') (hguard : w.OnlyRead id event w') :
    w'.Complete id file.length := by
  cases event with
  | call op =>
      obtain rfl := Option.some.inj hstep
      have happlied : op.applied id file = file := hguard.applied file
      obtain ⟨n, hn⟩ : ∃ n, ∀ id' input offset,
          op = .write id' input offset → offset ≤ n := by
        cases op with
        | write id' input offset =>
            refine ⟨offset, fun _ _ _ heq => ?_⟩
            cases heq
            exact Nat.le_refl _
        | _ => exact ⟨0, fun _ _ _ heq => by cases heq⟩
      -- The other files are taken as long as a write of them needs it.
      let flat : Id → List Byte := fun id' =>
        if id' = id then file else List.replicate n 0
      have hflat : flat id = file := if_pos rfl
      have hhole : w.NoHole flat op := by
        rintro id' input offset rfl
        have hne : id' ≠ id := by
          rintro rfl
          exact hguard.2 input offset rfl
        rw [show flat id' = List.replicate n 0 from if_neg hne,
          List.length_replicate]
        exact Nat.div_le_div_right (hn id' input offset rfl)
      have hcomplete : w.Complete id (flat id).length := hflat ▸ h.complete
      have hcalled := hcomplete.call h.serial hguard.1.1 hguard.1.2 hhole
      rw [hflat, happlied] at hcalled
      exact hcalled
  | exec i accept => exact h.complete.exec h.serial hstep
  | resume i =>
      let size : Id → Nat := fun id' => if id' = id then file.length else 0
      have hsize : size id = file.length := if_pos rfl
      have hfull : w.PageFull i w' size := by
        intro r input pc n htask _
        have hid : r.id ≠ id := fun hid =>
          h.quiet r input ⟨hid, pc, List.mem_of_getElem? htask⟩
        rw [show size r.id = 0 from if_neg hid, Nat.min_zero]
        exact Nat.zero_le _
      have hcomplete : w.Complete id (size id) := hsize ▸ h.complete
      have hresumed := hcomplete.resume h.serial rfl hstep hguard.1 hfull
      rw [hsize] at hresumed
      exact hresumed

theorem Reads.step (h : w.Reads id file) (hstep : w.step event = some w')
    (hguard : w.OnlyRead id event w') : w'.Reads id file := by
  refine ⟨h.serial.step hstep hguard.1, ?_, h.complete_step hstep hguard,
    h.quiet_step hstep hguard⟩
  have htracks := h.tracks.step hstep (h.gapless hguard) h.serial rfl
  rw [hguard.applied file] at htracks
  exact htracks

theorem Ready.reads (hready : w.Ready id) :
    w.Reads id (w.pool.cache.fileOf w.device id) where
  serial := hready.serial
  tracks := tracks_of_uncached hready.sound rfl hready.idle hready.uncached
  complete := by
    refine ⟨fun pos hpos => .inr ?_, ?_⟩
    · rw [hready.uncached]
      exact hpos
    · intro i r fd fut bytes htask
      cases hready.idle _ (List.mem_of_getElem? htask)
  quiet := fun r input hwriting => not_writing_of_idle hready.idle hwriting

/-- A page of the file has the size the file gives it. -/
theorem Reads.size_eq (h : w.Reads id file) {index : Nat} {addr : Addr}
    (hslot : w.pool.cache.slot ⟨id, index⟩ = some addr) :
    (w.pool.cache.heap addr).size = min w.pool.cache.pageSize
      (file.length - index * w.pool.cache.pageSize) := by
  have hsound := h.serial.kept.sound.cache
  have hpos := hsound.pageSize_pos
  have hwf := hsound.wf addr (hsound.layout.live_of_slot _ _ hslot).1
  have hle := hwf.size_le
  have hupper := ((h.tracks.upper file.length).mpr (Nat.le_refl _)).1.page
    index addr hslot
  have hcovered : ∀ k, k < w.pool.cache.pageSize →
      index * w.pool.cache.pageSize + k < file.length →
      k < (w.pool.cache.heap addr).size := by
    intro k hk hin
    have hbyte := (h.complete.covered _ hin).resolve_left fun hpending => by
      obtain ⟨r, input, hwriting, -⟩ := hpending
      exact h.quiet r input hwriting
    rw [Nat.mul_comm, Nat.mul_add_div hpos, Nat.mul_add_mod,
      Nat.div_eq_of_lt hk, Nat.mod_eq_of_lt hk, Nat.add_zero, hslot] at hbyte
    exact hbyte
  by_cases hzero : (w.pool.cache.heap addr).size = 0
  · have hnone := hcovered 0 hpos
    omega
  · have hend := hupper (Nat.pos_of_ne_zero hzero)
    have hnext := hcovered (w.pool.cache.heap addr).size
    omega

/-- The last tasks are the parts of a `read`: running, or done with a result
that has the property. -/
structure Settling (w : World) (before : Nat) (rs : List Range)
    (Q : Range → Except Errc (List Byte) → Prop) : Prop where
  length_eq : w.pool.tasks.length = before + rs.length
  part : ∀ (j : Nat) r, rs[j]? = some r →
    (∃ pc, w.pool.tasks[before + j]? = some (.readAt r pc)) ∨
      ∃ res, w.pool.tasks[before + j]? = some (.didRead r res) ∧ Q r res

section

variable {S : Id → Prop} {before : Nat} {rs : List Range}
  {Q : Range → Except Errc (List Byte) → Prop}

theorem Settling.resume (hsettling : w.Settling before rs Q)
    (hserial : w.Serial S) (hresume : w.resume i = some w')
    (hintact : w'.Intact)
    (hreturns : ∀ r ∈ rs, ∀ res, w'.pool.cache.Returns r res → Q r res) :
    w'.Settling before rs Q := by
  obtain ⟨task, c', task', others, hres⟩ :=
    hserial.resumption hresume hintact
  have hresumes := hres.resumes
  have htasks : w'.pool.tasks = w.pool.tasks.set i task' := by
    rw [hres.world_eq]
  refine ⟨?_, fun j r hr => ?_⟩
  · rw [htasks, List.length_set]
    exact hsettling.length_eq
  · rw [htasks]
    by_cases hne : before + j = i
    · subst hne
      rw [List.getElem?_set_self hres.lt_length]
      rcases hsettling.part j r hr with ⟨pc, htask⟩ | ⟨res, htask, hQ⟩
      · obtain rfl := Option.some.inj (hres.task_eq.symm.trans htask)
        cases hresumes with
        | readAwait _ _ pc' _ hstep => exact .inl ⟨pc', rfl⟩
        | readDone _ _ _ res hstep =>
            refine .inr ⟨res, rfl, ?_⟩
            rcases hstep.returns with ⟨c₁, err, hfails⟩ | hreturned
            · exact absurd hfails (hserial.not_readFails htask)
            · apply hreturns r (List.mem_of_getElem? hr)
              rw [hres.world_eq]
              exact hreturned
      · obtain rfl := Option.some.inj (hres.task_eq.symm.trans htask)
        cases hresumes.not_done
    · rw [List.getElem?_set_ne (Ne.symm hne)]
      exact hsettling.part j r hr

/-- A call of `read` starts its parts. -/
theorem settling_call {len offset : Nat}
    (hcall : Call.Proper w.pool.cache (.read id len offset)) :
    Settling { w with pool := w.pool.call (.read id len offset) }
      w.pool.tasks.length (Call.ranges w.pool.cache.pageSize id len offset)
      Q := by
  refine ⟨?_, fun j r hr => .inl ⟨.start, ?_⟩⟩
  · change (w.pool.call (.read id len offset)).tasks.length = _
    rw [call_read_tasks hcall, List.length_append, List.length_map]
  · change (w.pool.call (.read id len offset)).tasks[_]? = _
    rw [call_read_tasks hcall,
      List.getElem?_append_right (Nat.le_add_right _ _),
      Nat.add_sub_cancel_left, List.getElem?_map, hr]
    rfl

/-- When nothing is running any more, all parts have their results. -/
theorem Settling.settled (hsettling : w.Settling before rs Q)
    (hidle : w.pool.Idle) :
    List.Forall₂ (fun r task => ∃ res, task = .didRead r res ∧ Q r res) rs
      (w.pool.tasks.drop before) := by
  rw [List.forall₂_iff_get]
  refine ⟨?_, fun j hj hj' => ?_⟩
  · rw [List.length_drop, hsettling.length_eq]
    omega
  · rcases hsettling.part j rs[j] (List.getElem?_eq_getElem hj) with
      ⟨pc, htask⟩ | ⟨res, htask, hQ⟩
    · cases hidle _ (List.mem_of_getElem? htask)
    · refine ⟨res, ?_, hQ⟩
      rw [List.get_eq_getElem, List.getElem_drop]
      exact (List.getElem?_eq_some_iff.mp htask).2

end

end

end World

namespace Range

/-- The bytes a part reads of a file of this size, by the arithmetic of the
code. -/
def got (r : Range) (pageSize size : Nat) : Nat :=
  min (usub (min pageSize (size - r.index * pageSize))
    (r.localOffset pageSize)) (r.localSize pageSize)

end Range

namespace Call

variable {pageSize : Nat} {id : Id} {len offset size : Nat}

/-- Where no part starts past the valid bytes of its page, the parts end with
the file. -/
theorem got_eq (hpage : 0 < pageSize) (hlt : pageSize < 2 ^ 32)
    (hlen : 0 < len) (hmax : offset + len < 2 ^ 63)
    (hpast : size < offset + len)
    (hstart : offset ≤ size ∨ offset % pageSize = 0) {r : Range}
    (hr : r ∈ ranges pageSize id len offset) :
    r.got pageSize size = min size (r.index * pageSize + pageSize) -
      max offset (r.index * pageSize) := by
  obtain ⟨hlast, hfirst, hoff, hsize, -⟩ :=
    range_bounds hpage (by omega) hlen hmax hr
  have hle : r.localOffset pageSize ≤
      min pageSize (size - r.index * pageSize) := by
    rcases hstart with hin | haligned
    · omega
    · by_cases hbefore : offset ≤ r.index * pageSize
      · omega
      · -- The part starts inside its page, so the offset is not aligned.
        have hmod : offset % pageSize = offset - r.index * pageSize := by
          conv_lhs => rw [← Nat.add_sub_of_le
            (Nat.le_of_lt (Nat.lt_of_not_le hbefore))]
          rw [Nat.mul_comm r.index, Nat.mul_add_mod]
          exact Nat.mod_eq_of_lt (by rw [Nat.mul_comm]; omega)
        omega
  unfold Range.got
  rw [usub_of_le hle (by omega)]
  omega

theorem sum_got (hpage : 0 < pageSize) (hlt : pageSize < 2 ^ 32)
    (hlen : 0 < len) (hmax : offset + len < 2 ^ 63)
    (hpast : size < offset + len)
    (hstart : offset ≤ size ∨ offset % pageSize = 0) :
    ((ranges pageSize id len offset).map fun r => r.got pageSize size).sum =
      size - offset := by
  have hend : usub (offset + len) 1 = offset + len - 1 :=
    usub_of_le (by omega) (by omega)
  have hparts : (ranges pageSize id len offset).map
      (fun r => r.got pageSize size) =
      (ranges pageSize id len offset).map fun r =>
        min size (r.index * pageSize + pageSize) -
          max offset (r.index * pageSize) :=
    List.map_congr_left fun r hr =>
      got_eq hpage hlt hlen hmax hpast hstart hr
  have hdiv := Nat.div_add_mod' offset pageSize
  have hmod := Nat.mod_lt offset hpage
  have hdiv' := Nat.div_add_mod' (offset + len - 1) pageSize
  have hmod' := Nat.mod_lt (offset + len - 1) hpage
  have hmono : offset / pageSize ≤ (offset + len - 1) / pageSize :=
    Nat.div_le_div_right (by omega)
  rw [hparts]
  unfold ranges
  rw [List.map_map]
  refine (sum_parts _ _ (by omega)).trans ?_
  rw [hend, show offset / pageSize + ((offset + len - 1) / pageSize + 1 -
    offset / pageSize) = (offset + len - 1) / pageSize + 1 by omega,
    Nat.add_mul]
  omega

/-- The first part of a `read` that starts past the end of the file, inside a
page, gets bytes. -/
theorem sum_got_pos (hpage : 0 < pageSize) (hlt : pageSize < 2 ^ 32)
    (hlen : 0 < len) (hmax : offset + len < 2 ^ 63) (hpast : size < offset)
    (hinside : offset % pageSize ≠ 0) :
    ((ranges pageSize id len offset).map fun r => r.got pageSize size).sum ≠
      0 := by
  have hend : usub (offset + len) 1 = offset + len - 1 :=
    usub_of_le (by omega) (by omega)
  have hmono : offset / pageSize ≤ (offset + len - 1) / pageSize :=
    Nat.div_le_div_right (by omega)
  have hdiv := Nat.div_add_mod' offset pageSize
  obtain ⟨r, hmem, hindex⟩ : ∃ r ∈ ranges pageSize id len offset,
      r.index = offset / pageSize := by
    refine ⟨⟨id, offset / pageSize, offset / pageSize,
      usub (offset + len) 1 / pageSize, offset, len⟩, ?_, rfl⟩
    refine mem_ranges.mpr ⟨⟨Nat.le_refl _, ?_⟩, rfl⟩
    rw [hend]
    dsimp only
    omega
  obtain ⟨-, hfirst, hoff, -, -⟩ := range_bounds hpage (by omega) hlen hmax hmem
  have hpos := (ranges_fits hpage (by omega) hlen hmax hmem).size_pos
  have hwrap : r.got pageSize size = r.localSize pageSize := by
    have hpart := (ranges_fits hpage (by omega) hlen hmax hmem).stop_le_page
    unfold Range.got
    rw [hindex] at hoff hfirst ⊢
    rw [usub_of_lt (by omega) (by omega)]
    exact Nat.min_eq_right (by omega)
  intro hsum
  have hzero : r.got pageSize size = 0 :=
    List.sum_eq_zero_iff_forall_eq_nat.mp hsum _ (List.mem_map_of_mem hmem)
  omega

theorem sum_got_iff (hpage : 0 < pageSize) (hlt : pageSize < 2 ^ 32)
    (hlen : 0 < len) (hmax : offset + len < 2 ^ 63)
    (hpast : size < offset + len) :
    ((ranges pageSize id len offset).map fun r => r.got pageSize size).sum =
      size - offset ↔ offset ≤ size ∨ offset % pageSize = 0 := by
  constructor
  · intro hsum
    by_contra hnot
    push Not at hnot
    rw [Nat.sub_eq_zero_of_le (Nat.le_of_lt hnot.1)] at hsum
    exact sum_got_pos hpage hlt hlen hmax hnot.1 hnot.2 hsum
  · exact sum_got hpage hlt hlen hmax hpast

end Call

namespace Task

/-- The parts have read this many bytes each. -/
theorem readTotal_parts {f : Range → Nat} {rs : List Range}
    {tasks : List Task}
    (hparts : List.Forall₂ (fun r task => ∃ res, task = didRead r res ∧
      ∃ bytes, res = .ok bytes ∧ bytes.length = f r) rs tasks) :
    readTotal tasks = .ok (rs.map f).sum := by
  induction hparts with
  | nil => rfl
  | cons hhead hrest ih =>
      obtain ⟨res, rfl, bytes, rfl, hlength⟩ := hhead
      rw [readTotal, ih, List.map_cons, List.sum_cons, ← hlength]
      rfl

end Task

namespace World

variable {w w' : World} {id : Id} {file : List Byte}

/-- What a part that returns what its page holds has read. -/
theorem Reads.got (h : w.Reads id file) {r : Range} (hid : r.id = id)
    (hfits : r.Fits w.pool.cache.pageSize) {res : Except Errc (List Byte)}
    (hres : w.pool.cache.Returns r res) : ∃ bytes, res = .ok bytes ∧
      bytes.length = r.got w.pool.cache.pageSize file.length := by
  obtain ⟨addr, hslot, rfl⟩ := hres
  refine ⟨_, rfl, ?_⟩
  subst hid
  have hsound := h.serial.kept.sound.cache
  have hwf := hsound.wf addr (hsound.layout.live_of_slot _ _ hslot).1
  have hdata := hwf.length_data
  have hpart := hfits.stop_le_page
  rw [Page.read, length_slice, h.size_eq hslot]
  unfold Range.got
  omega

theorem Reads.settling_step (h : w.Reads id file) {event : Event}
    {before len offset : Nat} {pageSize : Nat}
    (hsize : w.pool.cache.pageSize = pageSize)
    (hfits : ∀ r ∈ Call.ranges pageSize id len offset, r.Fits pageSize)
    (hsettling : w.Settling before (Call.ranges pageSize id len offset)
      fun r res => ∃ bytes, res = .ok bytes ∧
        bytes.length = r.got pageSize file.length)
    (hstep : w.step event = some w') (hguard : w.OnlyRead id event w')
    (hcall : event.isCall = false) :
    w'.pool.cache.pageSize = pageSize ∧
    w'.Settling before (Call.ranges pageSize id len offset)
      fun r res => ∃ bytes, res = .ok bytes ∧
        bytes.length = r.got pageSize file.length := by
  have h' := h.step hstep hguard
  cases event with
  | call op => cases hcall
  | exec i accept =>
      obtain ⟨hpool, -⟩ := h.serial.exec_sameView hstep (fun _ => True) 0 id
      rw [hpool]
      refine ⟨hsize, ⟨?_, ?_⟩⟩
      · rw [hpool]
        exact hsettling.length_eq
      · rw [hpool]
        exact hsettling.part
  | resume i =>
      obtain ⟨task, c', task', others, hres⟩ :=
        h.serial.resumption hstep hguard.1
      have hsize' : w'.pool.cache.pageSize = pageSize := by
        rw [hres.world_eq]
        exact hres.keeps.pageSize.trans hsize
      refine ⟨hsize', hsettling.resume h.serial hstep hguard.1 ?_⟩
      intro r hr res hreturned
      have hgot := h'.got (Call.id_of_mem_ranges hr)
        (hsize' ▸ hfits r hr) hreturned
      rw [hsize'] at hgot
      exact hgot

/-- End of file.  After calls made one at a time that do not write the file, a
`read` of it that goes past its end ends: some step is possible while it is in
progress, and it takes no more steps than there is work.  When it has ended, it
has read what is left of the file just in case it starts inside the file, or
at the start of a page. -/
theorem read_end_iff {w w₁ w₂ : World} {before rest : List Event} {id : Id}
    {len offset : Nat} (hready : w.Ready id)
    (hbefore : Runs World.step (OnlyRead id) w before w₁)
    (hread : Runs World.step (OnlyRead id) w₁
      (.call (.read id len offset) :: rest) w₂)
    (hrest : ∀ event ∈ rest, event.isCall = false)
    (hpast : (w.pool.cache.fileOf w.device id).length < offset + len) :
    (w₂.pool.Idle →
      (Task.readTotal (w₂.pool.tasks.drop w₁.pool.tasks.length) =
        .ok ((w.pool.cache.fileOf w.device id).length - offset) ↔
      offset ≤ (w.pool.cache.fileOf w.device id).length ∨
        offset % w₁.pool.cache.pageSize = 0)) ∧
    (¬ w₂.pool.Idle →
      ∃ event w₃, event.isCall = false ∧ w₂.step event = some w₃) ∧
    rest.length ≤ work { w₁ with pool := w₁.pool.call (.read id len offset) } := by
  generalize hfile : w.pool.cache.fileOf w.device id = file at *
  have hreads : w.Reads id file := hfile ▸ hready.reads
  have hreads₁ : w₁.Reads id file := hbefore.preserves
    (I := fun w => w.Reads id file)
    (fun hstep hguard h => h.step hstep hguard) hreads
  cases hread with
  | @cons _ w₁' _ _ _ hstep hguard hruns =>
      have hreads' := hreads₁.step hstep hguard
      obtain rfl := Option.some.inj hstep
      have hcall := hguard.1.2
      have hsound := hreads₁.serial.kept.sound.cache
      have hpage := hsound.pageSize_pos
      have hlt := hsound.pageSize_lt
      have hfits : ∀ r ∈ Call.ranges w₁.pool.cache.pageSize id len offset,
          r.Fits w₁.pool.cache.pageSize := fun r hr =>
        Call.ranges_fits hpage (by omega) hcall.2.1 hcall.2.2 hr
      have hruns' : Runs World.step (fun w event w' =>
          w.OnlyRead id event w' ∧ event.isCall = false) _ rest w₂ :=
        hruns.weaken fun event hmem _ _ hguard => ⟨hguard, hrest event hmem⟩
      obtain ⟨hreads₂, -, hsettling⟩ := hruns'.preserves
        (I := fun w => w.Reads id file ∧
          w.pool.cache.pageSize = w₁.pool.cache.pageSize ∧
          w.Settling w₁.pool.tasks.length
            (Call.ranges w₁.pool.cache.pageSize id len offset)
            fun r res => ∃ bytes, res = .ok bytes ∧
              bytes.length = r.got w₁.pool.cache.pageSize file.length)
        (fun hstep hguard h => ⟨h.1.step hstep hguard.1,
          h.1.settling_step h.2.1 hfits h.2.2 hstep hguard.1 hguard.2⟩)
        ⟨hreads', hcall.same.2.2.1, settling_call hcall⟩
      refine ⟨fun hidle => ?_, hreads₂.serial.enabled, ?_⟩
      · rw [Task.readTotal_parts (hsettling.settled hidle), Except.ok.injEq]
        exact Call.sum_got_iff hpage hlt hcall.2.1 hcall.2.2 hpast
      · exact hreads'.serial.length_le
          (hruns'.weaken fun _ _ _ _ hguard => ⟨hguard.1.1, hguard.2⟩)

end World

namespace PastEnd

/-- The steps of a `read` of two pages that are not cached. -/
def twoPages : List Event :=
  [.resume 0, .exec 0 0, .resume 0, .exec 0 0, .resume 0, .resume 1,
    .exec 1 0, .resume 1]

/-- A `read` from inside the file to a page that lies past its end. -/
theorem read_end_iff_two_pages : ∃ w₂ : World, w₂.pool.Idle ∧
    Task.readTotal w₂.pool.tasks = .ok 2 := by
  have hruns : ∃ w₂, Runs World.step (World.OnlyRead ⟨1⟩)
      (World.single 2 [1, 2, 3]) (.call (.read ⟨1⟩ 6 1) :: twoPages) w₂ ∧
      w₂.pool.Idle := by
    refine ⟨_, .cons rfl ⟨⟨by decide, by decide, by decide, by decide⟩, nofun⟩
      (.cons rfl ⟨(by decide : World.Intact _), nofun⟩
      (.cons rfl ⟨trivial, nofun⟩
      (.cons rfl ⟨(by decide : World.Intact _), nofun⟩
      (.cons rfl ⟨trivial, nofun⟩
      (.cons rfl ⟨(by decide : World.Intact _), nofun⟩
      (.cons rfl ⟨(by decide : World.Intact _), nofun⟩
      (.cons rfl ⟨trivial, nofun⟩
      (.cons rfl ⟨(by decide : World.Intact _), nofun⟩
      (.nil _))))))))), by decide⟩
  obtain ⟨w₂, hread, hidle⟩ := hruns
  have hend := World.read_end_iff ((World.opened_single 2 [1, 2, 3]).ready ⟨1⟩)
    (.nil _) hread (by decide) (by decide)
  exact ⟨w₂, hidle, (hend.1 hidle).mpr (.inl (by decide))⟩

/-- A `read` that starts past the end of the file, inside a page, returns bytes
that the file does not have. -/
theorem read_past_end_returns_bytes : ∃ w₂ : World,
    Runs World.step (World.OnlyRead ⟨1⟩) (World.single 2 [1, 2, 3])
      [.call (.read ⟨1⟩ 2 5), .resume 0, .exec 0 0, .resume 0, .exec 0 0,
        .resume 0] w₂ ∧
    w₂.pool.Idle ∧ Task.readTotal w₂.pool.tasks = .ok 2 ∧
    Cache.fileOf (World.single 2 [1, 2, 3]).pool.cache
      (World.single 2 [1, 2, 3]).device ⟨1⟩ = [1, 2, 3] := by
  refine ⟨_, .cons rfl ⟨⟨by decide, by decide, by decide, by decide⟩, nofun⟩
    (.cons rfl ⟨(by decide : World.Intact _), nofun⟩
    (.cons rfl ⟨trivial, nofun⟩
    (.cons rfl ⟨(by decide : World.Intact _), nofun⟩
    (.cons rfl ⟨trivial, nofun⟩
    (.cons rfl ⟨(by decide : World.Intact _), nofun⟩ (.nil _)))))),
    by decide, by rfl, by rfl⟩

end PastEnd

end Madbfs
