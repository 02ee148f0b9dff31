/-
What a `read` returns.  Its parts answer with the bytes of their pages; summed
up and copied into the buffer they are the bytes of the flat file.
-/
import Madbfs.Cache.Coherent
import Madbfs.Cache.Durable

namespace Madbfs

open Bytes

namespace Call

/-- What the parts of the pages `first` to `first + count - 1` add up to. -/
theorem sum_parts {pageSize offset stop : Nat} (first count : Nat)
    (hfirst : offset ≤ first * pageSize + pageSize) :
    ((List.range' first count).map fun index =>
      min stop (index * pageSize + pageSize) -
        max offset (index * pageSize)).sum =
      min stop ((first + count) * pageSize) -
        max offset (first * pageSize) := by
  induction count generalizing first with
  | zero =>
      simp only [List.range'_zero, List.map_nil, List.sum_nil, Nat.add_zero]
      omega
  | succ count ih =>
      have hnext := ih (first + 1) (by rw [Nat.add_mul]; omega)
      have hmono : (first + 1) * pageSize ≤
          (first + 1 + count) * pageSize :=
        Nat.mul_le_mul_right _ (by omega)
      rw [List.range'_succ, List.map_cons, List.sum_cons, hnext]
      rw [show first + (count + 1) = first + 1 + count by omega]
      rw [Nat.add_mul first 1] at hmono ⊢
      omega

/-- The parts of a call have its length together. -/
theorem sum_localSize {pageSize : Nat} {id : Id} {len offset : Nat}
    (hpage : 0 < pageSize) (hlt : pageSize < 2 ^ 32) (hlen : 0 < len)
    (hmax : offset + len < 2 ^ 63) :
    ((ranges pageSize id len offset).map fun r => r.localSize pageSize).sum =
      len := by
  have hend : usub (offset + len) 1 = offset + len - 1 :=
    usub_of_le (by omega) (by omega)
  have hparts : (ranges pageSize id len offset).map
      (fun r => r.localSize pageSize) =
      (ranges pageSize id len offset).map fun r =>
        min (offset + len) (r.index * pageSize + pageSize) -
          max offset (r.index * pageSize) := by
    refine List.map_congr_left fun r hr => ?_
    exact (range_bounds hpage (by omega) hlen hmax hr).2.2.2.1
  have hdiv := Nat.div_add_mod' offset pageSize
  have hmod := Nat.mod_lt offset hpage
  have hdiv' := Nat.div_add_mod' (offset + len - 1) pageSize
  have hmod' := Nat.mod_lt (offset + len - 1) hpage
  have hmono : offset / pageSize ≤ (offset + len - 1) / pageSize :=
    Nat.div_le_div_right (by omega)
  rw [hparts]
  unfold ranges
  rw [List.map_map]
  refine (sum_parts _ _
    (by omega)).trans ?_
  rw [hend, show offset / pageSize + ((offset + len - 1) / pageSize + 1 -
    offset / pageSize) = (offset + len - 1) / pageSize + 1 by omega,
    Nat.add_mul]
  omega

end Call

namespace Task

/-- A part of a `read` that has its bytes of the flat file. -/
def answer (pageSize : Nat) (flat : List Byte) (r : Range) : Task :=
  .didRead r (.ok (slice flat (r.start pageSize) (r.localSize pageSize)))

theorem readTotal_answers (pageSize : Nat) {flat : List Byte}
    (rs : List Range) (hin : ∀ r ∈ rs, r.stop pageSize ≤ flat.length) :
    readTotal (rs.map (answer pageSize flat)) =
      .ok (rs.map fun r => r.localSize pageSize).sum := by
  induction rs with
  | nil => rfl
  | cons r rs ih =>
      have hstop := hin r List.mem_cons_self
      unfold Range.stop at hstop
      have hlength : (slice flat (r.start pageSize)
          (r.localSize pageSize)).length = r.localSize pageSize := by
        rw [length_slice]
        omega
      rw [List.map_cons, answer, readTotal,
        ih fun r' hr' => hin r' (List.mem_cons_of_mem _ hr'), List.map_cons,
        List.sum_cons, hlength]
      rfl

/-- The buffer after some parts were copied out. -/
theorem readOut_answers {pageSize len offset : Nat} {flat : List Byte}
    (rs : List Range) (out : List Byte) (hlength : out.length = len)
    (hfits : ∀ r ∈ rs, r.Fits pageSize ∧ r.offset = offset ∧ r.len = len)
    (hin : ∀ r ∈ rs, r.stop pageSize ≤ flat.length) :
    (readOut pageSize out (rs.map (answer pageSize flat))).length = len ∧
    ∀ pos < len, ((∃ r ∈ rs, r.start pageSize ≤ offset + pos ∧
        offset + pos < r.stop pageSize) ∨
        valueAt out pos = valueAt flat (offset + pos)) →
      valueAt (readOut pageSize out (rs.map (answer pageSize flat))) pos =
        valueAt flat (offset + pos) := by
  induction rs generalizing out with
  | nil =>
      refine ⟨hlength, fun pos hpos hor => ?_⟩
      rcases hor with ⟨r, hr, -⟩ | heq
      · cases hr
      · exact heq
  | cons r rs ih =>
      obtain ⟨hfit, hoff, hlen⟩ := hfits r List.mem_cons_self
      have hstop := hin r List.mem_cons_self
      have hstart := hfit.start_eq
      have hend := hfit.stop_le
      unfold Range.stop at hstop hend
      have hpart : (slice flat (r.start pageSize)
          (r.localSize pageSize)).length = r.localSize pageSize := by
        rw [length_slice]
        omega
      rw [List.map_cons, answer, readOut]
      obtain ⟨hlength', hvalue⟩ := ih (overlay out (r.bufOffset pageSize)
        (slice flat (r.start pageSize) (r.localSize pageSize)))
        (by rw [length_overlay_of_le (by rw [hpart]; omega), hlength])
        (fun r' hr' => hfits r' (List.mem_cons_of_mem _ hr'))
        (fun r' hr' => hin r' (List.mem_cons_of_mem _ hr'))
      refine ⟨hlength', fun pos hpos hor => hvalue pos hpos ?_⟩
      by_cases hhere : r.start pageSize ≤ offset + pos ∧
          offset + pos < r.stop pageSize
      · refine .inr ?_
        unfold Range.stop at hhere
        rw [valueAt_overlay, if_pos (by omega), valueAt_slice,
          if_pos (by omega)]
        congr 1
        omega
      · rcases hor with ⟨r', hr', hcover⟩ | heq
        · rcases List.mem_cons.mp hr' with rfl | hrest
          · exact absurd hcover hhere
          · exact .inl ⟨r', hrest, hcover⟩
        · refine .inr ?_
          unfold Range.stop at hhere
          rw [valueAt_overlay, if_neg (by omega)]
          exact heq

/-- The parts of a call, put together. -/
theorem read_answers {pageSize len offset : Nat} {id : Id}
    {flat out : List Byte} (hpage : 0 < pageSize) (hlt : pageSize < 2 ^ 32)
    (hlen : 0 < len) (hmax : offset + len < 2 ^ 63)
    (hin : offset + len ≤ flat.length) (hout : out.length = len) :
    readTotal ((Call.ranges pageSize id len offset).map
      (answer pageSize flat)) = .ok len ∧
    readOut pageSize out ((Call.ranges pageSize id len offset).map
      (answer pageSize flat)) = slice flat offset len := by
  have hrange : ∀ r ∈ Call.ranges pageSize id len offset,
      r.Fits pageSize ∧ r.offset = offset ∧ r.len = len := by
    intro r hr
    refine ⟨Call.ranges_fits hpage (by omega) hlen hmax hr, ?_⟩
    rw [(Call.mem_ranges.mp hr).2]
    exact ⟨rfl, rfl⟩
  have hstop := (Call.stops_le_iff id hpage (by omega) hlen hmax _).mpr hin
  refine ⟨?_, ?_⟩
  · rw [readTotal_answers _ _ hstop, Call.sum_localSize hpage hlt hlen hmax]
  · obtain ⟨hlength, hvalue⟩ := readOut_answers _ out hout hrange hstop
    refine ext_valueAt ?_ fun pos => ?_
    · rw [hlength, length_slice]
      omega
    · rw [valueAt_slice]
      split_ifs with hpos
      · refine hvalue pos hpos (.inl ?_)
        exact (Call.covered_iff id hpage (by omega) hlen hmax _).mp (by omega)
      · exact valueAt_of_length_le (by rw [hlength]; omega)

end Task

namespace Cache

section

variable {c c' : Cache} {held : Multiset Addr} {r : Range}

/-- `read_at` returns what the page in its slot holds. -/
def Returns (c : Cache) (r : Range) (res : Except Errc (List Byte)) : Prop :=
  ∃ addr, c.slot r.key = some addr ∧ res = .ok ((c.heap addr).read
    (r.localSize c.pageSize) (r.localOffset c.pageSize))

theorem returns_splice {addr : Addr} (hslot : c.slot r.key = some addr) :
    ((c.splice addr).modifyEntry r.id (addReadInflight (-1))).Returns r
      (.ok ((c.heap addr).read (r.localSize c.pageSize)
        (r.localOffset c.pageSize))) := by
  refine ⟨addr, ?_, ?_⟩
  · rw [slot_modifyEntry _ r.id _ (by intro entry; rfl)]
    exact hslot
  · rw [modifyEntry_heap, modifyEntry_pageSize]
    rfl

theorem readAtFinish_returns {π : Type} {addr : Addr}
    {res : Except Errc (List Byte)}
    (hfinish : c.readAtFinish r addr = (c', Flow.done (π := π) res)) :
    c'.Returns r res := by
  unfold readAtFinish at hfinish
  split at hfinish
  · next hvalid =>
      obtain ⟨rfl, hres⟩ := Prod.mk.inj hfinish
      obtain rfl := Flow.done.inj hres
      exact returns_splice hvalid.1
  · cases (Prod.mk.inj hfinish).2

theorem ReadLookup.returns {res : Except Errc (List Byte)}
    (hlookup : ReadLookup c r c' (.done res)) : c'.Returns r res := by
  cases hlookup with
  | hit addr hslot hmem => exact returns_splice hslot

/-- `read_at` returns an error, or what the page in its slot holds. -/
theorem ReadStep.returns {pc : ReadAtPc} {reply : Reply}
    {res : Except Errc (List Byte)}
    (hstep : ReadStep c held r pc reply c' (.done res)) :
    (∃ c₁ err, ReadFails c r pc reply c₁ err) ∨ c'.Returns r res := by
  cases hstep with
  | start c₁ _ _ henter hlookup => exact .inr hlookup.returns
  | queued fut c₁ _ _ henter hlookup => exact .inr hlookup.returns
  | fail pc reply c₁ err hfails => exact .inl ⟨c₁, err, hfails⟩
  | insert fd fut fut' bytes addr _ _ hqueue hslot hthen =>
      obtain ⟨c₁, h⟩ := hthen.done
      exact .inr (readAtFinish_returns h)
  | evict addr pc reply _ _ hstep =>
      obtain ⟨c₁, h⟩ := hstep.done
      exact .inr (readAtFinish_returns h)

end

end Cache

namespace World

section

variable {S : Id → Prop} {w w' : World} {i : Nat}

/-- While calls are made one at a time no `read_at` fails. -/
theorem Serial.not_readFails (hserial : w.Serial S) {r : Range}
    {pc : ReadAtPc} (htask : w.pool.tasks[i]? = some (.readAt r pc))
    {c₁ : Cache} {err : Errc} :
    ¬ Cache.ReadFails w.pool.cache r pc ((w.replies i).getD .go) c₁ err := by
  intro hfails
  have hwait := hserial.kept.sound.waits i _ htask
  have hmem := List.mem_of_getElem? htask
  generalize hreply : (w.replies i).getD .go = reply at hfails
  cases hfails with
  | queued fut err hready herr => exact hserial.calm _ hmem
  | opening err =>
      have hsome := Cache.getD_eq_of_ne_go hreply fun h => by cases h
      obtain ⟨fd, h, -⟩ := hwait.2 _ hsome
      cases h
  | canceled fd fut bytes hqueue =>
      have hsome := (hserial.queued r.key).mpr ⟨_, hmem, rfl⟩
      rw [hqueue] at hsome
      cases hsome
  | fetching fd fut err =>
      have hsome := Cache.getD_eq_of_ne_go hreply fun h => by cases h
      obtain ⟨bytes, h⟩ := hwait.2.2.2.2 _ hsome
      cases h

/-- A part that returns what its page holds has the bytes of the flat file. -/
theorem Mirrors.returns {flat : Id → List Byte} (hmirrors : w.Mirrors flat)
    (hidle : ∀ id r input, ¬ w.Writing id r input) {r : Range}
    (hfits : r.Fits w.pool.cache.pageSize)
    (hin : r.stop w.pool.cache.pageSize ≤ (flat r.id).length)
    {res : Except Errc (List Byte)} (hres : w.pool.cache.Returns r res) :
    res = .ok (slice (flat r.id) (r.start w.pool.cache.pageSize)
      (r.localSize w.pool.cache.pageSize)) := by
  obtain ⟨addr, hslot, rfl⟩ := hres
  have hsound := hmirrors.serial.kept.sound.cache
  have hwf := hsound.wf addr (hsound.layout.live_of_slot _ _ hslot).1
  have hlength := hwf.length_data
  have hle := hwf.size_le
  have hlt := hwf.pageSize_lt
  have hpos := hfits.size_pos
  have hpage := hfits.stop_le_page
  unfold Range.stop at hin
  -- every position of the part lies in this page
  have hat : ∀ k < r.localSize w.pool.cache.pageSize,
      (r.start w.pool.cache.pageSize + k) / w.pool.cache.pageSize = r.index ∧
      (r.start w.pool.cache.pageSize + k) % w.pool.cache.pageSize =
        r.localOffset w.pool.cache.pageSize + k := by
    intro k hk
    unfold Range.start
    rw [Nat.add_assoc, Nat.mul_comm, Nat.mul_add_div hsound.pageSize_pos,
      Nat.mul_add_mod, Nat.div_eq_of_lt (by omega), Nat.mod_eq_of_lt (by omega)]
    exact ⟨rfl, rfl⟩
  have hvalid : ∀ k < r.localSize w.pool.cache.pageSize,
      r.localOffset w.pool.cache.pageSize + k <
        (w.pool.cache.heap addr).size := by
    intro k hk
    have hbyte := ((hmirrors.complete r.id).covered
      (r.start w.pool.cache.pageSize + k) (by omega)).resolve_left
        fun h => by
          obtain ⟨r', input, hwriting, -⟩ := h
          exact hidle _ r' input hwriting
    rw [(hat k hk).1, (hat k hk).2, show (⟨r.id, r.index⟩ : PageKey) = r.key
      from rfl, hslot] at hbyte
    exact hbyte
  have hsize := hvalid (r.localSize w.pool.cache.pageSize - 1) (by omega)
  have hread : (w.pool.cache.heap addr).read
      (r.localSize w.pool.cache.pageSize)
      (r.localOffset w.pool.cache.pageSize) =
      slice (w.pool.cache.heap addr).data
        (r.localOffset w.pool.cache.pageSize)
        (r.localSize w.pool.cache.pageSize) := by
    unfold Page.read
    rw [usub_of_le (by omega) (by omega), Nat.min_eq_right (by omega)]
  rw [hread]
  congr 1
  refine ext_valueAt ?_ fun k => ?_
  · rw [length_slice, length_slice]
    omega
  · rw [valueAt_slice, valueAt_slice]
    split_ifs with hk
    · rw [← (hmirrors.tracks r.id).contents _ fun r' input h =>
        absurd h (hidle _ r' input)]
      unfold Cache.contents
      rw [(hat k hk).1, (hat k hk).2, show (⟨r.id, r.index⟩ : PageKey) = r.key
        from rfl, hslot]
      dsimp only
      rw [if_pos (hvalid k hk)]
    · rfl

/-- The last tasks are the parts of a `read`: running, or done with their
bytes of the flat file. -/
structure Answering (w : World) (flat : Id → List Byte) (before : Nat)
    (rs : List Range) : Prop where
  length_eq : w.pool.tasks.length = before + rs.length
  part : ∀ (j : Nat) r, rs[j]? = some r →
    (∃ pc, w.pool.tasks[before + j]? = some (.readAt r pc)) ∨
      w.pool.tasks[before + j]? =
        some (Task.answer w.pool.cache.pageSize (flat r.id) r)

theorem Answering.resume {flat : Id → List Byte} {before : Nat}
    {rs : List Range} (hanswering : w.Answering flat before rs)
    (hserial : w.Serial fun _ => True) (hmirrors : w'.Mirrors flat)
    (hin : ∀ r ∈ rs, r.stop w.pool.cache.pageSize ≤ (flat r.id).length)
    (hresume : w.resume i = some w') (hintact : w'.Intact) :
    w'.Answering flat before rs := by
  obtain ⟨task, c', task', others, hres⟩ :=
    hserial.resumption hresume hintact
  have hsize : c'.pageSize = w.pool.cache.pageSize := hres.keeps.pageSize
  have hwriting := hres.writing_iff hserial
  have hresumes := hres.resumes
  have hworld := hres.world_eq
  refine ⟨?_, ?_⟩
  · rw [hworld]
    exact List.length_set.trans hanswering.length_eq
  · intro j r hr
    have hset : w'.pool.tasks[before + j]? =
        (w.pool.tasks.set i task')[before + j]? := by rw [hworld]
    have hpageSize : w'.pool.cache.pageSize = w.pool.cache.pageSize := by
      rw [hworld]
      exact hsize
    rw [hset, hpageSize]
    by_cases hne : before + j = i
    · subst hne
      rw [List.getElem?_set_self hres.lt_length]
      rcases hanswering.part j r hr with ⟨pc, htask⟩ | htask
      · obtain rfl := Option.some.inj (hres.task_eq.symm.trans htask)
        cases hresumes with
        | readAwait _ _ pc' _ hstep => exact .inl ⟨pc', rfl⟩
        | readDone _ _ _ res hstep =>
            have hmem := List.mem_of_getElem? htask
            have hidle : ∀ id r' input, ¬ w'.Writing id r' input := by
              intro id r' input h
              obtain ⟨hold, -⟩ := (hwriting id r' input).mp h
              exact hserial.not_pending_of_read hmem r'.key
                ⟨r', input, ⟨rfl, hold.2⟩, rfl⟩
            have hfits : r.Fits w'.pool.cache.pageSize := by
              rw [hpageSize]
              exact hserial.fits _ hmem
            have hstop : r.stop w'.pool.cache.pageSize ≤
                (flat r.id).length := by
              rw [hpageSize]
              exact hin r (List.mem_of_getElem? hr)
            have hreturns : w'.pool.cache.Returns r res := by
              rcases hstep.returns with ⟨c₁, err, hfails⟩ | hreturns
              · exact absurd hfails (hserial.not_readFails htask)
              · rw [hworld]
                exact hreturns
            refine .inr ?_
            rw [hmirrors.returns hidle hfits hstop hreturns, hpageSize]
            rfl
      · obtain rfl := Option.some.inj (hres.task_eq.symm.trans htask)
        cases hresumes.not_done
    · rw [List.getElem?_set_ne (Ne.symm hne)]
      exact hanswering.part j r hr

/-- The tasks of a call of `read`. -/
theorem call_read_tasks {id : Id} {len offset : Nat}
    (hcall : Call.Proper w.pool.cache (.read id len offset)) :
    (w.pool.call (.read id len offset)).tasks =
      w.pool.tasks ++ (Call.ranges w.pool.cache.pageSize id len offset).map
        fun r => .readAt r .start := by
  obtain ⟨entry, hentry⟩ := Option.isSome_iff_exists.mp hcall.1
  simp only [Pool.call, Call.start, hentry]

/-- A call of `read` starts its parts. -/
theorem answering_call {id : Id} {len offset : Nat}
    (hcall : Call.Proper w.pool.cache (.read id len offset))
    (flat : Id → List Byte) :
    Answering { w with pool := w.pool.call (.read id len offset) } flat
      w.pool.tasks.length
      (Call.ranges w.pool.cache.pageSize id len offset) := by
  refine ⟨?_, fun j r hr => .inl ⟨.start, ?_⟩⟩
  · change (w.pool.call (.read id len offset)).tasks.length = _
    rw [call_read_tasks hcall, List.length_append, List.length_map]
  · change (w.pool.call (.read id len offset)).tasks[_]? = _
    rw [call_read_tasks hcall,
      List.getElem?_append_right (Nat.le_add_right _ _),
      Nat.add_sub_cancel_left, List.getElem?_map, hr]
    rfl

/-- When nothing is running any more, all parts have answered. -/
theorem Answering.answers {flat : Id → List Byte} {before : Nat}
    {rs : List Range} (hanswering : w.Answering flat before rs)
    (hidle : w.pool.Idle) :
    w.pool.tasks.drop before = rs.map fun r =>
      Task.answer w.pool.cache.pageSize (flat r.id) r := by
  refine List.ext_getElem? fun j => ?_
  rw [List.getElem?_drop, List.getElem?_map]
  cases hr : rs[j]? with
  | none =>
      have hlength := hanswering.length_eq
      have hj := List.getElem?_eq_none_iff.mp hr
      exact List.getElem?_eq_none_iff.mpr (by omega)
  | some r =>
      rcases hanswering.part j r hr with ⟨pc, htask⟩ | htask
      · cases hidle _ (List.mem_of_getElem? htask)
      · exact htask

end

end World

namespace Shadowed

section

variable {s s' : Shadowed} {events : List Event}

theorem runs_world (hruns : Runs Shadowed.step Seamless s events s') :
    Runs World.step (World.Gapless fun _ => True) s.world events
      s'.world := by
  induction hruns with
  | nil s => exact .nil s.world
  | cons hstep hguard hrest ih =>
      exact .cons (step_cases hstep).1 hguard.1 ih

/-- The flat files after a run. -/
theorem flat_runs (hruns : Runs Shadowed.step Seamless s events s') :
    s'.flat = fun id => appliedAll id (s.flat id) events := by
  induction hruns with
  | nil s => rfl
  | cons hstep hguard hrest ih =>
      rw [ih, (step_cases hstep).2]
      rfl

theorem answering_runs {before : Nat} {rs : List Range}
    (hruns : Runs Shadowed.step Seamless s events s')
    (hcalls : ∀ event ∈ events, event.isCall = false)
    (hmirrors : s.world.Mirrors s.flat)
    (hin : ∀ r ∈ rs, r.stop s.world.pool.cache.pageSize ≤
      (s.flat r.id).length)
    (hanswering : s.world.Answering s.flat before rs) :
    s'.world.Answering s.flat before rs ∧
      s'.world.pool.cache.pageSize = s.world.pool.cache.pageSize := by
  induction hruns with
  | nil s => exact ⟨hanswering, rfl⟩
  | @cons s s₁ t event events hstep hguard hrest ih =>
      obtain ⟨hworld, hflat⟩ := step_cases hstep
      have hmirrors₁ := mirrors_step hstep hguard hmirrors
      have hsame : s₁.flat = s.flat := by
        have hcall := hcalls event List.mem_cons_self
        rw [hflat]
        cases event with
        | call op => cases hcall
        | exec i accept => rfl
        | resume i => rfl
      have hnext : s₁.world.Answering s.flat before rs ∧
          s₁.world.pool.cache.pageSize = s.world.pool.cache.pageSize := by
        cases event with
        | call op => cases hcalls _ List.mem_cons_self
        | exec i accept =>
            obtain ⟨hpool, -⟩ := hmirrors.serial.exec_sameView hworld
              (fun _ => True) 0 ⟨0⟩
            refine ⟨⟨?_, ?_⟩, ?_⟩
            · rw [hpool]
              exact hanswering.length_eq
            · rw [hpool]
              exact hanswering.part
            · rw [hpool]
        | resume i =>
            obtain ⟨task, c', task', others, hres⟩ :=
              hmirrors.serial.resumption hworld hguard.1.1
            refine ⟨hanswering.resume hmirrors.serial (hsame ▸ hmirrors₁) hin
              hworld hguard.1.1, ?_⟩
            rw [hres.world_eq]
            exact hres.keeps.pageSize
      obtain ⟨hfinal, hsize⟩ := ih
        (fun event hmem => hcalls event (List.mem_cons_of_mem _ hmem))
        hmirrors₁ (by rw [hsame, hnext.2]; exact hin)
        (by rw [hsame]; exact hnext.1)
      rw [hsame] at hfinal
      exact ⟨hfinal, hsize.trans hnext.2⟩

/-- A `read` inside the flat file, from a state that matches it. -/
theorem read_mirrors {rest : List Event} {id : Id} {len offset : Nat}
    {out : List Byte} (hmirrors : s.world.Mirrors s.flat)
    (hread : Runs Shadowed.step Seamless s
      (.call (.read id len offset) :: rest) s')
    (hrest : ∀ event ∈ rest, event.isCall = false)
    (hin : offset + len ≤ (s.flat id).length) (hout : out.length = len) :
    (s'.world.pool.Idle →
      Task.readTotal (s'.world.pool.tasks.drop s.world.pool.tasks.length) =
        .ok len ∧
      Task.readOut s.world.pool.cache.pageSize out
        (s'.world.pool.tasks.drop s.world.pool.tasks.length) =
        slice (s.flat id) offset len) ∧
    (¬ s'.world.pool.Idle →
      ∃ event w', event.isCall = false ∧ s'.world.step event = some w') ∧
    rest.length ≤ World.work { s.world with
      pool := s.world.pool.call (.read id len offset) } := by
  have hmirrors' := mirrors_runs hread hmirrors
  cases hread with
  | @cons _ s₁ _ _ _ hstep hguard hruns =>
      obtain ⟨hworld, hflat₁⟩ := step_cases hstep
      have hworld₁ := Option.some.inj hworld
      have hmirrors₁ := mirrors_step hstep hguard hmirrors
      have hlength := (hmirrors₁.serial.length_le
        (World.runs_without_calls (runs_world hruns) hrest))
      rw [← hworld₁] at hlength
      refine ⟨fun hidle => ?_, hmirrors'.serial.enabled, hlength⟩
      have hcall := hguard.1.1.2
      have hpage := hmirrors.serial.kept.sound.cache.pageSize_pos
      have hlt := hmirrors.serial.kept.sound.cache.pageSize_lt
      have hsame : s₁.flat = s.flat := hflat₁
      have hstart : s₁.world.pool.cache.pageSize =
          s.world.pool.cache.pageSize := by
        rw [← hworld₁]
        exact hcall.same.2.2.1
      have hid : ∀ r ∈ Call.ranges s.world.pool.cache.pageSize id len offset,
          r.id = id := fun r hr => Call.id_of_mem_ranges hr
      have hstop := (Call.stops_le_iff id hpage (by omega) hcall.2.1
        hcall.2.2 _).mpr hin
      obtain ⟨hfinal, hsize⟩ := answering_runs hruns
        hrest hmirrors₁ (by
          intro r hr
          rw [hstart, hsame, hid r hr]
          exact hstop r hr) (by
          rw [← hworld₁]
          exact World.answering_call hcall s₁.flat)
      have hanswers := hfinal.answers hidle
      rw [hsize, hstart, hsame, List.map_congr_left fun r hr =>
        congrArg (fun id => Task.answer s.world.pool.cache.pageSize
          (s.flat id) r) (hid r hr)] at hanswers
      rw [hanswers]
      exact Task.read_answers hpage hlt hcall.2.1 hcall.2.2 hin hout

end

/-- Coherence.  After calls made one at a time on any files, in which no write
skips or cuts off bytes of its page, a `read` inside the flat file ends: some
step is possible while it is in progress, and it takes no more steps than
there is work.  When it has ended, it has read all the bytes it was asked for,
and they are those of the flat file. -/
theorem read_coherent {w : World} {s s' : Shadowed} {before rest : List Event}
    {id : Id} {len offset : Nat} {out : List Byte} (hopened : w.Opened)
    (hbefore : Runs Shadowed.step Seamless
      ⟨w, fun id => w.pool.cache.fileOf w.device id⟩ before s)
    (hread : Runs Shadowed.step Seamless s
      (.call (.read id len offset) :: rest) s')
    (hrest : ∀ event ∈ rest, event.isCall = false)
    (hin : offset + len ≤ (appliedAll id (w.pool.cache.fileOf w.device id)
      before).length) (hout : out.length = len) :
    (s'.world.pool.Idle →
      Task.readTotal (s'.world.pool.tasks.drop s.world.pool.tasks.length) =
        .ok len ∧
      Task.readOut s.world.pool.cache.pageSize out
        (s'.world.pool.tasks.drop s.world.pool.tasks.length) =
        slice (appliedAll id (w.pool.cache.fileOf w.device id) before)
          offset len) ∧
    (¬ s'.world.pool.Idle →
      ∃ event w', event.isCall = false ∧ s'.world.step event = some w') ∧
    rest.length ≤ World.work { s.world with
      pool := s.world.pool.call (.read id len offset) } := by
  have hmirrors := mirrors_runs hbefore hopened.mirrors
  have hflat : s.flat id =
      appliedAll id (w.pool.cache.fileOf w.device id) before := by
    rw [flat_runs hbefore]
  rw [← hflat] at hin ⊢
  exact read_mirrors hmirrors hread hrest hin hout

end Shadowed

namespace ShortPage

/-- A write into the page of an earlier write shows between its bytes. -/
theorem read_coherent_cached : ∃ w : World, w.pool.Idle ∧
    Task.readTotal (w.pool.tasks.drop 2) = .ok 3 ∧
    Task.readOut 4 [0, 0, 0] (w.pool.tasks.drop 2) = [9, 5, 7] := by
  have hruns : ∃ s, Runs Shadowed.step Shadowed.Seamless
      ⟨World.single 2 [1, 2, 3], fun id => Cache.fileOf
        (World.single 2 [1, 2, 3]).pool.cache
        (World.single 2 [1, 2, 3]).device id⟩
      [.call (.write ⟨1⟩ [9, 8, 7] 0), .resume 0,
        .call (.write ⟨1⟩ [5] 1), .resume 1] s ∧
      ∃ s', Runs Shadowed.step Shadowed.Seamless s
        [.call (.read ⟨1⟩ 3 0), .resume 2] s' ∧ s'.world.pool.Idle ∧
        s.world.pool.tasks.length = 2 ∧
        s.world.pool.cache.pageSize = 4 := by
    refine ⟨_, .cons rfl ⟨⟨⟨by decide, by decide, by decide, by decide⟩,
        trivial⟩, ?_⟩
      (.cons rfl ⟨⟨(by decide : World.Intact _), ?_⟩, ?_⟩
      (.cons rfl ⟨⟨⟨by decide, by decide, by decide, by decide⟩, trivial⟩, ?_⟩
      (.cons rfl ⟨⟨(by decide : World.Intact _), ?_⟩, ?_⟩ (.nil _)))), _,
      .cons rfl ⟨⟨⟨by decide, by decide, by decide, by decide⟩, trivial⟩, ?_⟩
      (.cons rfl ⟨⟨(by decide : World.Intact _), ?_⟩, ?_⟩ (.nil _)),
      by decide, rfl, rfl⟩
    case refine_1 | refine_4 =>
      intro id input offset heq
      obtain ⟨rfl, rfl, rfl⟩ := Call.write.inj heq
      decide
    case refine_2 | refine_5 =>
      intro r input pc n htask _ _ pos hge hlt
      obtain ⟨rfl, -, -⟩ := Task.writeAt.inj (Option.some.inj htask)
      exact absurd (Nat.lt_of_le_of_lt hge hlt) (by decide)
    case refine_3 | refine_6 =>
      intro r input pc n htask _
      obtain ⟨rfl, -, -⟩ := Task.writeAt.inj (Option.some.inj htask)
      decide
    case refine_7 =>
      intro id input offset heq
      cases heq
    all_goals
      intro r input pc n htask
      cases htask
  obtain ⟨s, hbefore, s', hread, hidle, hlength, hsize⟩ := hruns
  have hcoherent := Shadowed.read_coherent
    (World.opened_single 2 [1, 2, 3]) hbefore hread (by decide) (by decide)
    (rfl : ([0, 0, 0] : List Byte).length = 3)
  obtain ⟨htotal, hout⟩ := hcoherent.1 hidle
  rw [hlength] at htotal hout
  rw [hsize] at hout
  exact ⟨s'.world, hidle, htotal, hout.trans (by decide)⟩

/-- A write that creates its page leaves the page short, and a later `read`
returns less than it was asked for. -/
theorem not_read_coherent : ¬ ∀ (w w₁ w₂ : World) (before rest : List Event)
    (id : Id) (len offset : Nat) (out : List Byte), w.Opened →
    Runs World.step World.OneAtATime w before w₁ →
    Runs World.step World.OneAtATime w₁
      (.call (.read id len offset) :: rest) w₂ →
    (∀ event ∈ rest, event.isCall = false) →
    offset + len ≤ (appliedAll id (w.pool.cache.fileOf w.device id)
      before).length → out.length = len → w₂.pool.Idle →
    Task.readTotal (w₂.pool.tasks.drop w₁.pool.tasks.length) = .ok len ∧
    Task.readOut w₁.pool.cache.pageSize out
      (w₂.pool.tasks.drop w₁.pool.tasks.length) =
      slice (appliedAll id (w.pool.cache.fileOf w.device id) before) offset
        len := by
  intro hall
  have hruns : ∃ w₁, Runs World.step World.OneAtATime
      (World.single 2 [1, 2, 3]) [.call (.write ⟨1⟩ [9] 0), .resume 0] w₁ ∧
      ∃ w₂, Runs World.step World.OneAtATime w₁
        [.call (.read ⟨1⟩ 3 0), .resume 1] w₂ ∧ w₂.pool.Idle ∧
        Task.readTotal (w₂.pool.tasks.drop w₁.pool.tasks.length) = .ok 1 := by
    exact ⟨_, .cons rfl ⟨by decide, by decide, by decide, by decide⟩
      (.cons rfl (by decide : World.Intact _) (.nil _)), _,
      .cons rfl ⟨by decide, by decide, by decide, by decide⟩
        (.cons rfl (by decide : World.Intact _) (.nil _)), by decide, rfl⟩
  obtain ⟨w₁, hbefore, w₂, hread, hidle, htotal⟩ := hruns
  have hcoherent := (hall _ w₁ w₂ _ [.resume 1] ⟨1⟩ 3 0 [0, 0, 0]
    (World.opened_single 2 [1, 2, 3]) hbefore hread (by decide) (by decide)
    (by decide) hidle).1
  rw [htotal] at hcoherent
  cases hcoherent

end ShortPage

end Madbfs
