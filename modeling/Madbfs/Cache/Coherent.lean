/-
Reads see the flat file.  While calls are made one at a time, every byte of
the flat file is valid in its page, or on the device if the page is not
cached, so a `read` inside the flat file gets all its bytes.  This holds as
long as no write leaves its page shorter than the file needs it, and no write
starts pages past the end of the file.
-/
import Madbfs.Cache.Flat
import Madbfs.Cache.Progress

namespace Madbfs

open Bytes

namespace World

/-- The pages that a running `write` still has to write. -/
def Pending (w : World) (key : PageKey) : Prop :=
  ∃ r input, w.Writing key.id r input ∧ r.key = key

/-- Every byte of the flat file is there, also in the answers to fetches that
are not delivered yet. -/
structure Complete (w : World) (id : Id) (n : Nat) : Prop where
  covered : w.pool.cache.Covered w.device w.Pending id n
  fetched : ∀ (i : Nat) r fd fut bytes,
    w.pool.tasks[i]? = some (.readAt r (.fetching fd fut)) →
    w.replies i = some (.fetched (.ok bytes)) → r.id = id →
    ∀ pos < n, pos / w.pool.cache.pageSize = r.index →
      pos % w.pool.cache.pageSize <
        (w.pool.cache.fetchedPage r.key bytes).size

/-- If task `i` ends with its write, its page is then valid to its end, or to
the end of the file. -/
def PageFull (w : World) (i : Nat) (w' : World) (size : Id → Nat) : Prop :=
  ∀ r input pc n, w.pool.tasks[i]? = some (.writeAt r input pc) →
    w'.pool.tasks[i]? = some (.didWrite r (.ok n)) →
    min ((r.index + 1) * w.pool.cache.pageSize) (size r.id) ≤
      r.index * w.pool.cache.pageSize + max (w.pool.cache.cachedSize r.key)
        (r.localOffset w.pool.cache.pageSize +
          r.localSize w.pool.cache.pageSize)

section

variable {S : Id → Prop} {w w' : World} {i n : Nat} {id : Id}
  {flat : List Byte}

/-- While a part of a `read` is running, no `write` is. -/
theorem Serial.not_pending_of_read (hserial : w.Serial S) {r : Range}
    {pc : ReadAtPc} (hmem : Task.readAt r pc ∈ w.pool.tasks)
    (key : PageKey) : ¬ w.Pending key := by
  rintro ⟨r', input, ⟨-, pc', hmem'⟩, -⟩
  obtain ⟨i, hi⟩ := List.mem_iff_getElem?.mp hmem
  obtain ⟨j, hj⟩ := List.mem_iff_getElem?.mp hmem'
  have hne : i ≠ j := by
    rintro rfl
    rw [hi] at hj
    cases hj
  rcases hserial.apart i j _ _ hne hi hj with h | h <;> cases h

theorem Complete.exec (hcomplete : w.Complete id n) (hserial : w.Serial S)
    {accept : Nat} (hexec : w.exec i accept = some w') :
    w'.Complete id n := by
  obtain ⟨hpool, hview⟩ := hserial.exec_sameView hexec w.Pending n id
  have hpending : w'.Pending = w.Pending := by
    funext key
    unfold Pending Writing
    rw [hpool]
  have hcovered := hview.covered hcomplete.covered
  refine ⟨?_, ?_⟩
  · rw [hpending, hpool]
    exact hcovered
  · obtain ⟨task, device, reply, htask, hnone, hexecutes, rfl⟩ :=
      hserial.kept.sound.executes hexec
    intro j r fd fut bytes hj hreply hid pos hpos hindex
    change w.pool.tasks[j]? = _ at hj
    change Function.update w.replies i (some reply) j = _ at hreply
    by_cases hne : j = i
    · subst hne
      obtain rfl := Option.some.inj (htask.symm.trans hj)
      rw [Function.update_self] at hreply
      cases hexecutes with
      | opened id' path heq hpath => cases hreply
      | fetched key fd' fut' heq =>
          obtain ⟨rfl, -, -⟩ := Wait.fetching.inj heq
          obtain rfl := Except.ok.inj (Reply.fetched.inj
            (Option.some.inj hreply))
          have hmem := List.mem_of_getElem? hj
          have hslot := hserial.reading r _ hmem trivial
          have hkey : (⟨id, pos / w.pool.cache.pageSize⟩ : PageKey) = r.key := by
            rw [hindex, ← hid]
            rfl
          have hbyte := (hcomplete.covered pos hpos).resolve_left
            (hserial.not_pending_of_read hmem _)
          rw [hkey, hslot] at hbyte
          change pos % w.pool.cache.pageSize < _
          change pos / w.pool.cache.pageSize = _ at hindex
          have hdiv := Nat.div_add_mod' pos w.pool.cache.pageSize
          have hmod := Nat.mod_lt pos hserial.kept.sound.cache.pageSize_pos
          rw [Cache.fetchedPage_size hserial.kept.sound.cache.pageSize_lt,
            length_slice]
          rw [hindex] at hdiv
          change pos < (w.pool.cache.fileOf w.device id).length at hbyte
          rw [← hid] at hbyte
          change _ < min w.pool.cache.pageSize (min _
            ((w.pool.cache.fileOf w.device r.id).length -
              r.index * w.pool.cache.pageSize))
          omega
      | sent page fd' written len m path heq hlive hpath hle hpos hm =>
          cases hreply
    · rw [Function.update_of_ne hne] at hreply
      exact hcomplete.fetched j r fd fut bytes hj hreply hid pos hpos hindex

/-- The pages still to be written after a resumption. -/
theorem Resumption.pending_iff {task task' : Task} {c' : Cache}
    {others : Multiset Addr}
    (hres : Resumption S w i w' task c' task' others)
    (hserial : w.Serial S) (key : PageKey) :
    w'.Pending key ↔ w.Pending key ∧
      ∀ r₀ n, task' = .didWrite r₀ (.ok n) → key ≠ r₀.key := by
  constructor
  · rintro ⟨r, input, hwriting, rfl⟩
    obtain ⟨hold, hdone⟩ := (hres.writing_iff hserial _ r input).mp hwriting
    exact ⟨⟨r, input, hold, rfl⟩, hdone⟩
  · rintro ⟨⟨r, input, hwriting, rfl⟩, hdone⟩
    exact ⟨r, input, (hres.writing_iff hserial _ r input).mpr
      ⟨hwriting, hdone⟩, rfl⟩

theorem Complete.resume {size : Id → Nat} (hcomplete : w.Complete id (size id))
    (hserial : w.Serial S) (hS : S id) (hresume : w.resume i = some w')
    (hintact : w'.Intact) (hfull : w.PageFull i w' size) :
    w'.Complete id (size id) := by
  obtain ⟨task, c', task', others, hres⟩ :=
    hserial.resumption hresume hintact
  have hpending := hres.pending_iff hserial
  have hpool : w'.pool.cache = c' := by rw [hres.world_eq]
  have hdevice : w'.device = w.device := by rw [hres.world_eq]
  have hsize : c'.pageSize = w.pool.cache.pageSize := hres.keeps.pageSize
  have hallowed : ∀ page, task.Inserts w.pool.cache (w.replies i) page →
      page.key.id = id → w.Pending page.key ∨
      ∀ pos < size id, pos / w.pool.cache.pageSize = page.key.index →
        pos % w.pool.cache.pageSize < page.size := by
    rintro page (⟨r, fd, fut, bytes, rfl, hreply, rfl⟩ |
      ⟨r, input, pc, rfl, rfl⟩) hid
    · exact .inr (hcomplete.fetched i r fd fut bytes hres.task_eq hreply hid)
    · exact .inl ⟨r, input, ⟨rfl, pc, List.mem_of_getElem? hres.task_eq⟩, rfl⟩
  have hview : ∀ {before after : Multiset Addr} {c₁ : Cache},
      w.pool.cache.Sound S w.device before →
      Cache.Acts (Cache.soundGrant S w.device (task.Inserts w.pool.cache
        (w.replies i))) (w.pool.cache, before) (c₁, after) →
      c₁.Covered w.device w.Pending id (size id) := by
    intro before after c₁ hsound hacts
    exact (Cache.Acts.sameView hacts hsound hS hallowed).covered
      hcomplete.covered
  refine ⟨?_, ?_⟩
  · have heffect := hres.effect
    have hsound := hres.sound
    have htask := hres.task_eq
    rw [hpool, hdevice]
    cases heffect with
    | acts task task' _ hacts hwrite =>
        have hsame : w'.Pending = w.Pending := by
          funext key
          refine propext ((hpending key).trans (and_iff_left ?_))
          exact fun r₀ n heq => absurd heq (hwrite r₀ n)
        rw [hsame]
        exact hview hsound hacts
    | wrote r input pc c₁ addr n hacts hslot hmem hcached =>
        have hpageSize : c₁.pageSize = w.pool.cache.pageSize :=
          hacts.keepsData.pageSize
        have hfit : r.Fits c₁.pageSize ∧ input.length = r.len := by
          rw [hpageSize]
          exact hserial.fits _ (List.mem_of_getElem? htask)
        refine Cache.covered_written (Cache.Sound.acts hacts hsound) hslot
          hmem hfit.1 hfit.2 ?_ ?_ (hview hsound hacts)
        · intro key hkey
          by_cases heq : key = r.key
          · exact .inl heq
          · refine .inr ((hpending key).mpr ⟨hkey, ?_⟩)
            rintro r₀ m hdone
            obtain ⟨rfl, -⟩ := Task.didWrite.inj hdone
            exact heq
        · rintro rfl pos hpos hindex
          have hbound := hfull r input pc n htask (by
            rw [hres.world_eq]
            exact List.getElem?_set_self hres.lt_length)
          have hdiv := Nat.div_add_mod' pos c₁.pageSize
          have hmod : pos % c₁.pageSize < c₁.pageSize :=
            Nat.mod_lt pos (Cache.Sound.acts hacts hsound).pageSize_pos
          rw [hcached]
          dsimp only at hindex ⊢
          rw [← hpageSize, Nat.add_mul] at hbound
          rw [hindex] at hdiv
          omega
    | cleared id' pc c₁ hacts =>
        have hsame : w'.Pending = w.Pending := by
          funext key
          refine propext ((hpending key).trans (and_iff_left ?_))
          exact fun r₀ n heq => by cases heq
        rw [hsame]
        have hcovered := hview (by simpa [Task.held] using hsound) hacts
        exact (Cache.sameView_modifyEntry id' (by intro entry; rfl)
          (by intro entry; rfl)).covered hcovered
  · rw [hres.world_eq]
    intro j r fd fut bytes hj hreply hid pos hpos hindex
    change (w.pool.tasks.set i task')[j]? = _ at hj
    change Function.update w.replies i none j = _ at hreply
    change pos / c'.pageSize = _ at hindex
    change pos % c'.pageSize < (c'.fetchedPage r.key bytes).size
    by_cases hne : j = i
    · subst hne
      rw [Function.update_self] at hreply
      cases hreply
    · rw [List.getElem?_set_ne (Ne.symm hne)] at hj
      rw [Function.update_of_ne hne] at hreply
      have hsame : c'.fetchedPage r.key bytes =
          w.pool.cache.fetchedPage r.key bytes := by
        unfold Cache.fetchedPage
        rw [hsize]
      rw [hsame, hsize]
      rw [hsize] at hindex
      exact hcomplete.fetched j r fd fut bytes hj hreply hid pos hpos hindex

/-- A call that starts no page past the end of the file. -/
def NoHole (w : World) (flat : Id → List Byte) (op : Call) : Prop :=
  ∀ id input offset, op = .write id input offset →
    offset / w.pool.cache.pageSize ≤
      (flat id).length / w.pool.cache.pageSize

theorem Complete.call {flat : Id → List Byte}
    (hcomplete : w.Complete id (flat id).length) (hserial : w.Serial S)
    (hidle : w.pool.Idle) {op : Call} (hcall : op.Proper w.pool.cache)
    (hhole : w.NoHole flat op) :
    Complete { w with pool := w.pool.call op } id
      (op.applied id (flat id)).length := by
  have hsize := hcall.same.2.2.1
  have hold : ∀ key, ¬ w.Pending key := by
    rintro key ⟨r, input, hwriting, -⟩
    exact not_writing_of_idle hidle hwriting
  have hcovered := (sameView_call hcall w.Pending (flat id).length w.device
    id).covered hcomplete.covered
  refine ⟨?_, ?_⟩
  · intro pos hpos
    change Pending _ ⟨id, pos / (op.start w.pool.cache).1.pageSize⟩ ∨ _
    by_cases hin : pos < (flat id).length
    · exact .inr ((hcovered pos hin).resolve_left (hold _))
    · cases op with
      | write id' input offset =>
          dsimp only [Call.applied] at hpos
          split_ifs at hpos with hid
          · subst hid
            refine .inl ?_
            have hproper := hcall
            obtain ⟨hopen, hlen, hmax⟩ := hcall
            rw [length_overlay _ _ hlen] at hpos
            have hpage := hserial.kept.sound.cache.pageSize_pos
            have hfirst : offset / w.pool.cache.pageSize ≤
                pos / w.pool.cache.pageSize :=
              Nat.le_trans (hhole id' input offset rfl)
                (Nat.div_le_div_right (by omega))
            have hlast : pos / w.pool.cache.pageSize ≤
                (offset + input.length - 1) / w.pool.cache.pageSize :=
              Nat.div_le_div_right (by omega)
            have hend : usub (offset + input.length) 1 =
                offset + input.length - 1 := usub_of_le (by omega) (by omega)
            rw [hsize]
            refine ⟨⟨id', pos / w.pool.cache.pageSize,
              offset / w.pool.cache.pageSize,
              usub (offset + input.length) 1 / w.pool.cache.pageSize, offset,
              input.length⟩, input, (writing_call hidle hproper).mpr
                ⟨rfl, id', offset, rfl, ?_⟩, rfl⟩
            refine Call.mem_ranges.mpr ⟨⟨hfirst, ?_⟩, rfl⟩
            rw [hend]
            dsimp only
            omega
          · exact absurd hpos hin
      | _ => exact absurd hpos hin
  · intro j r fd fut bytes hj
    change (w.pool.tasks ++ (op.start w.pool.cache).2)[j]? = _ at hj
    rcases List.mem_append.mp (List.mem_of_getElem? hj) with hmem | hmem
    · cases hidle _ hmem
    · exact (hcall.starts hserial.kept.sound.cache.pageSize_pos
        hserial.kept.sound.cache.pageSize_lt _ hmem).elim

/-- The system matches the flat files of all open files. -/
structure Mirrors (w : World) (flat : Id → List Byte) : Prop where
  serial : w.Serial fun _ => True
  tracks : ∀ id, w.Tracks id (flat id)
  complete : ∀ id, w.Complete id (flat id).length

end

end World

/-- The system with the flat files next to it. -/
structure Shadowed where
  world : World
  flat : Id → List Byte

namespace Shadowed

def step (s : Shadowed) (event : Event) : Option Shadowed :=
  (s.world.step event).map fun w =>
    ⟨w, fun id => event.applied id (s.flat id)⟩

/-- Steps of calls made one at a time in which no write skips bytes that its
page does not hold, none leaves its page short, and none starts pages past the
end of its file. -/
def Seamless (s : Shadowed) (event : Event) (s' : Shadowed) : Prop :=
  s.world.Gapless (fun _ => True) event s'.world ∧ match event with
    | .call op => s.world.NoHole s.flat op
    | .exec _ _ => True
    | .resume i => s.world.PageFull i s'.world fun id => (s.flat id).length

section

variable {s s' : Shadowed}

theorem step_cases {event : Event} (hstep : s.step event = some s') :
    s.world.step event = some s'.world ∧
      s'.flat = fun id => event.applied id (s.flat id) := by
  obtain ⟨w, hw, rfl⟩ := Option.map_eq_some_iff.mp hstep
  exact ⟨hw, rfl⟩

theorem mirrors_step {event : Event} (hstep : s.step event = some s')
    (hguard : s.Seamless event s') (hmirrors : s.world.Mirrors s.flat) :
    s'.world.Mirrors s'.flat := by
  obtain ⟨hworld, hflat⟩ := step_cases hstep
  rw [hflat]
  refine ⟨hmirrors.serial.step hworld hguard.1.1, fun id =>
    (hmirrors.tracks id).step hworld hguard.1 hmirrors.serial trivial,
    fun id => ?_⟩
  cases event with
  | call op =>
      have heq := Option.some.inj hworld
      rw [← heq]
      exact (hmirrors.complete id).call hmirrors.serial hguard.1.1.1
        hguard.1.1.2 hguard.2
  | exec i accept =>
      exact (hmirrors.complete id).exec hmirrors.serial hworld
  | resume i =>
      exact (hmirrors.complete id).resume hmirrors.serial trivial hworld
        hguard.1.1 hguard.2

/-- Over a whole run the system matches the flat files. -/
theorem mirrors_runs {events : List Event}
    (hruns : Runs Shadowed.step Seamless s events s')
    (hmirrors : s.world.Mirrors s.flat) : s'.world.Mirrors s'.flat :=
  hruns.preserves (I := fun s => s.world.Mirrors s.flat)
    (fun hstep hguard h => mirrors_step hstep hguard h) hmirrors

end

end Shadowed

/-- An empty cache matches the files of the device. -/
theorem World.Opened.mirrors {w : World} (hopened : w.Opened) :
    w.Mirrors fun id => w.pool.cache.fileOf w.device id where
  serial := by
    refine .of_idle hopened.sound ?_ (fun id _ k => hopened.slot ⟨id, k⟩)
      hopened.readQueue
    intro task hmem
    rw [hopened.tasks] at hmem
    cases hmem
  tracks := by
    intro id
    refine World.tracks_of_uncached hopened.sound (S := fun _ => True) trivial
      ?_ fun k => hopened.slot ⟨id, k⟩
    intro task hmem
    rw [hopened.tasks] at hmem
    cases hmem
  complete := by
    intro id
    refine ⟨fun pos hpos => .inr ?_, ?_⟩
    · rw [hopened.slot]
      exact hpos
    · intro i r fd fut bytes htask
      rw [hopened.tasks] at htask
      cases htask

end Madbfs
