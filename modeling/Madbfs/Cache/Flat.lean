/-
The cache against flat files.  Next to the system runs a flat file for every
file, which a call of `write` overlays at once.  While calls are made one at a
time, the file seen through the cache is the flat file, but for the parts of a
running `write`; this holds as long as no write skips bytes that its page does
not hold and that are not zero on the device.
-/
import Madbfs.Cache.Contents
import Madbfs.Cache.Serial

namespace Madbfs

open Bytes

/-- What a call does to a flat file. -/
def Call.applied (id : Id) (file : List Byte) : Call → List Byte
  | .write id' input offset =>
      if id' = id then overlay file offset input else file
  | _ => file

def Event.applied (id : Id) (file : List Byte) : Event → List Byte
  | .call op => op.applied id file
  | _ => file

/-- The flat file after a run. -/
def appliedAll (id : Id) (file : List Byte) (events : List Event) :
    List Byte :=
  events.foldl (fun file event => event.applied id file) file

namespace World

/-- A part of a `write` to the file is running. -/
def Writing (w : World) (id : Id) (r : Range) (input : List Byte) : Prop :=
  r.id = id ∧ ∃ pc, Task.writeAt r input pc ∈ w.pool.tasks

/-- The file seen through the cache is the flat file, but for the parts that
are still to be written. -/
structure Tracks (w : World) (id : Id) (flat : List Byte) : Prop where
  contents : ∀ pos, (∀ r input, w.Writing id r input →
      ¬ (r.start w.pool.cache.pageSize ≤ pos ∧
        pos < r.stop w.pool.cache.pageSize)) →
    w.pool.cache.contents w.device id pos = valueAt flat pos
  pending : ∀ r input, w.Writing id r input → ∀ pos,
    r.start w.pool.cache.pageSize ≤ pos →
    pos < r.stop w.pool.cache.pageSize →
    valueAt flat pos = valueAt input (pos - r.offset)
  upper : ∀ m, (w.pool.cache.Upper w.device id m ∧
      ∀ r input, w.Writing id r input → r.stop w.pool.cache.pageSize ≤ m) ↔
    flat.length ≤ m

/-- If task `i` ends with its write, the bytes between the valid size of its
page and the start of the write are zero on the device. -/
def GapsZero (S : Id → Prop) (w : World) (i : Nat) (w' : World) : Prop :=
  ∀ r input pc n, w.pool.tasks[i]? = some (.writeAt r input pc) →
    w'.pool.tasks[i]? = some (.didWrite r (.ok n)) → S r.id →
    ∀ pos, w.pool.cache.cachedSize r.key ≤ pos →
      pos < r.localOffset w.pool.cache.pageSize →
      valueAt (w.pool.cache.fileOf w.device r.id)
        (r.index * w.pool.cache.pageSize + pos) = 0

section

variable {S : Id → Prop} {w w' : World} {i : Nat} {task task' : Task}
  {c' : Cache} {others : Multiset Addr} {id : Id} {flat : List Byte}

/-- Two running parts for one page are one. -/
theorem Serial.writing_unique (hserial : w.Serial S) {r r' : Range}
    {input input' : List Byte} {pc : WriteAtPc}
    (htask : w.pool.tasks[i]? = some (.writeAt r input pc))
    (hwriting : w.Writing id r' input') (hkey : r'.key = r.key) :
    r' = r ∧ input' = input := by
  obtain ⟨-, pc', hmem⟩ := hwriting
  obtain ⟨j, hj⟩ := List.mem_iff_getElem?.mp hmem
  by_cases hne : i = j
  · subst hne
    have heq := Option.some.inj (htask.symm.trans hj)
    obtain ⟨rfl, rfl, -⟩ := Task.writeAt.inj heq
    exact ⟨rfl, rfl⟩
  · exact absurd hkey.symm (hserial.apart i j _ _ hne htask hj)

/-- The parts that are still running after a resumption. -/
theorem Resumption.writing_iff
    (hres : Resumption S w i w' task c' task' others)
    (hserial : w.Serial S) (id : Id) (r : Range) (input : List Byte) :
    w'.Writing id r input ↔ w.Writing id r input ∧
      ∀ r₀ n, task' = .didWrite r₀ (.ok n) → r.key ≠ r₀.key := by
  have hresumes := hres.resumes
  rw [hres.world_eq]
  constructor
  · rintro ⟨hid, pc, hmem⟩
    rcases mem_set_cases hmem with rfl | ⟨j, hne, hj⟩
    · refine ⟨?_, fun r₀ n h => by cases h⟩
      cases hresumes with
      | writeAwait _ _ pc₀ _ _ hstep =>
          exact ⟨hid, pc₀, List.mem_of_getElem? hres.task_eq⟩
    · refine ⟨⟨hid, pc, List.mem_of_getElem? hj⟩, ?_⟩
      rintro r₀ n rfl
      cases hresumes with
      | writeDone _ input₀ pc₀ _ _ hstep =>
          exact (hserial.apart i j _ _ (Ne.symm hne) hres.task_eq hj).symm
  · rintro ⟨⟨hid, pc, hmem⟩, hdone⟩
    obtain ⟨j, hj⟩ := List.mem_iff_getElem?.mp hmem
    by_cases hne : j = i
    · subst hne
      obtain rfl := Option.some.inj (hres.task_eq.symm.trans hj)
      cases hresumes with
      | writeAwait _ _ _ pc' _ hstep =>
          exact ⟨hid, pc', List.mem_set hres.lt_length _⟩
      | writeDone _ _ _ _ res hstep =>
          have hcalm := hserial.calm _ hmem
          obtain ⟨n, rfl⟩ := hstep.done_ok (by
            rintro fut rfl
            exact hcalm)
          exact absurd rfl (hdone r n rfl)
    · exact ⟨hid, pc, mem_set_of_ne hne hj⟩

/-- A step that shows the same file and leaves the running parts. -/
theorem Tracks.congr (pending : PageKey → Prop) (n : Nat)
    (htracks : w.Tracks id flat)
    (hview : Cache.SameView pending n w.device w'.device w.pool.cache
      w'.pool.cache id)
    (hsize : w'.pool.cache.pageSize = w.pool.cache.pageSize)
    (hwriting : ∀ r input, w'.Writing id r input ↔ w.Writing id r input) :
    w'.Tracks id flat where
  contents := by
    intro pos hout
    rw [hview.contents]
    refine htracks.contents pos fun r input h => ?_
    rw [← hsize]
    exact hout r input ((hwriting r input).mpr h)
  pending := by
    intro r input h
    rw [hsize]
    exact htracks.pending r input ((hwriting r input).mp h)
  upper := by
    intro m
    rw [hview.upper, hsize, ← htracks.upper m]
    simp only [hwriting]

/-- What the device does for a task shows the same files. -/
theorem Serial.exec_sameView (hserial : w.Serial S) {accept : Nat}
    (hexec : w.exec i accept = some w') (pending : PageKey → Prop) (n : Nat)
    (id : Id) :
    w'.pool = w.pool ∧ Cache.SameView pending n w.device w'.device
      w.pool.cache w.pool.cache id := by
  obtain ⟨task, device, reply, htask, hnone, hexecutes, rfl⟩ :=
    hserial.kept.sound.executes hexec
  refine ⟨rfl, ?_⟩
  cases hexecutes with
  | opened id' path heq hpath => exact Cache.sameView_device rfl
  | fetched key fd fut heq => exact Cache.sameView_device rfl
  | sent page fd written len m path heq hlive hpath hle hpos hm =>
      exact Cache.sameView_sent hserial.kept.sound.cache hlive hpath hle hm

theorem Tracks.exec (htracks : w.Tracks id flat) (hserial : w.Serial S)
    {accept : Nat} (hexec : w.exec i accept = some w') :
    w'.Tracks id flat := by
  obtain ⟨hpool, hview⟩ := hserial.exec_sameView hexec (fun _ => True) 0 id
  refine htracks.congr (fun _ => True) 0 ?_ ?_ ?_
  · rw [hpool]
    exact hview
  · rw [hpool]
  · intro r input
    unfold Writing
    rw [hpool]

/-- The write that ends a running part. -/
theorem Tracks.written (htracks : w.Tracks id flat) (hserial : w.Serial S)
    (hS : S id) {r : Range} {input : List Byte} {pc : WriteAtPc} {c₁ : Cache}
    {addr : Addr} {pending : PageKey → Prop} {n : Nat}
    (htask : w.pool.tasks[i]? = some (.writeAt r input pc))
    (hview : Cache.SameView pending n w.device w.device w.pool.cache c₁ id)
    (hpageSize : c₁.pageSize = w.pool.cache.pageSize)
    (hsound : c₁.Sound S w.device others)
    (hslot : c₁.slot r.key = some addr) (hmem : addr ∈ c₁.lru)
    (hgap : ∀ pos, (c₁.heap addr).size ≤ pos →
      pos < r.localOffset c₁.pageSize → r.id = id →
      valueAt (c₁.fileOf w.device r.id) (r.index * c₁.pageSize + pos) = 0)
    (hdevice : w'.device = w.device)
    (hcache : w'.pool.cache = c₁.written r input addr)
    (hwriting : ∀ r' input', w'.Writing id r' input' ↔
      w.Writing id r' input' ∧ r'.key ≠ r.key) :
    w'.Tracks id flat := by
  have hsize' : w'.pool.cache.pageSize = w.pool.cache.pageSize := by
    rw [hcache]
    exact hpageSize
  have hfit : r.Fits c₁.pageSize ∧ input.length = r.len := by
    rw [hpageSize]
    exact hserial.fits _ (List.mem_of_getElem? htask)
  have hself : r.id = id → w.Writing id r input :=
    fun hid => ⟨hid, pc, List.mem_of_getElem? htask⟩
  -- a part that still runs, or the part that is written now
  have hsplit : ∀ r' input', w.Writing id r' input' →
      w'.Writing id r' input' ∨ (r' = r ∧ input' = input) := by
    intro r' input' h
    by_cases hkey : r'.key = r.key
    · exact .inr (hserial.writing_unique htask h hkey)
    · exact .inl ((hwriting r' input').mpr ⟨h, hkey⟩)
  refine ⟨?_, ?_, ?_⟩
  · intro pos hout
    rw [hsize'] at hout
    have hold : (id = r.id → ¬ (r.start c₁.pageSize ≤ pos ∧
        pos < r.stop c₁.pageSize)) →
        c₁.contents w.device id pos = valueAt flat pos := by
      intro hnot
      rw [hview.contents]
      refine htracks.contents pos fun r' input' h => ?_
      rcases hsplit r' input' h with h' | ⟨rfl, rfl⟩
      · exact hout r' input' h'
      · rw [← hpageSize]
        exact hnot h.1.symm
    rw [hcache, hdevice, Cache.contents_written hsound hslot hmem hfit.1
      hfit.2 hS]
    split_ifs with hin hzero
    · rw [hpageSize] at hin
      exact (htracks.pending r input (hself hin.1.symm) pos hin.2.1
        hin.2.2).symm
    · obtain ⟨hid, hindex, hge, hlt⟩ := hzero
      rw [← hold fun h h' => hin ⟨h, h'⟩]
      unfold Cache.contents
      have hkey : (⟨id, pos / c₁.pageSize⟩ : PageKey) = r.key := by
        rw [hid, hindex]
        rfl
      have hdiv := Nat.div_add_mod' pos c₁.pageSize
      rw [hkey, hslot]
      dsimp only
      rw [if_neg (by omega)]
      have hgap' := hgap _ hge hlt hid.symm
      rw [← hindex, hdiv] at hgap'
      rw [hid]
      exact hgap'.symm
    · exact hold fun h h' => hin ⟨h, h'⟩
  · intro r' input' h
    rw [hsize']
    exact htracks.pending r' input' ((hwriting r' input').mp h).1
  · intro m
    rw [hcache, hdevice, Cache.upper_written hsound hslot hmem hfit.1 hfit.2,
      hview.upper, ← htracks.upper m]
    change ((_ ∧ _) ∧ ∀ r' input', w'.Writing id r' input' →
      r'.stop c₁.pageSize ≤ m) ↔ _
    rw [hpageSize]
    constructor
    · rintro ⟨⟨hupper, hstop⟩, hothers⟩
      refine ⟨hupper, fun r' input' h => ?_⟩
      rcases hsplit r' input' h with h' | ⟨rfl, rfl⟩
      · exact hothers r' input' h'
      · exact hstop h.1.symm
    · rintro ⟨hupper, hall⟩
      exact ⟨⟨hupper, fun hid => hall r input (hself hid.symm)⟩,
        fun r' input' h => hall r' input' ((hwriting r' input').mp h).1⟩

theorem Tracks.resume (htracks : w.Tracks id flat) (hserial : w.Serial S)
    (hS : S id) (hresume : w.resume i = some w') (hintact : w'.Intact)
    (hgaps : w.GapsZero S i w') : w'.Tracks id flat := by
  obtain ⟨task, c', task', others, hres⟩ :=
    hserial.resumption hresume hintact
  have hview : ∀ {before after : Multiset Addr} {c₁ : Cache},
      w.pool.cache.Sound S w.device before →
      Cache.Acts (Cache.soundGrant S w.device (task.Inserts w.pool.cache
        (w.replies i))) (w.pool.cache, before) (c₁, after) →
      Cache.SameView (fun _ => True) 0 w.device w.device w.pool.cache c₁
        id := by
    intro before after c₁ hsound hacts
    exact Cache.Acts.sameView hacts hsound hS fun _ _ _ => .inl trivial
  have hwriting := hres.writing_iff hserial id
  have hpool : w'.pool.cache = c' := by rw [hres.world_eq]
  have hdevice : w'.device = w.device := by rw [hres.world_eq]
  have heffect := hres.effect
  have hsound := hres.sound
  have htask := hres.task_eq
  cases heffect with
  | acts task task' _ hacts hwrite =>
      refine htracks.congr (fun _ => True) 0 ?_ ?_ ?_
      · rw [hpool, hdevice]
        exact hview hsound hacts
      · rw [hpool]
        exact hacts.keepsData.pageSize
      · intro r input
        rw [hwriting]
        exact ⟨fun h => h.1, fun h => ⟨h, fun r₀ n heq =>
          absurd heq (hwrite r₀ n)⟩⟩
  | wrote r input pc c₁ addr n hacts hslot hmem hsize =>
      have hkeeps := hacts.keepsData
      have hpath : ∀ id, c₁.pathOf id = w.pool.cache.pathOf id := hkeeps.path
      have hpageSize : c₁.pageSize = w.pool.cache.pageSize := hkeeps.pageSize
      refine htracks.written hserial hS htask (hview hsound hacts)
        hpageSize (Cache.Sound.acts hacts hsound) hslot hmem
        ?_ hdevice hpool ?_
      · intro pos hge hlt hid
        rw [hsize] at hge
        rw [Cache.fileOf, hpath, hpageSize]
        rw [hpageSize] at hlt
        refine hgaps r input pc n htask ?_ (hid ▸ hS) pos hge hlt
        rw [hres.world_eq]
        exact List.getElem?_set_self hres.lt_length
      · intro r' input'
        rw [hwriting]
        refine and_congr_right fun _ => ?_
        constructor
        · exact fun h => h r n rfl
        · rintro h r₀ n₀ heq
          obtain ⟨rfl, -⟩ := Task.didWrite.inj heq
          exact h
  | cleared id' pc c₁ hacts =>
      refine htracks.congr (fun _ => True) 0 ?_ ?_ ?_
      · rw [hpool, hdevice]
        refine (hview (by simpa [Task.held] using hsound) hacts).trans ?_
        exact Cache.sameView_modifyEntry id' (fun _ => rfl) (fun _ => rfl)
      · rw [hpool, Cache.modifyEntry_pageSize]
        exact hacts.keepsData.pageSize
      · intro r input
        rw [hwriting]
        exact ⟨fun h => h.1, fun h => ⟨h, fun r₀ n heq => by cases heq⟩⟩

theorem not_writing_of_idle (hidle : w.pool.Idle) {r : Range}
    {input : List Byte} : ¬ w.Writing id r input := by
  rintro ⟨-, pc, hmem⟩
  cases hidle _ hmem

/-- A call that leaves the cache alone, but for the flag of an entry. -/
theorem sameView_call {call : Call} (hcall : call.Proper w.pool.cache)
    (pending : PageKey → Prop) (n : Nat) (d : Device) (id : Id) :
    Cache.SameView pending n d d w.pool.cache (call.start w.pool.cache).1
      id := by
  obtain ⟨hslot, -, hsize, hheap, hpath⟩ := hcall.same
  exact Cache.sameView_of_eq hslot
    (fun addr => congrArg (fun heap => (heap addr).data) hheap)
    (fun addr => congrArg (fun heap => (heap addr).size) hheap) hpath hsize

/-- A call of `write` is overlaid on the flat file at once. -/
theorem Tracks.call_write (htracks : w.Tracks id flat)
    (hserial : w.Serial S) (hidle : w.pool.Idle) {bytes : List Byte}
    {offset : Nat}
    (hcall : Call.Proper w.pool.cache (.write id bytes offset))
    (hcache : w'.pool.cache =
      (Call.start w.pool.cache (.write id bytes offset)).1)
    (hdevice : w'.device = w.device)
    (hparts : ∀ r input, w'.Writing id r input ↔
      r ∈ Call.ranges w.pool.cache.pageSize id bytes.length offset ∧
        input = bytes) :
    w'.Tracks id (overlay flat offset bytes) := by
  have hview := sameView_call hcall (fun _ => True) 0 w.device id
  have hsize := hserial.kept.sound.cache.pageSize_pos
  have hlt := hserial.kept.sound.cache.pageSize_lt
  have hpageSize : w'.pool.cache.pageSize = w.pool.cache.pageSize := by
    rw [hcache]
    exact hcall.same.2.2.1
  rw [← hcache] at hview
  obtain ⟨-, hlen, hmax⟩ := hcall
  have hcover := fun pos => Call.covered_iff id hsize (by omega) hlen hmax pos
  refine ⟨?_, ?_, ?_⟩
  · intro pos hout
    rw [hdevice, hview.contents, htracks.contents pos fun r input h =>
      absurd h (not_writing_of_idle hidle), valueAt_overlay, if_neg]
    intro hin
    obtain ⟨r, hr, hpos⟩ := (hcover pos).mp hin
    refine hout r bytes ((hparts r bytes).mpr ⟨hr, rfl⟩) ?_
    rw [hpageSize]
    exact hpos
  · intro r input h pos hstart hstop
    obtain ⟨hr, rfl⟩ := (hparts r input).mp h
    rw [hpageSize] at hstart hstop
    have hoffset : r.offset = offset := by
      rw [(Call.mem_ranges.mp hr).2]
    rw [valueAt_overlay, if_pos ((hcover pos).mpr ⟨r, hr, hstart, hstop⟩),
      hoffset]
  · intro m
    have hstops := Call.stops_le_iff id hsize (by omega) hlen hmax m
    rw [length_overlay _ _ hlen, hdevice, hview.upper, hpageSize, Nat.max_le,
      ← htracks.upper m, ← hstops]
    constructor
    · rintro ⟨hfile, hall⟩
      exact ⟨⟨hfile, fun r input h => absurd h (not_writing_of_idle hidle)⟩,
        fun r hr => hall r bytes ((hparts r bytes).mpr ⟨hr, rfl⟩)⟩
    · rintro ⟨⟨hfile, -⟩, hall⟩
      exact ⟨hfile, fun r input h => hall r ((hparts r input).mp h).1⟩

/-- The parts that run after a call. -/
theorem writing_call (hidle : w.pool.Idle) {call : Call}
    (hcall : call.Proper w.pool.cache) {r : Range} {input : List Byte} :
    Writing { w with pool := w.pool.call call } id r input ↔ r.id = id ∧
      ∃ id' offset, call = .write id' input offset ∧
        r ∈ Call.ranges w.pool.cache.pageSize id' input.length offset := by
  refine and_congr_right fun hid => ?_
  have hmem : ∀ pc, Task.writeAt r input pc ∈ (w.pool.call call).tasks ↔
      Task.writeAt r input pc ∈ (call.start w.pool.cache).2 := by
    intro pc
    change _ ∈ w.pool.tasks ++ _ ↔ _
    rw [List.mem_append]
    exact or_iff_right fun hmem => by cases hidle _ hmem
  change (∃ pc, Task.writeAt r input pc ∈ (w.pool.call call).tasks) ↔ _
  simp only [hmem]
  cases call with
  | read id' len offset =>
      obtain ⟨entry, hentry⟩ := Option.isSome_iff_exists.mp hcall.1
      simp [Call.start, hentry]
  | flush id' => simp [Call.start]
  | write id' bytes offset =>
      obtain ⟨entry, hentry⟩ := Option.isSome_iff_exists.mp hcall.1
      simp only [Call.start, hentry, List.mem_map, Task.writeAt.injEq,
        Call.write.injEq]
      constructor
      · rintro ⟨pc, r', hr', rfl, rfl, -⟩
        exact ⟨id', offset, ⟨rfl, rfl, rfl⟩, hr'⟩
      · rintro ⟨id'', offset', ⟨rfl, rfl, rfl⟩, hr⟩
        exact ⟨.start, r, hr, rfl, rfl, rfl⟩
  | _ => exact hcall.elim

theorem Tracks.call (htracks : w.Tracks id flat) (hserial : w.Serial S)
    (hidle : w.pool.Idle) {call : Call}
    (hcall : call.Proper w.pool.cache) :
    Tracks { w with pool := w.pool.call call } id (call.applied id flat) := by
  have hwriting := @writing_call w id hidle call hcall
  have hsame : (∀ id' bytes offset, call = .write id' bytes offset →
      id' ≠ id) → call.applied id flat = flat ∧
      Tracks { w with pool := w.pool.call call } id flat := by
    intro hne
    refine ⟨?_, htracks.congr _ _ (sameView_call hcall (fun _ => True) 0 w.device
      id) hcall.same.2.2.1 fun r input => ⟨fun h => ?_, fun h => ?_⟩⟩
    · cases call with
      | write id' bytes offset => exact if_neg (hne id' bytes offset rfl)
      | _ => rfl
    · obtain ⟨hid, id', offset, heq, hr⟩ := hwriting.mp h
      exact absurd ((Call.id_of_mem_ranges hr).symm.trans hid)
        (hne id' input offset heq)
    · exact absurd h (not_writing_of_idle hidle)
  cases call with
  | write id' bytes offset =>
      by_cases hid : id' = id
      · subst hid
        have happlied : Call.applied id' flat (.write id' bytes offset) =
            overlay flat offset bytes := if_pos rfl
        rw [happlied]
        refine htracks.call_write hserial hidle hcall rfl rfl
          fun r input => hwriting.trans ⟨?_, ?_⟩
        · rintro ⟨-, id'', offset', heq, hr⟩
          obtain ⟨rfl, rfl, rfl⟩ := Call.write.inj heq
          exact ⟨hr, rfl⟩
        · rintro ⟨hr, rfl⟩
          exact ⟨Call.id_of_mem_ranges hr, id', offset, rfl, hr⟩
      · obtain ⟨happlied, hkept⟩ := hsame fun id'' bytes' offset' heq => by
          obtain ⟨rfl, -⟩ := Call.write.inj heq
          exact hid
        rw [happlied]
        exact hkept
  | read id' len offset => exact (hsame fun _ _ _ h => by cases h).2
  | flush id' => exact (hsame fun _ _ _ h => by cases h).2
  | _ => exact hcall.elim

/-- Steps of calls made one at a time that write over no gap. -/
def Gapless (S : Id → Prop) (w : World) (event : Event) (w' : World) :
    Prop :=
  w.OneAtATime event w' ∧ match event with
    | .resume i => w.GapsZero S i w'
    | _ => True

theorem Tracks.step {event : Event} (hstep : w.step event = some w')
    (hguard : w.Gapless S event w') (hserial : w.Serial S) (hS : S id)
    (htracks : w.Tracks id flat) : w'.Tracks id (event.applied id flat) := by
  cases event with
  | call call =>
      obtain rfl := Option.some.inj hstep
      exact htracks.call hserial hguard.1.1 hguard.1.2
  | exec i accept => exact htracks.exec hserial hstep
  | resume i => exact htracks.resume hserial hS hstep hguard.1 hguard.2

/-- Over a whole run the cache shows the flat file. -/
theorem Tracks.runs {events : List Event}
    (hruns : Runs World.step (Gapless S) w events w') (hserial : w.Serial S)
    (hS : S id) (htracks : w.Tracks id flat) :
    w'.Serial S ∧ w'.Tracks id (appliedAll id flat events) := by
  induction hruns generalizing flat with
  | nil w => exact ⟨hserial, htracks⟩
  | cons hstep hguard hrest ih =>
      exact ih (hserial.step hstep hguard.1)
        (htracks.step hstep hguard hserial hS)

/-- While nothing is running, there is one file that the cache shows. -/
theorem Tracks.unique {left right : List Byte} (hleft : w.Tracks id left)
    (hright : w.Tracks id right) (hidle : w.pool.Idle) : left = right := by
  have hnone : ∀ pos r input, w.Writing id r input →
      ¬ (r.start w.pool.cache.pageSize ≤ pos ∧
        pos < r.stop w.pool.cache.pageSize) :=
    fun _ r input h => absurd h (not_writing_of_idle hidle)
  have hlength : ∀ m, left.length ≤ m ↔ right.length ≤ m :=
    fun m => (hleft.upper m).symm.trans (hright.upper m)
  refine ext_valueAt (Nat.le_antisymm ((hlength _).mpr (Nat.le_refl _))
    ((hlength _).mp (Nat.le_refl _))) fun pos => ?_
  rw [← hleft.contents pos (hnone pos), hright.contents pos (hnone pos)]

/-- When nothing is running and no page of the file is dirty, the cache shows
what the device has. -/
theorem tracks_of_clean (hsound : w.Sound S) (hS : S id)
    (hidle : w.pool.Idle) (hclean : ∀ k, w.pool.cache.CleanAt ⟨id, k⟩) :
    w.Tracks id (w.pool.cache.fileOf w.device id) := by
  have hcache := hsound.cache
  have hagrees : ∀ k addr, w.pool.cache.slot ⟨id, k⟩ = some addr →
      (w.pool.cache.heap addr).key = ⟨id, k⟩ ∧
      w.pool.cache.Agrees w.device (w.pool.cache.heap addr)
        (w.pool.cache.heap addr).size := by
    intro k addr hslot
    obtain ⟨hlive, hkey⟩ := hcache.layout.live_of_slot _ _ hslot
    refine ⟨hkey, hcache.agrees addr hlive ?_ (hclean k addr hslot)⟩
    rw [hkey]
    exact hS
  refine ⟨fun pos _ => ?_,
    fun r input h => absurd h (not_writing_of_idle hidle), fun m => ?_⟩
  · cases hslot : w.pool.cache.slot ⟨id, pos / w.pool.cache.pageSize⟩ with
    | none =>
        unfold Cache.contents
        rw [hslot]
    | some addr =>
        exact Cache.contents_of_agrees hcache hslot (hagrees _ addr hslot).2
  · refine ⟨fun h => h.1.file, fun hle => ⟨⟨hle, ?_⟩,
      fun r input h => absurd h (not_writing_of_idle hidle)⟩⟩
    intro k addr hslot hpos
    obtain ⟨hkey, hag⟩ := hagrees k addr hslot
    have hlength := hag.le_length hpos
    rw [Cache.filePos, hkey] at hlength
    exact Nat.le_trans hlength hle

theorem tracks_of_uncached (hsound : w.Sound S) (hS : S id)
    (hidle : w.pool.Idle)
    (huncached : ∀ k, w.pool.cache.slot ⟨id, k⟩ = none) :
    w.Tracks id (w.pool.cache.fileOf w.device id) := by
  apply tracks_of_clean hsound hS hidle
  intro k addr hslot
  rw [huncached] at hslot
  cases hslot

/-- When nothing is running and no page of the file is dirty, the device has
the flat file. -/
theorem Tracks.file_eq (htracks : w.Tracks id flat) (hserial : w.Serial S)
    (hS : S id) (hidle : w.pool.Idle)
    (hclean : ∀ k, w.pool.cache.CleanAt ⟨id, k⟩) :
    w.pool.cache.fileOf w.device id = flat :=
  (tracks_of_clean hserial.kept.sound hS hidle hclean).unique htracks hidle

end

end World

end Madbfs
