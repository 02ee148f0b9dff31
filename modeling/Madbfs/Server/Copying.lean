/-
`CopyFileRange` on the files of a device.  Whether the kernel copies or the
server does it by hand, round by round, the output has the first bytes of the
range at the offset, and no other file is touched.
-/
import Madbfs.Server.Files

namespace Madbfs

namespace Rpc

namespace Server

open Bytes Rpc Program

variable {κ ι : Type}

section Steps

variable [DecidableEq ι] {kernel : Kernel κ} {view : κ → OpenFiles ι}
  {s s' : RequestHandler κ}

/-- What the inner loop of a copy has written. -/
structure Wrote (v v' : OpenFiles ι) (fd : Int32) (r : Except Errc Unit)
    (bytes written : List Byte) : Prop where
  names : v'.name = v.name
  files : v'.file = v.file
  others : ∀ l, v.file fd ≠ some l → v'.content l = v.content l
  part : written <+: bytes
  content : ∀ j, v.file fd = some j →
    v'.content j = overlay (v.content j) (v.pos fd) written
  whole : r = .ok () → written = bytes
  pos : r = .ok () → ∀ j, v.file fd = some j →
    v'.pos fd = v.pos fd + bytes.length
  other_pos : r = .ok () → ∀ fd' ≠ fd, v'.pos fd' = v.pos fd'

omit [DecidableEq ι] in
theorem Wrote.nothing {v v' : OpenFiles ι} {fd : Int32} {err : Errc}
    {bytes : List Byte} (hdevice : v'.toDevice = v.toDevice) :
    Wrote v v' fd (.error err) bytes [] where
  names := congrArg Device.name hdevice
  files := congrArg Device.file hdevice
  others l _ := congrFun (congrArg Device.content hdevice) l
  part := List.nil_prefix
  content j _ := by
    rw [overlay_nil]
    exact congrFun (congrArg Device.content hdevice) j
  whole hok := by cases hok
  pos hok := by cases hok
  other_pos hok := by cases hok

/-- A write of some bytes in front of the others. -/
theorem Wrote.cons {v v₁ v' : OpenFiles ι} {fd : Int32}
    {r : Except Errc Unit} {bytes written : List Byte} {n pos : Nat}
    (hn : n ≤ bytes.length)
    (hone : match v.file fd with
      | none => v₁ = v.seek fd pos
      | some i => pos = v.pos fd + n ∧ v₁ =
          (v.put i (overlay (v.content i) (v.pos fd) (bytes.take n))).seek fd
            pos)
    (hrest : Wrote v₁ v' fd r (bytes.drop n) written) :
    Wrote v v' fd r bytes (bytes.take n ++ written) := by
  have htake : (bytes.take n).length = n := List.length_take_of_le hn
  have hpart : bytes.take n ++ written <+: bytes := by
    have happend := (List.prefix_append_right_inj (bytes.take n)).mpr
      hrest.part
    rwa [List.take_append_drop] at happend
  have hwhole : r = .ok () → bytes.take n ++ written = bytes := by
    intro hok
    rw [hrest.whole hok, List.take_append_drop]
  cases hfile : v.file fd with
  | none =>
      rw [hfile] at hone
      subst hone
      exact {
        names := hrest.names
        files := hrest.files
        others := hrest.others
        part := hpart
        content := fun j hj => by rw [hfile] at hj; cases hj
        whole := hwhole
        pos := fun _ j hj => by rw [hfile] at hj; cases hj
        other_pos := fun hok fd' hne =>
          (hrest.other_pos hok fd' hne).trans (v.pos_seek_of_ne hne pos) }
  | some i =>
      rw [hfile] at hone
      obtain ⟨hpos, hone⟩ := hone
      subst hone
      exact {
        names := hrest.names
        files := hrest.files
        others := fun l hl => by
          rw [hfile] at hl
          have hne : l ≠ i := fun heq => hl (congrArg some heq.symm)
          exact (hrest.others l (fun hsame => hl (hfile ▸ hsame))).trans
            (Function.update_of_ne hne _ _)
        part := hpart
        content := fun j hj => by
          obtain rfl : i = j := Option.some.inj (hfile.symm.trans hj)
          have hlast := hrest.content i hfile
          rw [OpenFiles.pos_seek, hpos] at hlast
          have happend := overlay_append (v.content i) (v.pos fd)
            (bytes.take n) written
          rw [htake] at happend
          rw [hlast, ← happend]
          exact congrArg (overlay · _ _) (Function.update_self _ _ _)
        whole := hwhole
        pos := fun hok j hj => by
          have hlast := hrest.pos hok j hj
          rw [OpenFiles.pos_seek, List.length_drop] at hlast
          omega
        other_pos := fun hok fd' hne =>
          (hrest.other_pos hok fd' hne).trans (v.pos_seek_of_ne hne pos) }

theorem writeAll_wrote (h : kernel.Files view) (fd : Int32)
    (bytes : List Byte) {r : Except Errc Unit}
    (hrun : writeAll kernel fd bytes s = some (r, s')) :
    ∃ written, Wrote (view s.kernel) (view s'.kernel) fd r bytes written := by
  induction hlength : bytes.length using Nat.strong_induction_on
    generalizing bytes s with
  | h n ih =>
      subst hlength
      unfold writeAll at hrun
      split_ifs at hrun with hpos
      · rcases bind_cases hrun with ⟨err, hwrite, rfl⟩ | ⟨k, s₁, hwrite, hrest⟩
        · exact ⟨[], Wrote.nothing (h.failed (by trivial) (call_cases hwrite))⟩
        · have hlt : (bytes.drop k.1).length < bytes.length := by
            rw [List.length_drop]
            exact Nat.sub_lt hpos (k.2.2 hpos)
          obtain ⟨written, hwrote⟩ := ih _ hlt _ hrest rfl
          obtain ⟨pos, hone⟩ := h.written (call_cases hwrite)
          exact ⟨_, Wrote.cons k.2.1 hone hwrote⟩
      · cases hrun
        obtain rfl : bytes = [] :=
          List.eq_nil_of_length_eq_zero (Nat.eq_zero_of_not_pos hpos)
        exact ⟨[], {
          names := rfl
          files := rfl
          others := fun _ _ => rfl
          part := List.nil_prefix
          content := fun j _ => (overlay_nil _ _).symm
          whole := fun _ => rfl
          pos := fun _ _ _ => rfl
          other_pos := fun _ _ _ => rfl }⟩

/-- What the outer loop of a copy has moved from one descriptor to the other,
when it ends with the count `r`. -/
def Moves (v v' : OpenFiles ι) (inFd outFd : Int32) (size copied : Nat)
    (r : Except Errc Nat) : Prop :=
  ∃ bytes, Copies v.toDevice v'.toDevice (v.file inFd) (v.file outFd)
      (v.pos inFd) (v.pos outFd) (size - copied) bytes ∧
    ∀ total, r = .ok total → ∀ i j, v.file inFd = some i →
      v.file outFd = some j → i ≠ j → total = copied + bytes.length ∧
        (bytes = [] → slice (v.content i) (v.pos inFd) (size - copied) = [])

omit [DecidableEq ι] in
theorem Copies.nothing {d d' : Device ι} (hdevice : d' = d)
    (source target : Option ι) (inOff outOff size : Nat) :
    Copies d d' source target inOff outOff size [] where
  names := congrArg Device.name hdevice
  files := congrArg Device.file hdevice
  others l _ := congrFun (congrArg Device.content hdevice) l
  copied i j _ _ _ := by
    rw [overlay_nil, hdevice]
    exact ⟨List.nil_prefix, rfl⟩

/-- The first bytes of a slice are a slice of their own. -/
theorem part_slice {bytes file : List Byte} {off len : Nat}
    (hpart : bytes <+: slice file off len) :
    bytes = slice file off bytes.length ∧ bytes.length ≤ len := by
  have hle : bytes.length ≤ min len (file.length - off) := by
    rw [← length_slice]
    exact hpart.length_le
  have htake := List.prefix_iff_eq_take.mp hpart
  rw [slice, List.take_take, Nat.min_eq_left (by omega)] at htake
  exact ⟨htake, by omega⟩

theorem slice_shorter {file : List Byte} {off len more : Nat}
    (hle : len ≤ more) : slice file off len <+: slice file off more := by
  have htake : slice file off len = (slice file off more).take len := by
    rw [slice, slice, List.take_take, Nat.min_eq_left hle]
  rw [htake]
  exact List.take_prefix _ _

theorem slice_eq_nil {file : List Byte} {off len : Nat} :
    slice file off len = [] ↔ len = 0 ∨ file.length ≤ off := by
  rw [← List.length_eq_zero_iff, length_slice]
  omega

omit [DecidableEq ι] in
/-- A round of the loop: the bytes of a read are written, and what is left is
done from there. -/
theorem Moves.round {v v₁ v₂ v' : OpenFiles ι} {inFd outFd : Int32}
    {size copied pos : Nat} {bytes : List Byte} {r : Except Errc Nat}
    {w : Except Errc Unit} {written : List Byte}
    (hread : v₁ = v.seek inFd pos)
    (hbytes : ∀ i, v.file inFd = some i → pos = v.pos inFd + bytes.length ∧
      Part bytes (slice (v.content i) (v.pos inFd)
        (min bufferSize (size - copied))))
    (hne : bytes ≠ [])
    (hwrote : Wrote v₁ v₂ outFd w bytes written)
    (hrest : (∃ err, w = .error err ∧ r = .error err ∧ v' = v₂) ∨
      w = .ok () ∧ Moves v₂ v' inFd outFd size (copied + bytes.length) r) :
    Moves v v' inFd outFd size copied r := by
  subst hread
  have hwithin : ∀ i, v.file inFd = some i →
      bytes <+: slice (v.content i) (v.pos inFd) (size - copied) :=
    fun i hi => (hbytes i hi).2.1.trans (slice_shorter (Nat.min_le_right _ _))
  have hothers : ∀ l, v.file outFd ≠ some l → v₂.content l = v.content l :=
    hwrote.others
  have hcontent : ∀ i j, v.file inFd = some i → v.file outFd = some j →
      i ≠ j → v₂.content j = overlay (v.content j) (v.pos outFd) written := by
    intro i j hi hj hij
    have hfds : outFd ≠ inFd := by
      rintro rfl
      exact hij (Option.some.inj (hi.symm.trans hj))
    have hdone := hwrote.content j hj
    rwa [v.pos_seek_of_ne hfds] at hdone
  rcases hrest with ⟨err, rfl, rfl, rfl⟩ | ⟨rfl, more, hcopies, htotal⟩
  · refine ⟨written, {
      names := hwrote.names
      files := hwrote.files
      others := hothers
      copied := fun i j hi hj hij =>
        ⟨hwrote.part.trans (hwithin i hi), hcontent i j hi hj hij⟩ }, ?_⟩
    intro total htotal
    cases htotal
  · obtain rfl := hwrote.whole rfl
    have hfile : v₂.file = v.file := hwrote.files
    -- both descriptors stand behind the bytes of this round
    have hmoved : ∀ i j, v.file inFd = some i → v.file outFd = some j →
        i ≠ j → v₂.pos inFd = v.pos inFd + written.length ∧
          v₂.pos outFd = v.pos outFd + written.length ∧
          v₂.content i = v.content i := by
      intro i j hi hj hij
      have hfds : outFd ≠ inFd := by
        rintro rfl
        exact hij (Option.some.inj (hi.symm.trans hj))
      refine ⟨?_, ?_, hothers i fun hsame => hij ?_⟩
      · rw [hwrote.other_pos rfl inFd hfds.symm, OpenFiles.pos_seek,
          (hbytes i hi).1]
      · rw [hwrote.pos rfl j hj, v.pos_seek_of_ne hfds]
      · exact Option.some.inj (hsame.symm.trans hj)
    refine ⟨written ++ more, {
      names := hcopies.names.trans hwrote.names
      files := hcopies.files.trans hwrote.files
      others := fun l hl => (hcopies.others l (hfile ▸ hl)).trans
        (hothers l hl)
      copied := ?_ }, ?_⟩
    · intro i j hi hj hij
      obtain ⟨hin, hout, hsame⟩ := hmoved i j hi hj hij
      obtain ⟨hpart, hlast⟩ := hcopies.copied i j (hfile ▸ hi) (hfile ▸ hj) hij
      obtain ⟨hslice, hle⟩ := part_slice (hwithin i hi)
      have hpart : more <+: slice (v.content i)
          (v.pos inFd + written.length) (size - (copied + written.length)) := by
        rw [← hsame, ← hin]
        exact hpart
      constructor
      · have happend := slice_append (v.content i) (v.pos inFd) written.length
          (size - (copied + written.length))
        rw [← hslice, show written.length +
          (size - (copied + written.length)) = size - copied by omega]
        at happend
        change _ <+: slice (v.content i) (v.pos inFd) (size - copied)
        rw [← happend]
        exact (List.prefix_append_right_inj written).mpr hpart
      · have hlast : v'.content j =
            overlay (v₂.content j) (v₂.pos outFd) more := hlast
        rw [hlast, hout, hcontent i j hi hj hij, overlay_append]
    · intro total hok i j hi hj hij
      obtain ⟨hcount, -⟩ := htotal total hok i j (hfile ▸ hi) (hfile ▸ hj) hij
      refine ⟨?_, fun hnil => absurd (List.append_eq_nil_iff.mp hnil).1 hne⟩
      rw [hcount, List.length_append, Nat.add_assoc]

/-- The loop, round by round. -/
theorem copyAll_moves (h : kernel.Files view) (inFd outFd : Int32)
    (size copied : Nat) {r : Except Errc Nat}
    (hrun : copyAll kernel inFd outFd size copied s = some (r, s')) :
    Moves (view s.kernel) (view s'.kernel) inFd outFd size copied r := by
  induction hleft : size - copied using Nat.strong_induction_on
    generalizing copied s with
  | h n ih =>
      subst hleft
      unfold copyAll at hrun
      split_ifs at hrun with hlt
      · rcases bind_cases hrun with
          ⟨err, hread, rfl⟩ | ⟨buffer, s₁, hread, hrest⟩
        · refine ⟨[], Copies.nothing (h.failed (by trivial)
            (call_cases hread)) _ _ _ _ _, ?_⟩
          intro total hok
          cases hok
        obtain ⟨pos, hview, hbytes⟩ := h.read (call_cases hread)
        split_ifs at hrest with hempty
        · cases hrest
          have hnil : buffer.1 = [] := List.eq_nil_of_length_eq_zero hempty
          refine ⟨[], Copies.nothing (by rw [hview]; rfl) _ _ _ _ _, ?_⟩
          intro total hok i j hi hj hij
          cases hok
          refine ⟨rfl, fun _ => ?_⟩
          have hend := (hbytes i hi).2.2 hnil
          rw [slice_eq_nil] at hend ⊢
          have hpos : 0 < bufferSize := by decide
          omega
        · have hne : buffer.1 ≠ [] := fun hnil =>
            hempty (List.length_eq_zero_iff.mpr hnil)
          rcases bind_cases hrest with
            ⟨err, hwrite, rfl⟩ | ⟨u, s₂, hwrite, hmore⟩
          · obtain ⟨written, hwrote⟩ := writeAll_wrote h outFd _ hwrite
            exact Moves.round hview hbytes hne hwrote
              (.inl ⟨err, rfl, rfl, rfl⟩)
          · obtain ⟨written, hwrote⟩ := writeAll_wrote h outFd _ hwrite
            have hmoves := ih _ (by omega) _ hmore rfl
            exact Moves.round hview hbytes hne hwrote (.inr ⟨rfl, hmoves⟩)
      · cases hrun
        refine ⟨[], Copies.nothing rfl _ _ _ _ _, ?_⟩
        intro total hok i j hi hj hij
        cases hok
        refine ⟨rfl, fun _ => slice_eq_nil.mpr (.inl (by omega))⟩

/-- What a copy does to the device, when it ends with `r`. -/
def Copying (d d' : Device ι) (source target : Option ι)
    (inOff outOff size : Nat) (r : Except Errc (Response (List Byte))) :
    Prop :=
  ∃ bytes, Copies d d' source target inOff outOff size bytes ∧
    ∀ resp, r = .ok resp → ∀ i j, source = some i → target = some j → i ≠ j →
      resp = .copyFileRange (UInt64.ofNat bytes.length) ∧
      Part bytes (slice (d.content i) inOff size)

omit [DecidableEq ι] in
theorem Copying.nothing {d d' : Device ι} (hdevice : d' = d)
    (source target : Option ι) (inOff outOff size : Nat) (err : Errc) :
    Copying d d' source target inOff outOff size (.error err) :=
  ⟨[], Copies.nothing hdevice source target inOff outOff size,
    fun _ hok => by cases hok⟩

theorem copyByHand_copying (h : kernel.Files view) {inFd outFd : Int32}
    {size : UInt64} {r : Except Errc (Response (List Byte))}
    (hrun : copyByHand kernel inFd outFd size s = some (r, s')) :
    Copying (view s.kernel).toDevice (view s'.kernel).toDevice
      ((view s.kernel).file inFd) ((view s.kernel).file outFd)
      ((view s.kernel).pos inFd) ((view s.kernel).pos outFd) size.toNat r := by
  rcases bind_cases hrun with ⟨err, hloop, rfl⟩ | ⟨total, s₁, hloop, hrest⟩
  · obtain ⟨bytes, hcopies, -⟩ := copyAll_moves h inFd outFd _ _ hloop
    exact ⟨bytes, hcopies, fun _ hok => by cases hok⟩
  · cases hrest
    obtain ⟨bytes, hcopies, htotal⟩ := copyAll_moves h inFd outFd _ _ hloop
    refine ⟨bytes, hcopies, fun resp hok i j hi hj hij => ?_⟩
    cases hok
    obtain ⟨hcount, hend⟩ := htotal total rfl i j hi hj hij
    rw [hcount, Nat.zero_add]
    exact ⟨rfl, (hcopies.copied i j hi hj hij).1, hend⟩

omit [DecidableEq ι] in
/-- The input matters where there are two files. -/
theorem Copying.of_source {d d' : Device ι} {source source' target : Option ι}
    {inOff inOff' outOff size : Nat} {r : Except Errc (Response (List Byte))}
    (h : Copying d d' source target inOff outOff size r)
    (heq : ∀ i j, source' = some i → target = some j → i ≠ j →
      source = some i ∧ inOff = inOff') :
    Copying d d' source' target inOff' outOff size r := by
  obtain ⟨bytes, hcopies, hresp⟩ := h
  refine ⟨bytes, { hcopies with copied := ?_ }, ?_⟩
  · intro i j hi hj hij
    obtain ⟨hsource, rfl⟩ := heq i j hi hj hij
    exact hcopies.copied i j hsource hj hij
  · intro resp hok i j hi hj hij
    obtain ⟨hsource, rfl⟩ := heq i j hi hj hij
    exact hresp resp hok i j hsource hj hij

omit [DecidableEq ι] in
/-- What is done with the answer of a call. -/
theorem ask_cases {α β : Type} {c : Call α} {f : Except Errc α → Handle κ β}
    {r : Except Errc β}
    (hrun : ((call kernel c).outcome >>= f) s = some (r, s')) :
    ∃ res s₁, kernel.answer c s.kernel = (res, s₁.kernel) ∧
      f res s₁ = some (r, s') := by
  rcases bind_cases hrun with ⟨err, hask, -⟩ | ⟨res, s₁, hask, hrest⟩
  · cases hask
  · cases hask
    exact ⟨_, _, rfl, hrest⟩

/-- With both descriptors at their offsets. -/
theorem copyOpened_copying (h : kernel.Files view) {inFd outFd : Int32}
    {inOff outOff : Int64} {size : UInt64}
    {r : Except Errc (Response (List Byte))}
    (hin : inFd ≠ outFd → (view s.kernel).pos inFd = inOff.toInt.toNat)
    (hout : (view s.kernel).pos outFd = outOff.toInt.toNat)
    (hrun : copyOpened kernel inFd inOff outFd outOff size s =
      some (r, s')) :
    Copying (view s.kernel).toDevice (view s'.kernel).toDevice
      ((view s.kernel).file inFd) ((view s.kernel).file outFd)
      inOff.toInt.toNat outOff.toInt.toNat size.toNat r := by
  have hhand : ∀ {s₁ : RequestHandler κ}, view s₁.kernel = view s.kernel →
      copyByHand kernel inFd outFd size s₁ = some (r, s') →
        Copying (view s.kernel).toDevice (view s'.kernel).toDevice
          ((view s.kernel).file inFd) ((view s.kernel).file outFd)
          inOff.toInt.toNat outOff.toInt.toNat size.toNat r := by
    intro s₁ hview hrun
    have hcopying := copyByHand_copying h hrun
    rw [hview, hout] at hcopying
    refine hcopying.of_source fun i j hi hj hij => ⟨hi, hin ?_⟩
    rintro rfl
    exact hij (Option.some.inj (hi.symm.trans hj))
  change (if s.copyFileRangeImpl then
    tryCopyFileRange kernel inFd inOff outFd outOff size
    else copyByHand kernel inFd outFd size) s = some (r, s') at hrun
  split_ifs at hrun
  · obtain ⟨res, s₁, hanswer, hrest⟩ := ask_cases hrun
    cases res with
    | ok n =>
        cases hrest
        obtain ⟨bytes, hcopies, hn, hend⟩ := h.copied hanswer
        refine ⟨bytes, hcopies, fun resp hok i j hi hj hij => ?_⟩
        cases hok
        rw [hn]
        exact ⟨rfl, (hcopies.copied i j hi hj hij).1, hend i hi⟩
    | error err =>
        have hview := h.refused hanswer
        dsimp only at hrest
        split_ifs at hrest
        · have hrest : copyByHand kernel inFd outFd size
              { s₁ with copyFileRangeImpl := false } = some (r, s') := hrest
          refine hhand ?_ hrest
          exact hview
        · exact hhand hview hrest
        · cases hrest
          exact Copying.nothing (congrArg OpenFiles.toDevice hview) _ _ _ _ _ _
  · exact hhand rfl hrun

/-- A scope with a descriptor of its own leaves no trace of it. -/
theorem copying_scope (h : kernel.Files view) {path : List Byte}
    {flags : Int32} (hflags : flags = oRdonly ∨ flags = oWronly)
    {body : Int32 → Handle κ (Response (List Byte))}
    {source target : Option ι} {inOff outOff size : Nat}
    (hbody : ∀ {fd : Int32} {s₁ s₂ : RequestHandler κ}
      {r : Except Errc (Response (List Byte))},
      (view s.kernel).file fd = none →
      (view s₁.kernel).name = (view s.kernel).name →
      (view s₁.kernel).file = Function.update (view s.kernel).file fd
        ((view s.kernel).name path) →
      (∀ fd' ≠ fd, (view s₁.kernel).pos fd' = (view s.kernel).pos fd') →
      body fd s₁ = some (r, s₂) →
        Copying (view s₁.kernel).toDevice (view s₂.kernel).toDevice source
          target inOff outOff size r)
    {r : Except Errc (Response (List Byte))}
    (hrun : (call kernel (.open path flags) >>= fun fd =>
      defer (call kernel (.close fd)) (body fd)) s = some (r, s')) :
    Copying (view s.kernel).toDevice (view s'.kernel).toDevice source target
      inOff outOff size r := by
  rcases bind_cases hrun with ⟨err, hopen, rfl⟩ | ⟨fd, s₁, hopen, hscope⟩
  · exact Copying.nothing (h.failed (by trivial) (call_cases hopen)) _ _ _ _ _ _
  have hpassed : OpenFlags flags := by
    rcases hflags with rfl | rfl
    · exact ⟨0, rfl⟩
    · exact ⟨1, rfl⟩
  obtain ⟨hfree, hfile, hcontent, hpos, hname⟩ :=
    h.opened hpassed (call_cases hopen)
  have hname := hname hflags
  rw [hname] at hfile
  obtain ⟨s₂, u, hrun, hclose⟩ := defer_cases hscope
  obtain ⟨bytes, hcopies, hresp⟩ := hbody hfree hname hfile hpos hrun
  have hclosed : (view s'.kernel).toDevice =
      { (view s₂.kernel).toDevice with
        file := Function.update (view s₂.kernel).file fd none } := by
    have hkernel : s'.kernel = (kernel.answer (.close fd) s₂.kernel).2 := by
      rw [call_cases hclose]
    rw [hkernel, h.closed]
  have hfiles : (view s₂.kernel).file = (view s₁.kernel).file := hcopies.files
  refine ⟨bytes, {
    names := ?_
    files := ?_
    others := fun l hl => ?_
    copied := fun i j hi hj hij => ?_ }, fun resp hok i j hi hj hij => ?_⟩
  · rw [hclosed]
    exact hcopies.names.trans hname
  · rw [hclosed]
    change Function.update (view s₂.kernel).file fd none = _
    rw [hfiles, hfile, Function.update_idem, ← hfree,
      Function.update_eq_self]
  · rw [hclosed]
    exact (hcopies.others l hl).trans (congrFun hcontent l)
  · rw [hclosed, ← hcontent]
    exact hcopies.copied i j hi hj hij
  · rw [← hcontent]
    exact hresp resp hok i j hi hj hij

theorem answers_copyFileRange (h : kernel.Files view)
    {inPath outPath : List Byte} {inOff outOff : Int64} {size : UInt64}
    {r : Except Errc (Response (List Byte))}
    (hrun : handleCopyFileRange kernel inPath inOff outPath outOff size s =
      some (r, s')) :
    (view s.kernel).toDevice.Answers
      (.copyFileRange inPath inOff outPath outOff size)
      (respond (.copyFileRange inPath inOff outPath outOff size) r)
      (view s'.kernel).toDevice := by
  have hcopying : Copying (view s.kernel).toDevice (view s'.kernel).toDevice
      ((view s.kernel).name (cString inPath))
      ((view s.kernel).name (cString outPath)) inOff.toInt.toNat
      outOff.toInt.toNat size.toNat r := by
    refine copying_scope h (.inl rfl) ?_ hrun
    rintro inFd s₁ s₂ r - hname hfile - hrun
    rcases bind_cases hrun with ⟨err, hseek, rfl⟩ | ⟨u, s₃, hseek, hrest⟩
    · exact Copying.nothing (h.failed (by trivial) (call_cases hseek)) _ _ _ _
        _ _
    obtain ⟨-, hview⟩ := h.seeked (call_cases hseek)
    have hdevice : (view s₃.kernel).toDevice = (view s₁.kernel).toDevice := by
      rw [hview]
      rfl
    rw [← hdevice]
    refine copying_scope h (.inr rfl) ?_ hrest
    intro outFd s₄ s₅ r hfree hname' hfile' hpos' hrun
    rcases bind_cases hrun with ⟨err, hseek', rfl⟩ | ⟨u, s₆, hseek', hrest'⟩
    · exact Copying.nothing (h.failed (by trivial) (call_cases hseek')) _ _ _ _
        _ _
    obtain ⟨-, hview'⟩ := h.seeked (call_cases hseek')
    have hdevice' : (view s₆.kernel).toDevice = (view s₄.kernel).toDevice := by
      rw [hview']
      rfl
    have hnames : (view s₃.kernel).name = (view s.kernel).name :=
      (congrArg Device.name hdevice).trans hname
    have hinFile : (view s₃.kernel).file inFd =
        (view s.kernel).name (cString inPath) := by
      rw [hview]
      change (view s₁.kernel).file inFd = _
      rw [hfile, Function.update_self]
    have houtFile : (view s₆.kernel).file outFd =
        (view s.kernel).name (cString outPath) := by
      rw [hview']
      change (view s₄.kernel).file outFd = _
      rw [hfile', Function.update_self, hnames]
    have hopened := copyOpened_copying h (by
      intro hne
      rw [hview', OpenFiles.pos_seek_of_ne _ hne, hpos' inFd hne, hview,
        OpenFiles.pos_seek]) (by rw [hview', OpenFiles.pos_seek]) hrest'
    rw [houtFile, hdevice'] at hopened
    refine hopened.of_source fun i j hi hj hij => ⟨?_, rfl⟩
    -- the descriptor of the input was open when the other one was free
    have hne : inFd ≠ outFd := by
      rintro rfl
      rw [hinFile, hi] at hfree
      cases hfree
    change (view s₄.kernel).file inFd = some i
    rw [hfile', Function.update_of_ne hne, hinFile, hi]
  obtain ⟨bytes, hcopies, hresp⟩ := hcopying
  refine ⟨bytes, hcopies, fun resp hok => ?_⟩
  cases r with
  | error err => cases hok
  | ok resp' =>
      cases hok
      exact hresp resp rfl

end Steps

end Server

end Rpc

end Madbfs
