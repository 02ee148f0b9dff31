/-
`copy_file_range`.  The device copies between two files behind the cache.  Both
files are flushed before, so the device copies what the mount shows, but the
pages of the written file that are cached keep what they had: the copy is seen
as far as it changes no byte of a cached page.
-/
import Madbfs.Cache.Patched
import Madbfs.Completion

namespace Madbfs

open Bytes

/-- The end of `Cache::write`: the first error of a part, or the sum of what
the parts have written. -/
def Task.writeTotal : List Task → Except Errc Nat
  | [] => .ok 0
  | .didWrite _ (.ok n) :: rest =>
      (writeTotal rest).map fun written => n + written
  | .didWrite _ (.error err) :: _ => .error err
  | .finished (.error err) :: _ => .error err
  | _ :: rest => writeTotal rest

/-- The device copies bytes of one file into another.  It takes as many of
those it is asked for as it likes, and returns their number. -/
def Device.copyFileRange (d : Device) (accept : Nat) (inPath : Path)
    (inOff : Nat) (outPath : Path) (outOff size : Nat) : Device × Nat :=
  let bytes := (slice (d.file inPath) inOff size).take accept
  (d.put outPath (overlay (d.file outPath) outOff bytes), bytes.length)

/-- The filesystem with what the operations here use of its tree: the nodes
that paths lead to, and the sizes in their stats. -/
structure Mount extends Filesystem where
  traverse : Path → Except Errc Id
  size : Id → Nat

/-- The arguments of `Filesystem::copy_file_range`. -/
structure CopyArgs where
  inPath : Path
  inFd : Nat
  inOff : Nat
  outPath : Path
  outFd : Nat
  outOff : Nat
  size : Nat

namespace Mount

/-- The end of `Filesystem::write`, once the parts of the call have ended. -/
def wrote (m : Mount) (node : Id) (offset : Nat) (w' : World) : Mount :=
  match Task.writeTotal (w'.pool.tasks.drop m.world.pool.tasks.length) with
  | .error _ => { m with world := w' }
  | .ok n => { m with
      world := w'
      size := Function.update m.size node (max (m.size node) (offset + n))
      dirty := Function.update m.dirty node true }

/-- `Filesystem::flush`.  It does not return when the seat is empty, for it
uses the node of the handle. -/
def Flushes (m : Mount) (fd : Nat) (res : Except Errc Unit) (m' : Mount) :
    Prop :=
  match m.handles.find fd with
  | none => res = .error Errc.badFileDescriptor ∧ m' = m
  | some ⟨none, _, _⟩ => False
  | some ⟨some node, _, _⟩ =>
      if m.dirty node then
        if m.cached then
          ∃ w', m.world.Completes (.flush node) w' [.finished res] ∧
            m' = match res with
              | .error _ => { m with world := w' }
              | .ok () => { m with
                  world := w'
                  dirty := Function.update m.dirty node false }
        else res = .ok () ∧
          m' = { m with dirty := Function.update m.dirty node false }
      else res = .ok () ∧ m' = m

/-- The part of `Filesystem::copy_file_range` after the flushes. -/
def copied (m : Mount) (args : CopyArgs) (accept : Nat) :
    Except Errc Nat × Mount :=
  match m.traverse args.inPath, m.traverse args.outPath with
  | .error err, _ => (.error err, m)
  | .ok _, .error err => (.error err, m)
  | .ok _, .ok outNode =>
      let (device, n) := m.world.device.copyFileRange accept args.inPath
        args.inOff args.outPath args.outOff args.size
      (.ok n, { m with
        world := { m.world with device := device }
        size := Function.update m.size outNode
          (device.file args.outPath).length })

/-- `Filesystem::copy_file_range`. -/
def CopiesFileRange (m : Mount) (args : CopyArgs) (accept : Nat)
    (res : Except Errc Nat) (m' : Mount) : Prop :=
  ∃ inRes outRes m₁ m₂, m.Flushes args.inFd inRes m₁ ∧
    m₁.Flushes args.outFd outRes m₂ ∧ m₂.copied args accept = (res, m')

/-- The call names two open files, by their handles and by their paths. -/
structure Names (m : Mount) (args : CopyArgs) (inNode outNode : Id) :
    Prop where
  inFd : m.handles.nodeAt args.inFd = some inNode
  inPath : m.traverse args.inPath = .ok inNode
  inCached : m.world.pool.cache.pathOf inNode = some args.inPath
  outFd : m.handles.nodeAt args.outFd = some outNode
  outPath : m.traverse args.outPath = .ok outNode
  outCached : m.world.pool.cache.pathOf outNode = some args.outPath

end Mount

/-- What the written file should be after the copy. -/
def CopyArgs.result (args : CopyArgs) (accept : Nat)
    (inFile outFile : List Byte) : List Byte :=
  overlay outFile args.outOff
    ((slice inFile args.inOff args.size).take accept)

namespace Mount

/-- The mount with its flat files, after operations made one after the other
on open files.  Reads and flushes are made in any way they can end; writes
skip and cut off no byte of their pages, and copies change no byte of a cached
page. -/
inductive Reached : Mount → (Id → List Byte) → Prop
  | opened {m : Mount} (hcached : m.cached = true) (hopened : m.world.Opened)
      (hclean : ∀ id, ¬ m.world.pool.cache.Flagged id) :
      Reached m fun id => m.world.pool.cache.fileOf m.world.device id
  | read {m : Mount} {flat : Id → List Byte} {node : Id} {len offset : Nat}
      {w' : World} {parts : List Task} (hreached : Reached m flat)
      (hcall : Call.Proper m.world.pool.cache (.read node len offset))
      (hread : m.world.Completes (.read node len offset) w' parts) :
      Reached { m with world := w' } flat
  | write {m : Mount} {flat flat' : Id → List Byte} {node : Id}
      {input : List Byte} {offset : Nat} {rest : List Event} {w' : World}
      (hreached : Reached m flat)
      (hwrite : Runs Shadowed.step Shadowed.Seamless ⟨m.world, flat⟩
        (.call (.write node input offset) :: rest) ⟨w', flat'⟩)
      (hrest : ∀ event ∈ rest, event.isCall = false)
      (hend : w'.pool.Idle) : Reached (m.wrote node offset w') flat'
  | flush {m m' : Mount} {flat : Id → List Byte} {fd : Nat}
      {res : Except Errc Unit} (hreached : Reached m flat)
      (hflush : m.Flushes fd res m') : Reached m' flat
  | copy {m m' : Mount} {flat : Id → List Byte} {args : CopyArgs}
      {accept : Nat} {res : Except Errc Nat} {inNode outNode : Id}
      (hreached : Reached m flat) (hnames : m.Names args inNode outNode)
      (hcopy : m.CopiesFileRange args accept res m')
      (hspares : m.world.pool.cache.Spares outNode (flat outNode)
        (args.result accept (flat inNode) (flat outNode))) :
      Reached m' (Function.update flat outNode
        (args.result accept (flat inNode) (flat outNode)))

/-- Nothing is running, the cache matches the flat files, and the nodes of
files with changes in the cache are marked. -/
structure Synced (m : Mount) (flat : Id → List Byte) : Prop where
  cached : m.cached = true
  idle : m.world.pool.Idle
  mirrors : m.world.Mirrors flat
  dirty : ∀ id, m.world.pool.cache.Flagged id → m.dirty id = true

section

variable {m m' : Mount} {flat flat' : Id → List Byte}

theorem Synced.clean (hsynced : m.Synced flat) {id : Id}
    (hunmarked : ¬ m.world.pool.cache.Flagged id) (k : Nat) :
    m.world.pool.cache.CleanAt ⟨id, k⟩ := by
  intro addr hslot
  obtain ⟨hlive, hkey⟩ :=
    hsynced.mirrors.serial.kept.sound.cache.layout.live_of_slot _ _ hslot
  by_contra hdirty
  have hmarked := hsynced.mirrors.serial.kept.marked addr hlive trivial
    (by simpa using hdirty)
  rw [hkey] at hmarked
  exact hunmarked hmarked

theorem Synced.read (hsynced : m.Synced flat) {node : Id} {len offset : Nat}
    {w' : World} {parts : List Task}
    (hcall : Call.Proper m.world.pool.cache (.read node len offset))
    (hread : m.world.Completes (.read node len offset) w' parts) :
    Synced { m with world := w' } flat where
  cached := hsynced.cached
  idle := (hread.runs hsynced.idle).2.1
  mirrors := hread.mirrors hsynced.mirrors hsynced.idle hcall
    fun _ _ _ h => by cases h
  dirty := fun id hflag => hsynced.dirty id
    ((hread.tame hsynced.mirrors.serial hsynced.idle hcall
      fun _ _ _ h => by cases h).flag id hflag)

theorem writeTotal_ok {parts : List Task}
    (hparts : ∀ task ∈ parts, ∃ r n, task = .didWrite r (.ok n)) :
    ∃ n, Task.writeTotal parts = .ok n := by
  induction parts with
  | nil => exact ⟨0, rfl⟩
  | cons task rest ih =>
      obtain ⟨total, htotal⟩ := ih fun task hmem =>
        hparts task (List.mem_cons_of_mem _ hmem)
      obtain ⟨r, n, rfl⟩ := hparts task List.mem_cons_self
      refine ⟨n + total, ?_⟩
      rw [Task.writeTotal, htotal]
      rfl

theorem Synced.write (hsynced : m.Synced flat) {node : Id}
    {input : List Byte} {offset : Nat} {rest : List Event} {w' : World}
    (hwrite : Runs Shadowed.step Shadowed.Seamless ⟨m.world, flat⟩
      (.call (.write node input offset) :: rest) ⟨w', flat'⟩)
    (hrest : ∀ event ∈ rest, event.isCall = false) (hend : w'.pool.Idle) :
    (m.wrote node offset w').Synced flat' := by
  have hmirrors : w'.Mirrors flat' :=
    Shadowed.mirrors_runs hwrite hsynced.mirrors
  have hworld := Shadowed.runs_world hwrite
  cases hworld with
  | cons hstep hguard hruns =>
      obtain rfl := Option.some.inj hstep
      obtain ⟨hparts, hflags⟩ := World.stored
        (World.runs_without_calls hruns hrest) hsynced.mirrors.serial
        hsynced.idle hguard.1.2 hend
      obtain ⟨n, htotal⟩ := writeTotal_ok hparts
      unfold wrote
      rw [htotal]
      refine ⟨hsynced.cached, hend, hmirrors, fun id hflag => ?_⟩
      change Function.update m.dirty node true id = true
      by_cases hid : id = node
      · rw [hid, Function.update_self]
      · rw [Function.update_of_ne hid]
        exact hsynced.dirty id ((hflags id hflag).resolve_left hid)

/-- What `flush` keeps and what it leaves of the file of its handle. -/
structure Settles (m : Mount) (fd : Nat) (m' : Mount) : Prop where
  traverse : m'.traverse = m.traverse
  handles : m'.handles = m.handles
  tame : m.world.Tame m'.world
  slot : ∀ key addr, m'.world.pool.cache.slot key = some addr →
    m.world.pool.cache.slot key = some addr
  unmarked : ∀ node, m.handles.nodeAt fd = some node →
    ¬ m'.world.pool.cache.Flagged node

theorem Synced.flush (hsynced : m.Synced flat) {fd : Nat}
    {res : Except Errc Unit} (hflush : m.Flushes fd res m') :
    m'.Synced flat ∧ m.Settles fd m' := by
  unfold Flushes at hflush
  split at hflush
  · next hfind =>
      obtain ⟨-, rfl⟩ := hflush
      refine ⟨hsynced, rfl, rfl, .refl _, fun _ _ h => h, fun node hnode => ?_⟩
      rw [FileHandleStore.nodeAt, show m'.handles[fd]? = none from hfind]
        at hnode
      cases hnode
  · exact hflush.elim
  · next node mode realFd hfind =>
      have hnode : ∀ node', m.handles.nodeAt fd = some node' →
          node' = node := by
        intro node' h
        rw [FileHandleStore.nodeAt,
          show m.handles[fd]? = some ⟨some node, mode, realFd⟩ from hfind] at h
        exact (Option.some.inj h).symm
      split_ifs at hflush with hdirty hcached
      · obtain ⟨w', hcompletes, hm⟩ := hflush
        obtain ⟨hparts, hunmarked, hslot⟩ :=
          hcompletes.flush hsynced.mirrors.serial hsynced.idle
        have htame := hcompletes.tame hsynced.mirrors.serial hsynced.idle
          trivial fun _ _ _ h => by cases h
        have hres := List.head_eq_of_cons_eq hparts
        obtain rfl := Task.finished.inj hres
        subst hm
        refine ⟨⟨hsynced.cached, (hcompletes.runs hsynced.idle).2.1,
          hcompletes.mirrors hsynced.mirrors hsynced.idle trivial
            fun _ _ _ h => (by cases h), fun id hflag => ?_⟩, rfl, rfl, htame,
          hslot, fun node' h => hnode node' h ▸ hunmarked⟩
        change Function.update m.dirty node false id = true
        by_cases hid : id = node
        · exact absurd (hid ▸ hflag) hunmarked
        · rw [Function.update_of_ne hid]
          exact hsynced.dirty id (htame.flag id hflag)
      · exact absurd hsynced.cached hcached
      · obtain ⟨-, rfl⟩ := hflush
        refine ⟨hsynced, rfl, rfl, .refl _, fun _ _ h => h, fun node' h => ?_⟩
        rw [hnode node' h]
        exact fun hflag => hdirty (hsynced.dirty node hflag)

/-- The copy itself, while neither file has changes in the cache. -/
theorem Synced.copied (hsynced : m.Synced flat) {args : CopyArgs}
    {accept : Nat} {inNode outNode : Id} (hnames : m.Names args inNode outNode)
    (hin : ¬ m.world.pool.cache.Flagged inNode)
    (hout : ¬ m.world.pool.cache.Flagged outNode)
    (hspares : m.world.pool.cache.Spares outNode (flat outNode)
      (args.result accept (flat inNode) (flat outNode))) :
    m.copied args accept =
      (.ok ((slice (flat inNode) args.inOff args.size).take accept).length,
        { m with
          world := m.world.put args.outPath
            (args.result accept (flat inNode) (flat outNode))
          size := Function.update m.size outNode
            (args.result accept (flat inNode) (flat outNode)).length }) ∧
    (m.world.put args.outPath
      (args.result accept (flat inNode) (flat outNode))).Mirrors
        (Function.update flat outNode
          (args.result accept (flat inNode) (flat outNode))) := by
  have hfile : ∀ {node path}, m.world.pool.cache.pathOf node = some path →
      ¬ m.world.pool.cache.Flagged node →
      m.world.device.file path = flat node := by
    intro node path hpath hunmarked
    rw [← Cache.fileOf_eq hpath]
    exact (hsynced.mirrors.tracks node).file_eq hsynced.mirrors.serial trivial
      hsynced.idle (hsynced.clean hunmarked)
  refine ⟨?_, hsynced.mirrors.put hsynced.idle hnames.outCached
    (hsynced.clean hout) hspares⟩
  unfold Mount.copied Device.copyFileRange
  rw [hnames.inPath, hnames.outPath, hfile hnames.inCached hin,
    hfile hnames.outCached hout]
  dsimp only
  rw [Device.file_put_self]
  rfl

theorem Synced.copy (hsynced : m.Synced flat) {args : CopyArgs}
    {accept : Nat} {res : Except Errc Nat} {inNode outNode : Id}
    (hnames : m.Names args inNode outNode)
    (hcopy : m.CopiesFileRange args accept res m')
    (hspares : m.world.pool.cache.Spares outNode (flat outNode)
      (args.result accept (flat inNode) (flat outNode))) :
    res = .ok ((slice (flat inNode) args.inOff args.size).take accept).length ∧
    m'.Synced (Function.update flat outNode
      (args.result accept (flat inNode) (flat outNode))) ∧
    m'.world.pool.cache.pathOf outNode = some args.outPath ∧
    m'.size outNode = (m'.world.device.file args.outPath).length := by
  obtain ⟨inRes, outRes, m₁, m₂, hflushIn, hflushOut, heq⟩ := hcopy
  obtain ⟨hsynced₁, hsettles₁⟩ := hsynced.flush hflushIn
  obtain ⟨hsynced₂, hsettles₂⟩ := hsynced₁.flush hflushOut
  have htame := hsettles₁.tame.trans hsettles₂.tame
  have hnames₂ : m₂.Names args inNode outNode := by
    obtain ⟨hinFd, hinPath, hinCached, houtFd, houtPath, houtCached⟩ := hnames
    refine ⟨?_, ?_, (htame.path inNode).trans hinCached, ?_, ?_,
      (htame.path outNode).trans houtCached⟩
    · rwa [hsettles₂.handles, hsettles₁.handles]
    · rwa [hsettles₂.traverse, hsettles₁.traverse]
    · rwa [hsettles₂.handles, hsettles₁.handles]
    · rwa [hsettles₂.traverse, hsettles₁.traverse]
  have hin : ¬ m₂.world.pool.cache.Flagged inNode := fun hflag =>
    hsettles₁.unmarked inNode hnames.inFd (hsettles₂.tame.flag inNode hflag)
  have hout : ¬ m₂.world.pool.cache.Flagged outNode := by
    apply hsettles₂.unmarked outNode
    rw [hsettles₁.handles]
    exact hnames.outFd
  have hspares₂ : m₂.world.pool.cache.Spares outNode (flat outNode)
      (args.result accept (flat inNode) (flat outNode)) := by
    intro k hsome
    obtain ⟨addr, hslot⟩ := Option.isSome_iff_exists.mp hsome
    rw [htame.pageSize]
    refine hspares k (Option.isSome_iff_exists.mpr ⟨addr, ?_⟩)
    exact hsettles₁.slot _ _ (hsettles₂.slot _ _ hslot)
  obtain ⟨hcopied, hmirrors⟩ := hsynced₂.copied hnames₂ hin hout hspares₂
  rw [hcopied] at heq
  obtain ⟨rfl, rfl⟩ := Prod.mk.inj heq
  refine ⟨rfl, ⟨hsynced₂.cached, hsynced₂.idle, hmirrors, hsynced₂.dirty⟩,
    hnames₂.outCached, ?_⟩
  change Function.update m₂.size outNode _ outNode =
    ((m₂.world.device.put args.outPath _).file args.outPath).length
  rw [Function.update_self, Device.file_put_self]

theorem Reached.synced (hreached : m.Reached flat) : m.Synced flat := by
  induction hreached with
  | opened hcached hopened hclean =>
      refine ⟨hcached, (hopened.ready ⟨0⟩).idle, hopened.mirrors,
        fun id hflag => absurd hflag (hclean id)⟩
  | read hreached hcall hread ih => exact ih.read hcall hread
  | write hreached hwrite hrest hend ih => exact ih.write hwrite hrest hend
  | flush hreached hflush ih => exact (ih.flush hflush).1
  | copy hreached hnames hcopy hspares ih =>
      exact (ih.copy hnames hcopy hspares).2.1

theorem readResult_of_total {pageSize len : Nat} {parts : List Task}
    (hlen : 0 < len) (htotal : Task.readTotal parts = .ok len) :
    Filesystem.readResult pageSize len parts =
      .ok ((Task.readOut pageSize (List.replicate len 0) parts).take len) := by
  unfold Filesystem.readResult
  split
  · have hzero := Except.ok.inj htotal
    omega
  · rw [htotal]
    rfl

/-- A `read` inside its file returns the bytes of the flat file. -/
theorem Synced.reads (hsynced : m.Synced flat) {fd len offset : Nat}
    {node : Id} {mode : OpenMode} {realFd : Fd} {res : Except Errc (List Byte)}
    (hfind : m.handles.findMode fd .read = some ⟨some node, mode, realFd⟩)
    (hcall : Call.Proper m.world.pool.cache (.read node len offset))
    (hin : offset + len ≤ (flat node).length)
    (hreads : m.toFilesystem.Reads fd len offset res) :
    res = .ok (slice (flat node) offset len) := by
  unfold Filesystem.Reads at hreads
  rw [hfind] at hreads
  dsimp only at hreads
  rw [if_pos hsynced.cached] at hreads
  obtain ⟨w', parts, hcompletes, rfl⟩ := hreads
  obtain ⟨⟨rest, hruns⟩, hend, rfl, -⟩ := hcompletes.runs hsynced.idle
  have hserved : Runs Shadowed.step Shadowed.Seamless ⟨m.world, flat⟩
      (.call (.read node len offset) :: rest) ⟨w', flat⟩ :=
    Shadowed.runs_call hruns hsynced.mirrors.serial hsynced.idle hcall
      fun _ _ _ h => by cases h
  obtain ⟨htotal, hout⟩ := (Shadowed.read_mirrors hsynced.mirrors hserved
    (hruns.forall_mem And.right) hin List.length_replicate).1 hend
  rw [readResult_of_total hcall.2.1 htotal, hout, List.take_of_length_le]
  rw [length_slice]
  omega

end

/-- The file as clients get it through its handles: the size is that of the
device, a `read` inside the file returns its bytes, and a `read` in progress
can go on and takes no more steps than there is work. -/
structure Shows (m : Mount) (node : Id) (path : Path) (file : List Byte) :
    Prop where
  size : m.size node = (m.world.device.file path).length
  read : ∀ fd mode realFd len offset res,
    m.handles.findMode fd .read = some ⟨some node, mode, realFd⟩ →
    0 < len → offset + len < 2 ^ 63 → offset + len ≤ file.length →
    m.toFilesystem.Reads fd len offset res →
    res = .ok (slice file offset len)
  ends : ∀ len offset rest w', 0 < len → offset + len < 2 ^ 63 →
    Runs World.step World.OneAtATime m.world
      (.call (.read node len offset) :: rest) w' →
    (∀ event ∈ rest, event.isCall = false) →
    (¬ w'.pool.Idle →
      ∃ event w₁, event.isCall = false ∧ w'.step event = some w₁) ∧
    rest.length ≤ World.work { m.world with
      pool := m.world.pool.call (.read node len offset) }

theorem take_slice (file : List Byte) (off size accept : Nat) :
    (slice file off size).take accept =
      slice file off ((slice file off size).take accept).length := by
  simp only [slice, List.take_take, List.length_take]
  rw [List.take_eq_take_iff]
  omega

/-- Copies are visible.  After a copy between two open files, made from any
state that operations on open files can reach, reads of the written file return
what it held with the copied bytes in place, if no byte of a cached page is
changed by it. -/
theorem copyFileRange_visible {m m' : Mount} {flat : Id → List Byte}
    {args : CopyArgs} {accept c : Nat} {inNode outNode : Id}
    (hreached : m.Reached flat) (hnames : m.Names args inNode outNode)
    (hcopy : m.CopiesFileRange args accept (.ok c) m')
    (hspares : m.world.pool.cache.Spares outNode (flat outNode)
      (args.result accept (flat inNode) (flat outNode))) :
    m'.Shows outNode args.outPath (overlay (flat outNode) args.outOff
      (slice (flat inNode) args.inOff c)) := by
  obtain ⟨hc, hsynced, hpath, hsize⟩ :=
    hreached.synced.copy hnames hcopy hspares
  obtain rfl := Except.ok.inj hc
  rw [← take_slice]
  obtain ⟨entry, hentry, -⟩ := Option.map_eq_some_iff.mp hpath
  have hopen : (m'.world.pool.cache.lookup outNode).isSome := by
    rw [hentry]
    rfl
  refine ⟨hsize, ?_, ?_⟩
  · intro fd mode realFd len offset res hfind hlen hmax hin hreads
    have hread := hsynced.reads hfind ⟨hopen, hlen, hmax⟩ (by
      rw [Function.update_self]
      exact hin) hreads
    rw [hread, Function.update_self]
    rfl
  · intro len offset rest w' hlen hmax hruns hrest
    have hserial := hsynced.mirrors.serial
    have hserial' := hruns.preserves World.Serial.step hserial
    cases hruns with
    | cons hstep hguard hruns =>
        obtain rfl := Option.some.inj hstep
        refine ⟨hserial'.enabled, ?_⟩
        exact (hserial.call hguard.1 hguard.2).length_le
          (hruns.weaken fun event hmem _ _ h => ⟨h, hrest event hmem⟩)

end Mount

namespace CopiedOver

def files (path : Path) : List Byte :=
  if path = ["in"] then [9, 9, 9] else [1, 2, 3, 4]

def opened : Cache :=
  (((Cache.create 4 2).hintOpen ⟨1⟩ ["in"] .readWrite).1.hintOpen ⟨2⟩ ["out"]
    .readWrite).1

/-- Two open files, of which nothing is cached. -/
def start : Mount where
  cached := true
  world := { World.fresh 4 2 files with pool := ⟨opened, [], []⟩ }
  handles := [⟨some ⟨1⟩, .readWrite, 0⟩, ⟨some ⟨2⟩, .readWrite, 0⟩]
  dirty := fun _ => false
  traverse := fun path => .ok (if path = ["in"] then ⟨1⟩ else ⟨2⟩)
  size := fun node => if node = ⟨1⟩ then 3 else 4

/-- The first file is copied into the second. -/
def args (outOff : Nat) : CopyArgs where
  inPath := ["in"]
  inFd := 0
  inOff := 0
  outPath := ["out"]
  outFd := 1
  outOff := outOff
  size := 3

theorem opened_start : start.world.Opened := by
  have hfresh : (World.fresh 4 2 files).Opened :=
    World.opened_fresh (by decide) (by decide)
  have hin := @World.Opened.hintOpen _ hfresh ⟨1⟩ ["in"] rfl
    (fun id h => by cases h) .readWrite
  apply @World.Opened.hintOpen _ hin ⟨2⟩ ["out"] rfl _ .readWrite
  intro id hpath
  obtain ⟨entry, hentry, heq⟩ := Option.map_eq_some_iff.mp hpath
  rcases Cache.lookup_hintOpen rfl hentry with ⟨-, hfresh⟩ | hold
  · rw [hfresh.path] at heq
    exact absurd heq (by decide)
  · cases hold

theorem reached_start : start.Reached fun id =>
    start.world.pool.cache.fileOf start.world.device id := by
  refine .opened rfl opened_start ?_
  rintro id ⟨entry, hentry, hdirty⟩
  have hclean : entry.dirty = false := by
    rcases Cache.lookup_hintOpen rfl hentry with ⟨-, hfresh⟩ | hin
    · exact hfresh.dirty
    · rcases Cache.lookup_hintOpen rfl hin with ⟨-, hfresh⟩ | hold
      · exact hfresh.dirty
      · cases hold
  rw [hclean] at hdirty
  cases hdirty

/-- The steps of a `read` of a page that is not cached. -/
def fetch : List Event :=
  [.resume 0, .exec 0 0, .resume 0, .exec 0 0, .resume 0]

/-- A copy to the end of a file whose page is cached. -/
theorem copyFileRange_visible_behind : ∃ (m' : Mount) (res : _),
    m'.toFilesystem.Reads 1 7 0 res ∧ res = .ok [1, 2, 3, 4, 9, 9, 9] := by
  have hrun : ∃ w₁ parts, start.world.Completes (.read ⟨2⟩ 4 0) w₁ parts ∧
      Mount.Names { start with world := w₁ } (args 4) ⟨1⟩ ⟨2⟩ ∧
      w₁.pool.cache.Spares ⟨2⟩ [1, 2, 3, 4] [1, 2, 3, 4, 9, 9, 9] ∧
      ∃ m' res, Mount.CopiesFileRange { start with world := w₁ } (args 4) 3
          (.ok 3) m' ∧
        m'.toFilesystem.Reads 1 7 0 res ∧
        m'.handles.findMode 1 .read = some ⟨some ⟨2⟩, .readWrite, 0⟩ := by
    refine ⟨_, _, ⟨⟨fetch, .cons rfl rfl (.cons rfl rfl (.cons rfl rfl
        (.cons rfl rfl (.cons rfl rfl (.nil _)))))⟩, by decide, rfl⟩,
      ⟨rfl, rfl, rfl, rfl, rfl, rfl⟩, ?_, _, _,
      ⟨.ok (), .ok (), _, _, And.intro rfl rfl, And.intro rfl rfl, rfl⟩,
      ⟨_, _, ⟨⟨[.resume 1, .resume 2, .exec 2 0, .resume 2], .cons rfl rfl
        (.cons rfl rfl (.cons rfl rfl (.cons rfl rfl (.nil _))))⟩,
        by decide, rfl⟩, rfl⟩, rfl⟩
    intro k hsome
    cases k with
    | zero => rfl
    | succ k => cases hsome
  obtain ⟨w₁, parts, hfetch, hnames, hspares, m', res, hcopy, hreads, hfind⟩ :=
    hrun
  have hreached := Mount.Reached.read reached_start
    ⟨by decide, by decide, by decide⟩ hfetch
  have hshows := Mount.copyFileRange_visible hreached hnames hcopy hspares
  exact ⟨m', res, hreads, hshows.read 1 _ _ 7 0 res hfind (by decide)
    (by decide) (by decide) hreads⟩

/-- A copy over a page that is cached.  A later read returns the old bytes. -/
theorem not_copyFileRange_visible : ¬ ∀ (m m' : Mount)
    (flat : Id → List Byte) (args : CopyArgs) (accept c : Nat)
    (inNode outNode : Id), m.Reached flat → m.Names args inNode outNode →
    m.CopiesFileRange args accept (.ok c) m' →
    m'.Shows outNode args.outPath (overlay (flat outNode) args.outOff
      (slice (flat inNode) args.inOff c)) := by
  intro hall
  have hrun : ∃ w₁ parts, start.world.Completes (.read ⟨2⟩ 4 0) w₁ parts ∧
      Mount.Names { start with world := w₁ } (args 0) ⟨1⟩ ⟨2⟩ ∧
      ∃ m', Mount.CopiesFileRange { start with world := w₁ } (args 0) 3
          (.ok 3) m' ∧
        m'.toFilesystem.Reads 1 4 0 (.ok [1, 2, 3, 4]) ∧
        m'.handles.findMode 1 .read = some ⟨some ⟨2⟩, .readWrite, 0⟩ := by
    exact ⟨_, _, ⟨⟨fetch, .cons rfl rfl (.cons rfl rfl (.cons rfl rfl
        (.cons rfl rfl (.cons rfl rfl (.nil _)))))⟩, by decide, rfl⟩,
      ⟨rfl, rfl, rfl, rfl, rfl, rfl⟩, _,
      ⟨.ok (), .ok (), _, _, And.intro rfl rfl, And.intro rfl rfl, rfl⟩,
      ⟨_, _, ⟨⟨[.resume 1], .cons rfl rfl (.nil _)⟩, by decide, rfl⟩, rfl⟩,
      rfl⟩
  obtain ⟨w₁, parts, hfetch, hnames, m', hcopy, hreads, hfind⟩ := hrun
  have hreached := Mount.Reached.read reached_start
    ⟨by decide, by decide, by decide⟩ hfetch
  have hres := (hall _ m' _ (args 0) 3 3 ⟨1⟩ ⟨2⟩ hreached hnames hcopy).read 1
    _ _ 4 0 _ hfind (by decide) (by decide) (by decide) hreads
  exact absurd (Except.ok.inj hres) (by decide)

end CopiedOver

end Madbfs
