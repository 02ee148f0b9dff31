/-
A file that changes on the device behind the cache.  While nothing is running
and no page of the file is dirty, the system matches the flat files with the
new content in place of the old, if both have the same bytes in every page of
the file that is cached.
-/
import Madbfs.Cache.Coherent

namespace Madbfs

open Bytes

/-- The device with another content for the file at a path. -/
def Device.put (d : Device) (path : Path) (file : List Byte) : Device :=
  { d with file := Function.update d.file path file }

theorem Device.file_put_self (d : Device) (path : Path) (file : List Byte) :
    (d.put path file).file path = file :=
  Function.update_self _ _ _

namespace Cache

/-- Both contents have the same bytes in every cached page of the file. -/
def Spares (c : Cache) (id : Id) (old new : List Byte) : Prop :=
  ∀ k, (c.slot ⟨id, k⟩).isSome →
    slice old (k * c.pageSize) c.pageSize =
      slice new (k * c.pageSize) c.pageSize

section

variable {S : Id → Prop} {c : Cache} {d : Device} {held : Multiset Addr}
  {id : Id} {path : Path} {file : List Byte}

theorem fileOf_put_self (hpath : c.pathOf id = some path) (d : Device)
    (file : List Byte) : c.fileOf (d.put path file) id = file := by
  rw [fileOf_eq hpath]
  exact d.file_put_self path file

/-- The files at other paths stay. -/
theorem fileOf_put_ne (hsound : Sound S c d held)
    (hpath : c.pathOf id = some path) (file : List Byte) {id' : Id}
    (hne : id' ≠ id) : c.fileOf (d.put path file) id' = c.fileOf d id' := by
  unfold fileOf
  cases hpath' : c.pathOf id' with
  | none => rfl
  | some path' =>
      have hother : path' ≠ path := by
        rintro rfl
        exact hne (hsound.path_inj _ _ _ hpath' hpath)
      exact Function.update_of_ne hother _ _

/-- A page that agrees with the device still does if it is spared. -/
theorem Agrees.put (hsound : Sound S c d held)
    (hpath : c.pathOf id = some path)
    (hspares : c.Spares id (c.fileOf d id) file) {addr : Addr}
    (hlive : addr ∈ c.live held)
    (hagrees : Agrees c d (c.heap addr) (c.heap addr).size) :
    Agrees c (d.put path file) (c.heap addr) (c.heap addr).size := by
  have hsize : (c.heap addr).size ≤ c.pageSize := (hsound.wf addr hlive).size_le
  by_cases hid : (c.heap addr).key.id = id
  · have hslot := hsound.layout.slot_of_live addr hlive
    have hslice := hspares (c.heap addr).key.index (by
      rw [← hid]
      exact Option.isSome_iff_exists.mpr ⟨addr, hslot⟩)
    refine ⟨fun pos hpos => ?_, fun hpos => ?_⟩
    · have hvalue := hagrees.valueAt_eq pos hpos
      rw [hid] at hvalue ⊢
      rw [fileOf_put_self hpath, hvalue]
      exact valueAt_of_slice_eq hslice (by omega)
    · have hlength := hagrees.le_length hpos
      rw [hid] at hlength ⊢
      rw [fileOf_put_self hpath]
      exact le_length_of_slice_eq hslice hpos hsize hlength
  · refine ⟨fun pos hpos => ?_, fun hpos => ?_⟩
    · rw [fileOf_put_ne hsound hpath file hid]
      exact hagrees.valueAt_eq pos hpos
    · rw [fileOf_put_ne hsound hpath file hid]
      exact hagrees.le_length hpos

theorem Sound.put (hsound : Sound S c d held) (hpath : c.pathOf id = some path)
    (hspares : c.Spares id (c.fileOf d id) file) :
    Sound S c (d.put path file) held where
  layout := hsound.layout
  pageSize_pos := hsound.pageSize_pos
  pageSize_lt := hsound.pageSize_lt
  wf := hsound.wf
  tail := hsound.tail
  readFd := hsound.readFd
  writeFd := hsound.writeFd
  path_inj := hsound.path_inj
  agrees := fun addr hlive hS hclean =>
    (hsound.agrees addr hlive hS hclean).put hsound hpath hspares hlive

/-- Bytes that come to the file do not come into a cached page. -/
theorem Covered.put (hpath : c.pathOf id = some path)
    (hspares : c.Spares id (c.fileOf d id) file) (hpage : 0 < c.pageSize)
    {pending : PageKey → Prop}
    (hcovered : c.Covered d pending id (c.fileOf d id).length) :
    c.Covered (d.put path file) pending id file.length := by
  intro pos hpos
  rw [fileOf_put_self hpath]
  cases hslot : c.slot ⟨id, pos / c.pageSize⟩ with
  | none => exact .inr hpos
  | some addr =>
      have hdiv := Nat.div_add_mod' pos c.pageSize
      have hmod := Nat.mod_lt pos hpage
      have hold := le_length_of_slice_eq
        (hspares (pos / c.pageSize) (by rw [hslot]; rfl)).symm
        (Nat.succ_pos (pos % c.pageSize)) hmod (by omega)
      have hbyte := hcovered pos (by omega)
      rwa [hslot] at hbyte

end

end Cache

namespace World

def put (w : World) (path : Path) (file : List Byte) : World :=
  { w with device := w.device.put path file }

section

variable {S : Id → Prop} {w : World} {id : Id} {path : Path}
  {file : List Byte}

theorem Sound.put (hsound : w.Sound S) (hidle : w.pool.Idle)
    (hpath : w.pool.cache.pathOf id = some path)
    (hspares : w.pool.cache.Spares id (w.pool.cache.fileOf w.device id) file) :
    (w.put path file).Sound S where
  cache := hsound.cache.put hpath hspares
  queue := hsound.queue
  fds := hsound.fds
  plain := hsound.plain
  waits := by
    intro i task htask
    have hwait := hsound.waits i task htask
    have hdone := hidle task (List.mem_of_getElem? htask)
    have hother : task.wait = .other := by
      cases task with
      | didRead r res => rfl
      | didWrite r res => rfl
      | finished res => rfl
      | _ => cases hdone
    rw [hother] at hwait ⊢
    exact hwait
  replies := hsound.replies

theorem Serial.put (hserial : w.Serial S) (hidle : w.pool.Idle)
    (hpath : w.pool.cache.pathOf id = some path)
    (hspares : w.pool.cache.Spares id (w.pool.cache.fileOf w.device id) file) :
    (w.put path file).Serial S where
  kept := ⟨hserial.kept.sound.put hidle hpath hspares, hserial.kept.marked,
    hserial.kept.writing⟩
  apart := hserial.apart
  calm := hserial.calm
  fits := hserial.fits
  reading := hserial.reading
  queued := hserial.queued
  fetched := by
    intro i r fd fut bytes htask
    cases hidle _ (List.mem_of_getElem? htask)
  flushing := hserial.flushing

/-- A file is replaced on the device, by one that spares its cached pages. -/
theorem Mirrors.put {flat : Id → List Byte} (hmirrors : w.Mirrors flat)
    (hidle : w.pool.Idle) (hpath : w.pool.cache.pathOf id = some path)
    (hclean : ∀ k, w.pool.cache.CleanAt ⟨id, k⟩)
    (hspares : w.pool.cache.Spares id (flat id) file) :
    (w.put path file).Mirrors (Function.update flat id file) := by
  have hsound := hmirrors.serial.kept.sound.cache
  have hfile := (hmirrors.tracks id).file_eq hmirrors.serial trivial hidle
    hclean
  rw [← hfile] at hspares
  have hserial := hmirrors.serial.put hidle hpath hspares
  refine ⟨hserial, fun id' => ?_,
    fun id' => ⟨?_, fun i r fd fut bytes htask => ?_⟩⟩
  · by_cases hid : id' = id
    · subst hid
      have htracks := tracks_of_clean hserial.kept.sound trivial hidle hclean
      rw [Function.update_self]
      rwa [show (w.put path file).pool.cache.fileOf (w.put path file).device
        id' = file from Cache.fileOf_put_self hpath w.device file] at htracks
    · rw [Function.update_of_ne hid]
      exact (hmirrors.tracks id').congr (fun _ => True) 0
        (Cache.sameView_device (Cache.fileOf_put_ne hsound hpath file hid)) rfl
        fun r input => Iff.rfl
  · by_cases hid : id' = id
    · subst hid
      have hcovered := (hmirrors.complete id').covered
      rw [← hfile] at hcovered
      rw [Function.update_self]
      exact hcovered.put hpath hspares hsound.pageSize_pos
    · rw [Function.update_of_ne hid]
      exact (Cache.sameView_device (Cache.fileOf_put_ne hsound hpath file
        hid)).covered (hmirrors.complete id').covered
  · cases hidle _ (List.mem_of_getElem? htask)

end

end World

end Madbfs
