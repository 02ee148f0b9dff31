/-
The open files of the filesystem.  A handle names its node and the mode it was
opened with; without a data cache it also carries the descriptor on the
device.  The number of a handle is its seat in the store.  A seat without a
node is empty: it was never taken, its handle was released, or its node was
erased under the handle.
-/
import Madbfs.Cache.Basic

namespace Madbfs

/-- `FileHandle`.  The node is given by its id, and a null pointer by none. -/
structure FileHandle where
  node : Option Id
  mode : OpenMode
  realFd : Fd
deriving Repr, DecidableEq

/-- `FileHandle{}`. -/
def FileHandle.empty : FileHandle where
  node := none
  mode := .read
  realFd := 0

/-- `FileHandleStore`. -/
abbrev FileHandleStore := List FileHandle

namespace FileHandleStore

/-- `FileHandleStore::find`. -/
def find (s : FileHandleStore) (fd : Nat) : Option FileHandle :=
  s[fd]?

/-- `FileHandleStore::find` with a mode. -/
def findMode (s : FileHandleStore) (fd : Nat) (mode : OpenMode) :
    Option FileHandle :=
  s[fd]?.filter fun handle =>
    handle.node.isSome && (handle.mode == mode || handle.mode == .readWrite)

/-- The node the descriptor names, if its seat holds one. -/
def nodeAt (s : FileHandleStore) (fd : Nat) : Option Id :=
  s[fd]?.bind FileHandle.node

/-- The first empty seat. -/
def firstEmpty (s : FileHandleStore) : Option Nat :=
  s.findIdx? fun handle => handle.node.isNone

/-- The store with more seats: 1024 at first, then twice as many. -/
def grow (s : FileHandleStore) : FileHandleStore :=
  s ++ List.replicate (if s.isEmpty then 1024 else s.length) .empty

/-- The seat `store` takes: the first empty one, if any, else the first one
that is added. -/
def seat (s : FileHandleStore) : Nat :=
  s.firstEmpty.getD s.length

/-- `FileHandleStore::store`, with the descriptor it returns. -/
def store (s : FileHandleStore) (handle : FileHandle) : Nat × FileHandleStore :=
  match s.firstEmpty with
  | some fd => (fd, s.set fd handle)
  | none => (s.length, s.grow.set s.length handle)

/-- `FileHandleStore::release`. -/
def release (s : FileHandleStore) (fd : Nat) :
    Option FileHandle × FileHandleStore :=
  (s[fd]?, s.set fd .empty)

/-- `FileHandleStore::erase`.  Only the node is taken out of the handle. -/
def erase (s : FileHandleStore) (node : Id) : FileHandleStore :=
  s.map fun handle =>
    if handle.node = some node then { handle with node := none } else handle

theorem mem_of_findMode {s : FileHandleStore} {fd : Nat} {mode : OpenMode}
    {handle : FileHandle} (hfind : s.findMode fd mode = some handle) :
    handle ∈ s ∧ handle.node.isSome := by
  obtain ⟨hget, hmode⟩ := Option.filter_eq_some_iff.mp hfind
  exact ⟨List.mem_of_getElem? hget, (Bool.and_eq_true_iff.mp hmode).1⟩

theorem mem_grow {s : FileHandleStore} {handle : FileHandle}
    (hmem : handle ∈ s.grow) : handle = .empty ∨ handle ∈ s := by
  rcases List.mem_append.mp hmem with hold | hnew
  · exact .inr hold
  · exact .inl (List.eq_of_mem_replicate hnew)

theorem mem_store {s : FileHandleStore} {handle other : FileHandle}
    (hmem : other ∈ (s.store handle).2) :
    other = handle ∨ other = .empty ∨ other ∈ s := by
  unfold store at hmem
  split at hmem
  · rcases List.mem_or_eq_of_mem_set hmem with hold | hnew
    · exact .inr (.inr hold)
    · exact .inl hnew
  · rcases List.mem_or_eq_of_mem_set hmem with hold | hnew
    · exact .inr (mem_grow hold)
    · exact .inl hnew

theorem mem_release {s : FileHandleStore} {fd : Nat} {handle : FileHandle}
    (hmem : handle ∈ (s.release fd).2) : handle = .empty ∨ handle ∈ s := by
  rcases List.mem_or_eq_of_mem_set hmem with hold | hnew
  · exact .inr hold
  · exact .inl hnew

section Seats

variable {s s' s₁ : FileHandleStore} {fd : Nat} {handle : FileHandle}

theorem nodeAt_eq_none (hget : s[fd]? = some handle)
    (hnode : s.nodeAt fd = none) : handle.node = none := by
  rw [nodeAt, hget] at hnode
  exact hnode

theorem nodeAt_of_length_le (hle : s.length ≤ fd) : s.nodeAt fd = none := by
  rw [nodeAt, List.getElem?_eq_none hle]
  rfl

theorem findMode_eq_none (hnode : s.nodeAt fd = none) (mode : OpenMode) :
    s.findMode fd mode = none := by
  rw [findMode, Option.filter_eq_none_iff]
  intro handle hget
  rw [nodeAt_eq_none hget hnode]
  simp

theorem nodeAt_seat (s : FileHandleStore) : s.nodeAt s.seat = none := by
  unfold seat firstEmpty
  cases hfind : s.findIdx? fun handle => handle.node.isNone with
  | none => exact nodeAt_of_length_le (Nat.le_refl _)
  | some fd =>
      obtain ⟨hlt, hempty, -⟩ := List.findIdx?_eq_some_iff_getElem.mp hfind
      rw [Option.getD_some, nodeAt, List.getElem?_eq_getElem hlt]
      exact Option.isNone_iff_eq_none.mp hempty

/-- The seats before the one `store` takes are taken. -/
theorem nodeAt_of_lt_seat (hlt : fd < s.seat) : s.nodeAt fd ≠ none := by
  unfold seat firstEmpty at hlt
  cases hfind : s.findIdx? fun handle => handle.node.isNone with
  | none =>
      rw [hfind, Option.getD_none] at hlt
      rw [nodeAt, List.getElem?_eq_getElem hlt]
      have hall := List.findIdx?_eq_none_iff.mp hfind s[fd]
        (List.getElem_mem hlt)
      intro hnone
      have hempty := Option.isNone_iff_eq_none.mpr hnone
      exact absurd (hempty.symm.trans hall) Bool.noConfusion
  | some seat =>
      rw [hfind, Option.getD_some] at hlt
      obtain ⟨hlen, -, hbefore⟩ := List.findIdx?_eq_some_iff_getElem.mp hfind
      have hfd : fd < s.length := Nat.lt_trans hlt hlen
      rw [nodeAt, List.getElem?_eq_getElem hfd]
      intro hnone
      exact hbefore fd hlt (Option.isNone_iff_eq_none.mpr hnone)

theorem store_fst (s : FileHandleStore) (handle : FileHandle) :
    (s.store handle).1 = s.seat := by
  unfold store seat
  cases s.firstEmpty <;> rfl

theorem length_lt_grow (s : FileHandleStore) : s.length < s.grow.length := by
  unfold grow
  rw [List.length_append, List.length_replicate]
  split_ifs with hempty
  · omega
  · have hpos := List.length_pos_of_ne_nil fun hnil =>
      hempty (List.isEmpty_iff.mpr hnil)
    omega

/-- `store` puts the handle on the seat it takes. -/
theorem getElem?_store_seat (s : FileHandleStore) (handle : FileHandle) :
    (s.store handle).2[s.seat]? = some handle := by
  unfold store seat
  cases hfind : s.firstEmpty with
  | none =>
      rw [Option.getD_none]
      exact List.getElem?_set_self (length_lt_grow s)
  | some fd =>
      obtain ⟨hlt, -⟩ := List.findIdx?_eq_some_iff_getElem.mp hfind
      exact List.getElem?_set_self hlt

/-- `store` leaves the other seats alone. -/
theorem getElem?_store (handle : FileHandle) (hlt : fd < s.length)
    (hne : fd ≠ s.seat) : (s.store handle).2[fd]? = s[fd]? := by
  unfold store seat at *
  cases hfind : s.firstEmpty with
  | none =>
      rw [List.getElem?_set_ne (Nat.ne_of_gt hlt), grow,
        List.getElem?_append_left hlt]
  | some seat =>
      rw [hfind, Option.getD_some] at hne
      exact List.getElem?_set_ne hne.symm

theorem getElem?_release {other : Nat} (hne : other ≠ fd) :
    (s.release fd).2[other]? = s[other]? :=
  List.getElem?_set_ne hne.symm

end Seats

end FileHandleStore

/-- A handle that is as it was, or whose node was erased. -/
def FileHandle.Fades (handle handle' : FileHandle) : Prop :=
  handle' = handle ∨ handle' = { handle with node := none }

theorem FileHandle.Fades.trans {h h' h'' : FileHandle} (hleft : h.Fades h')
    (hright : h'.Fades h'') : h.Fades h'' := by
  rcases hleft with rfl | rfl
  · exact hright
  · rcases hright with rfl | rfl
    · exact .inr rfl
    · exact .inr rfl

namespace FileHandleStore

/-- Nodes were erased, and nothing else. -/
def Fades (s s' : FileHandleStore) : Prop :=
  ∀ (fd : Nat) (handle : FileHandle), s[fd]? = some handle →
    ∃ handle', s'[fd]? = some handle' ∧ handle.Fades handle'

theorem Fades.refl (s : FileHandleStore) : s.Fades s :=
  fun _ handle hget => ⟨handle, hget, .inl rfl⟩

theorem Fades.trans {s s₁ s' : FileHandleStore} (hleft : s.Fades s₁)
    (hright : s₁.Fades s') : s.Fades s' := by
  intro fd handle hget
  obtain ⟨handle₁, hget₁, hfades⟩ := hleft fd handle hget
  obtain ⟨handle', hget', hfades'⟩ := hright fd handle₁ hget₁
  exact ⟨handle', hget', hfades.trans hfades'⟩

theorem fades_erase (s : FileHandleStore) (node : Id) :
    s.Fades (s.erase node) := by
  intro fd handle hget
  rw [erase, List.getElem?_map, hget]
  refine ⟨_, rfl, ?_⟩
  simp only
  split_ifs
  · exact .inr rfl
  · exact .inl rfl

end FileHandleStore

end Madbfs
