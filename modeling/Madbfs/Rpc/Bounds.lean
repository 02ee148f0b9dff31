/-
Bounds of the reads of a payload.  The bytes of a payload are walked once more
by the format alone, in plain arithmetic: fields in their order, a length
before each byte string and each path.  Reading stays inside the payload
exactly when this walk meets no path of declared length zero and no length
that takes the cursor past `2 ^ 64`.
-/
import Madbfs.Rpc.RoundTrip

namespace Madbfs

namespace Rpc

open Bytes NetBytes PayloadReader

/-- The bytes of a declared length that are not part of the value: a path is
followed by a null byte. -/
def Kind.tail : Kind → Nat
  | .path => 1
  | _ => 0

/-- The read returned the declared bytes from the cursor on, and the cursor
moved over them. -/
def Extent.Inside (p : List Byte) (e : Extent) : Prop :=
  e.kind.tail ≤ e.declared ∧
    e.taken = some ⟨e.start, e.declared - e.kind.tail⟩ ∧
    e.start + e.declared ≤ p.length ∧ e.next = e.start + e.declared

/-- The read failed and left the cursor where it was. -/
def Extent.Refused (e : Extent) : Prop :=
  e.taken = none ∧ e.next = e.start

/-- The read formed a slice, but not of the declared bytes. -/
def Extent.Stray (p : List Byte) (e : Extent) : Prop :=
  e.taken ≠ none ∧ ¬ e.Inside p

/-- Every read of a parse is inside the payload, or it failed and the parse
returned nothing. -/
def StaysInside {α : Type} (p : List Byte)
    (result : Except Stop α × PayloadReader) : Prop :=
  ∀ e ∈ result.2.reads,
    e.Inside p ∨ e.Refused ∧ result.1 = .error .nullopt

/-- The fields of a payload. -/
inductive Field where
  | int (size : Nat)
  | bytes
  | path
deriving Repr, DecidableEq

/-- How a walk over fields ends: behind them, at the end of the payload, or at
a length that the reader takes for another one. -/
inductive Walk where
  | done (next : Nat)
  | short
  | bad
deriving Repr, DecidableEq

def Walk.andThen : Walk → (Nat → Walk) → Walk
  | .done next, f => f next
  | .short, _ => .short
  | .bad, _ => .bad

/-- Walk over a part of the payload of some size. -/
def walkPart (p : List Byte) (pos size : Nat) : Walk :=
  if pos + size ≤ p.length then .done (pos + size)
  else if pos + size ≤ 2 ^ 64 then .short
  else .bad

/-- The length that stands at a position. -/
def announcedAt (p : List Byte) (pos : Nat) : Nat :=
  ofBigEndian (slice p pos 8)

def Field.walk (p : List Byte) : Field → Nat → Walk
  | .int size, pos => walkPart p pos size
  | .bytes, pos =>
      (walkPart p pos 8).andThen fun next =>
        walkPart p next (announcedAt p pos)
  | .path, pos =>
      (walkPart p pos 8).andThen fun next =>
        if announcedAt p pos = 0 then .bad
        else walkPart p next (announcedAt p pos)

def walk (p : List Byte) : List Field → Nat → Walk
  | [], pos => .done pos
  | field :: rest, pos => (field.walk p pos).andThen (walk p rest)

theorem walk_singleton (p : List Byte) (field : Field) (pos : Nat) :
    walk p [field] pos = field.walk p pos := by
  rw [walk]
  cases field.walk p pos <;> rfl

theorem walk_append (p : List Byte) (left right : List Field) (pos : Nat) :
    walk p (left ++ right) pos =
      (walk p left pos).andThen (walk p right) := by
  induction left generalizing pos with
  | nil => rfl
  | cons field rest ih =>
      rw [List.cons_append, walk, walk]
      cases field.walk p pos with
      | done next => exact ih next
      | short => rfl
      | bad => rfl

/-- The payload of each request. -/
def requestLayout : Procedure → List Field
  | .stat => [.path]
  | .listdir => [.path]
  | .readlink => [.path]
  | .mknod => [.path, .int 4, .int 8]
  | .mkdir => [.path, .int 4]
  | .unlink => [.path]
  | .rmdir => [.path]
  | .rename => [.path, .path, .int 4]
  | .truncate => [.path, .int 8]
  | .utimens => [.path, .int 8, .int 8, .int 8, .int 8]
  | .copyFileRange => [.path, .int 8, .path, .int 8, .int 8]
  | .open => [.path, .int 1]
  | .close => [.int 8]
  | .read => [.int 8, .int 8, .int 8]
  | .write => [.int 8, .int 8, .bytes]
  | .ping => [.int 8]

def statLayout : List Field :=
  [.int 8, .int 8, .int 8, .int 8, .int 8, .int 8, .int 8, .int 8, .int 4,
    .int 4, .int 4]

def entriesLayout : Nat → List Field
  | 0 => []
  | count + 1 => .path :: (statLayout ++ entriesLayout count)

/-- The payload of each response.  A directory starts with the number of its
entries; the client gives up at once on more of them than a vector holds. -/
def responseLayout (p : List Byte) : Procedure → List Field
  | .stat => statLayout
  | .listdir =>
      .int 8 ::
        if maxEntries < announcedAt p 0 then []
        else entriesLayout (announcedAt p 0)
  | .readlink => [.path]
  | .copyFileRange => [.int 8]
  | .open => [.int 8]
  | .read => [.bytes]
  | .write => [.int 8]
  | .ping => [.int 8]
  | _ => []

/-- A reader of a payload with its cursor in it. -/
structure PayloadReader.Valid (p : List Byte) (r : PayloadReader) : Prop where
  buffer_eq : r.buffer = p
  index_le : r.index ≤ p.length

/-- Reading from `r` on went as the walk over the same bytes says. -/
structure Walked {α : Type} (p : List Byte) (r : PayloadReader)
    (result : Except Stop α × PayloadReader) (walk : Walk) : Prop where
  grows : r.reads ⊆ result.2.reads
  valid : ∀ a, result.1 = .ok a → result.2.Valid p
  bad : walk = .bad → ∃ e ∈ result.2.reads, e.Stray p
  short : walk = .short → result.1 = .error .nullopt ∧
    ∀ e ∈ result.2.reads, e ∈ r.reads ∨ e.Inside p ∨ e.Refused
  done : ∀ next, walk = .done next →
    (∃ a, result.1 = .ok a) ∧ result.2.index = next ∧
      ∀ e ∈ result.2.reads, e ∈ r.reads ∨ e.Inside p

section Rules

variable {α β : Type} {p : List Byte} {r : PayloadReader}

theorem Walked.pure (hvalid : r.Valid p) (a : α) :
    Walked p r ((Pure.pure a : Parse α).on r) (.done r.index) where
  grows := fun _ he => he
  valid := fun _ _ => hvalid
  bad := fun hbad => by cases hbad
  short := fun hshort => by cases hshort
  done := fun next hnext => by
    cases hnext
    exact ⟨⟨a, rfl⟩, rfl, fun e he => .inl he⟩

theorem Walked.bind {m : Parse α} {k : α → Parse β} {w : Walk}
    {f : Nat → Walk} (hm : Walked p r (m.on r) w)
    (hk : ∀ a r', m.on r = (.ok a, r') → r'.Valid p →
      Walked p r' ((k a).on r') (f r'.index)) :
    Walked p r ((m >>= k).on r) (w.andThen f) := by
  rw [Parse.on_bind]
  rcases hon : m.on r with ⟨stop | a, r'⟩
  · rw [hon] at hm
    cases w with
    | done next =>
        obtain ⟨⟨a, ha⟩, -⟩ := hm.done next rfl
        cases ha
    | short =>
        obtain ⟨hstop, hreads⟩ := hm.short rfl
        cases hstop
        exact ⟨hm.grows, nofun, nofun, fun _ => ⟨rfl, hreads⟩, nofun⟩
    | bad => exact ⟨hm.grows, nofun, fun _ => hm.bad rfl, nofun, nofun⟩
  · rw [hon] at hm
    have hrest := hk a r' hon (hm.valid a rfl)
    have hgrows : r.reads ⊆ ((k a).on r').2.reads :=
      fun e he => hrest.grows (hm.grows he)
    cases w with
    | done next =>
        obtain ⟨-, hnext, hreads⟩ := hm.done next rfl
        have hnext : r'.index = next := hnext
        rw [hnext] at hrest
        refine ⟨hgrows, hrest.valid, hrest.bad, fun hshort => ?_,
          fun last hlast => ?_⟩
        · obtain ⟨hstop, hshort⟩ := hrest.short hshort
          refine ⟨hstop, fun e he => ?_⟩
          rcases hshort e he with hold | hnew
          · exact (hreads e hold).imp id .inl
          · exact .inr hnew
        · obtain ⟨hok, hlast, hdone⟩ := hrest.done last hlast
          refine ⟨hok, hlast, fun e he => ?_⟩
          rcases hdone e he with hold | hnew
          · exact hreads e hold
          · exact .inr hnew
    | short =>
        obtain ⟨hstop, -⟩ := hm.short rfl
        cases hstop
    | bad =>
        obtain ⟨e, he, hstray⟩ := hm.bad rfl
        exact ⟨hgrows, hrest.valid, fun _ => ⟨e, hrest.grows he, hstray⟩,
          nofun, nofun⟩

/-- One read that passed its bounds check, and what that read was. -/
theorem Walked.advanced {kind : Kind} {size : Nat} {span : Slice}
    {x : Except Stop α} {w : Walk} (hvalid : r.Valid p)
    (hindex : u64 (r.index + size) ≤ p.length)
    (hbad : w = .bad →
      Extent.Stray p ⟨kind, r.index, size, some span, u64 (r.index + size)⟩)
    (hshort : w ≠ .short)
    (hdone : ∀ next, w = .done next → (∃ a, x = .ok a) ∧
      u64 (r.index + size) = next ∧
      Extent.Inside p ⟨kind, r.index, size, some span, u64 (r.index + size)⟩) :
    Walked p r (x, r.advanced kind size span) w where
  grows := fun _ he => List.mem_append_left _ he
  valid := fun _ _ => ⟨hvalid.buffer_eq, hindex⟩
  bad := fun h => ⟨_, List.mem_append_right _ (List.mem_singleton_self _),
    hbad h⟩
  short := fun h => absurd h hshort
  done := fun next h => by
    obtain ⟨hok, hnext, hinside⟩ := hdone next h
    refine ⟨hok, hnext, fun e he => ?_⟩
    rcases List.mem_append.mp he with hold | hnew
    · exact .inl hold
    · rw [List.mem_singleton.mp hnew]
      exact .inr hinside

theorem Walked.refused (kind : Kind) (size : Nat) :
    Walked p r ((.error .nullopt : Except Stop α), r.refused kind size)
      .short where
  grows := fun _ he => List.mem_append_left _ he
  valid := nofun
  bad := nofun
  short := fun _ => by
    refine ⟨rfl, fun e he => ?_⟩
    rcases List.mem_append.mp he with hold | hnew
    · exact .inl hold
    · rw [List.mem_singleton.mp hnew]
      exact .inr (.inr ⟨rfl, rfl⟩)
  done := nofun

/-- The check of a read that takes the sum past `2 ^ 64` wraps around and is
passed. -/
theorem usub_wrapped {index size length : Nat} (hindex : index ≤ length)
    (hlength : length < 2 ^ 63) (hsize : size < 2 ^ 64)
    (hwrap : 2 ^ 64 < index + size) :
    ¬ usub (index + size) 1 ≥ length ∧ u64 (index + size) ≤ length := by
  simp only [usub, u64]
  omega

/-- A read of a declared size.  What it uses of it matters only inside the
payload. -/
theorem Walked.take (hvalid : r.Valid p) (hlength : p.length < 2 ^ 63)
    {kind : Kind} {size count : Nat} (hpos : 0 < r.index + size)
    (hsize : size < 2 ^ 64) (htail : kind.tail ≤ size)
    (hcount : count = size - kind.tail) :
    Walked p r ((take kind size count).on r) (walkPart p r.index size) := by
  have hindex := hvalid.index_le
  obtain ⟨rfl, -⟩ := hvalid
  rw [walkPart]
  split_ifs with hle hsum
  · rw [take_inside hle hpos hlength (by omega)]
    have hnext : u64 (r.index + size) = r.index + size :=
      Nat.mod_eq_of_lt (by omega)
    refine Walked.advanced ⟨rfl, hindex⟩ (by omega) nofun nofun
      fun next hwalk => ?_
    cases hwalk
    exact ⟨⟨_, rfl⟩, hnext, htail, by rw [hcount], hle, hnext⟩
  · rw [take_outside (by omega) hsum]
    exact Walked.refused kind size
  · obtain ⟨hcheck, hnext⟩ :=
      usub_wrapped hindex hlength hsize (by omega)
    have hstray : ∀ span, Extent.Stray r.buffer
        ⟨kind, r.index, size, some span, u64 (r.index + size)⟩ :=
      fun _ => ⟨nofun, fun hinside => hle hinside.2.2.1⟩
    rw [take_on]
    dsimp only
    rw [if_neg hcheck]
    split_ifs <;>
      exact Walked.advanced ⟨rfl, hindex⟩ hnext (fun _ => hstray _) nofun
        nofun

/-- A path of declared length zero gets the rest of the payload. -/
theorem Walked.take_zero (hvalid : r.Valid p) (hlength : p.length < 2 ^ 63)
    (hpos : 0 < r.index) :
    Walked p r ((PayloadReader.take .path 0 (usub 0 1)).on r) .bad := by
  have hindex := hvalid.index_le
  obtain ⟨rfl, -⟩ := hvalid
  have hcheck : ¬ usub (r.index + 0) 1 ≥ r.buffer.length := by
    rw [usub_of_le (by omega) (by omega)]
    omega
  have hnext : u64 (r.index + 0) ≤ r.buffer.length := by
    rw [u64, Nat.mod_eq_of_lt (by omega)]
    omega
  have hstray : ∀ span, Extent.Stray r.buffer
      ⟨.path, r.index, 0, some span, u64 (r.index + 0)⟩ :=
    fun _ => ⟨Option.some_ne_none _,
      fun hinside => by simpa [Kind.tail] using hinside.1⟩
  rw [take_on]
  dsimp only
  rw [if_neg hcheck]
  have hshort : Walk.bad ≠ .short := Walk.noConfusion
  have hdone : ∀ next, Walk.bad ≠ .done next := fun _ => Walk.noConfusion
  split_ifs <;>
    exact Walked.advanced ⟨rfl, hindex⟩ hnext (fun _ => hstray _) hshort
      fun next hbad => absurd hbad (hdone next)

end Rules

/-- Text that reads these fields. -/
def Walks {α : Type} (p : List Byte) (m : Parse α) (fields : List Field) :
    Prop :=
  ∀ r : PayloadReader, r.Valid p → Walked p r (m.on r) (walk p fields r.index)

namespace Walks

variable {α β : Type} {p : List Byte} {m : Parse α} {k : α → Parse β}
  {left right : List Field}

theorem pure (a : α) : Walks p (Pure.pure a) [] :=
  fun _ hvalid => Walked.pure hvalid a

theorem bind (hm : Walks p m left) (hk : ∀ a, Walks p (k a) right) :
    Walks p (m >>= k) (left ++ right) := by
  intro r hvalid
  rw [walk_append]
  exact (hm r hvalid).bind fun a r' _ hvalid' => hk a r' hvalid'

/-- The value of a length, where it was read. -/
theorem readInt_ok {r r' : PayloadReader} {size : UInt64}
    (hvalid : r.Valid p) (hlength : p.length < 2 ^ 63)
    (hread : (PayloadReader.readInt UInt64).on r = (.ok size, r')) :
    size.toNat = announcedAt p r.index ∧ 0 < r'.index := by
  have hindex := hvalid.index_le
  obtain ⟨rfl, -⟩ := hvalid
  have hsize : Integral.size UInt64 = 8 := rfl
  rw [PayloadReader.readInt, Parse.on_bind, hsize] at hread
  by_cases hle : r.index + 8 ≤ r.buffer.length
  · rw [take_inside hle (by omega) hlength (Nat.le_refl _)] at hread
    obtain ⟨hvalue, rfl⟩ := Prod.mk.inj hread
    cases hvalue
    refine ⟨toNat_fromNetBytes ?_, ?_⟩
    · rw [length_slice]
      omega
    · rw [index_advanced hle hlength]
      omega
  · rw [take_outside (by omega) (by omega)] at hread
    cases hread

theorem readInt (hlength : p.length < 2 ^ 63) (I : Type) [Integral I]
    (hsize : Integral.size I < 2 ^ 64) :
    Walks p (PayloadReader.readInt I) [.int (Integral.size I)] := by
  intro r hvalid
  have hpos := Integral.size_pos (I := I)
  refine Walked.bind (Walked.take hvalid hlength (by omega) hsize
    (Nat.zero_le _) rfl) fun bytes r' _ hvalid' => ?_
  exact Walked.pure hvalid' _

/-- A length, and then a read of what it announces. -/
theorem announced (hlength : p.length < 2 ^ 63) {field : Field}
    (m : Nat → Parse α) (f : Nat → Nat → Walk)
    (hfield : ∀ pos, field.walk p pos =
      (walkPart p pos 8).andThen (f (announcedAt p pos)))
    (hm : ∀ r : PayloadReader, r.Valid p → 0 < r.index →
      ∀ size < 2 ^ 64, Walked p r ((m size).on r) (f size r.index)) :
    Walks p (PayloadReader.readInt UInt64 >>= fun size => m size.toNat)
      [field] := by
  intro r hvalid
  have hint := readInt hlength UInt64 (by decide) r hvalid
  rw [walk_singleton] at hint
  rw [walk_singleton, hfield]
  apply Walked.bind hint
  intro size r' hread hvalid'
  obtain ⟨hsize, hpos⟩ := readInt_ok hvalid hlength hread
  rw [← hsize]
  exact hm r' hvalid' hpos _ size.toNat_lt

theorem readBytes (hlength : p.length < 2 ^ 63) :
    Walks p PayloadReader.readBytes [.bytes] := by
  apply announced hlength (fun size => take .bytes size size)
    (fun size next => walkPart p next size) (fun _ => rfl)
  intro r hvalid hpos size hsize
  exact Walked.take hvalid hlength (by omega) hsize (Nat.zero_le _) rfl

theorem readPath (hlength : p.length < 2 ^ 63) :
    Walks p PayloadReader.readPath [.path] := by
  apply announced hlength (fun size => take .path size (usub size 1))
    (fun size next => if size = 0 then .bad else walkPart p next size)
    (fun _ => rfl)
  intro r hvalid hpos size hsize
  split_ifs with hzero
  · subst hzero
    exact Walked.take_zero hvalid hlength hpos
  · have hcount : usub size 1 = size - 1 := usub_of_le (by omega) hsize
    exact Walked.take hvalid hlength (by omega) hsize
      (Nat.one_le_iff_ne_zero.mpr hzero) hcount

theorem readStat (hlength : p.length < 2 ^ 63) :
    Walks p Rpc.readStat statLayout := by
  refine bind (readInt hlength Int64 (by decide)) fun size => ?_
  refine bind (readInt hlength UInt64 (by decide)) fun links => ?_
  refine bind (readInt hlength Int64 (by decide)) fun mtimeSec => ?_
  refine bind (readInt hlength Int64 (by decide)) fun mtimeNsec => ?_
  refine bind (readInt hlength Int64 (by decide)) fun atimeSec => ?_
  refine bind (readInt hlength Int64 (by decide)) fun atimeNsec => ?_
  refine bind (readInt hlength Int64 (by decide)) fun ctimeSec => ?_
  refine bind (readInt hlength Int64 (by decide)) fun ctimeNsec => ?_
  refine bind (readInt hlength UInt32 (by decide)) fun mode => ?_
  refine bind (readInt hlength UInt32 (by decide)) fun uid => ?_
  refine bind (readInt hlength UInt32 (by decide)) fun gid => ?_
  exact pure _

theorem readEntries (hlength : p.length < 2 ^ 63) (count : Nat)
    (buf : List Byte) (slices : List (Slice × Stat)) :
    Walks p (Rpc.readEntries count buf slices) (entriesLayout count) := by
  induction count generalizing buf slices with
  | zero => exact pure _
  | succ count ih =>
      refine bind (readPath hlength) fun path => ?_
      refine bind (readStat hlength) fun stat => ?_
      exact ih _ _

end Walks

/-- All of what was read from `r` on stays inside the payload exactly when the
walk is not a bad one. -/
structure Bounded {α : Type} (p : List Byte) (r : PayloadReader)
    (result : Except Stop α × PayloadReader) (walk : Walk) : Prop where
  grows : r.reads ⊆ result.2.reads
  inside : (∀ e ∈ r.reads, e.Inside p) →
    (StaysInside p result ↔ walk ≠ .bad)

section Rules

variable {α β : Type} {p : List Byte} {r : PayloadReader}

theorem not_staysInside {result : Except Stop α × PayloadReader} {e : Extent}
    (he : e ∈ result.2.reads) (hstray : e.Stray p) :
    ¬ StaysInside p result := by
  intro hstays
  rcases hstays e he with hinside | ⟨hrefused, -⟩
  · exact hstray.2 hinside
  · exact hstray.1 hrefused.1

/-- Text that reads nothing, after the last field. -/
theorem Bounded.last {m : Parse α} {pos : Nat} (hm : (m.on r).2 = r) :
    Bounded p r (m.on r) (.done pos) where
  grows := fun e he => by rwa [hm]
  inside := fun hinside => by
    refine ⟨nofun, fun _ e he => .inl (hinside e ?_)⟩
    rwa [hm] at he

theorem Walked.bounded {m : Parse α} {k : α → Parse β} {w : Walk}
    {f : Nat → Walk} (hm : Walked p r (m.on r) w)
    (hk : ∀ a r', m.on r = (.ok a, r') → r'.Valid p →
      Bounded p r' ((k a).on r') (f r'.index)) :
    Bounded p r ((m >>= k).on r) (w.andThen f) := by
  rw [Parse.on_bind]
  rcases hon : m.on r with ⟨stop | a, r'⟩
  · rw [hon] at hm
    refine ⟨hm.grows, fun hinside => ?_⟩
    cases w with
    | done next =>
        obtain ⟨⟨a, ha⟩, -⟩ := hm.done next rfl
        cases ha
    | short =>
        obtain ⟨hstop, hreads⟩ := hm.short rfl
        refine ⟨nofun, fun _ e he => ?_⟩
        rcases hreads e he with hold | hnew | hrefused
        · exact .inl (hinside e hold)
        · exact .inl hnew
        · cases hstop
          exact .inr ⟨hrefused, rfl⟩
    | bad =>
        obtain ⟨e, he, hstray⟩ := hm.bad rfl
        exact iff_of_false (not_staysInside he hstray) fun hbad => hbad rfl
  · rw [hon] at hm
    have hrest := hk a r' hon (hm.valid a rfl)
    refine ⟨fun e he => hrest.grows (hm.grows he), fun hinside => ?_⟩
    cases w with
    | done next =>
        obtain ⟨-, hnext, hreads⟩ := hm.done next rfl
        have hnext : r'.index = next := hnext
        rw [hnext] at hrest
        apply hrest.inside
        intro e he
        exact (hreads e he).elim (hinside e) id
    | short =>
        obtain ⟨hstop, -⟩ := hm.short rfl
        cases hstop
    | bad =>
        obtain ⟨e, he, hstray⟩ := hm.bad rfl
        exact iff_of_false (not_staysInside (hrest.grows he) hstray)
          fun hbad => hbad rfl

end Rules

/-- Text that reads these fields and then nothing more. -/
def Bounds {α : Type} (p : List Byte) (m : Parse α) (fields : List Field) :
    Prop :=
  ∀ r : PayloadReader, r.Valid p →
    Bounded p r (m.on r) (walk p fields r.index)

namespace Bounds

variable {α β : Type} {p : List Byte} {m : Parse α} {k : α → Parse β}
  {left right : List Field}

theorem last (hm : ∀ r, (m.on r).2 = r) : Bounds p m [] :=
  fun r _ => Bounded.last (hm r)

theorem bind (hm : Walks p m left) (hk : ∀ a, Bounds p (k a) right) :
    Bounds p (m >>= k) (left ++ right) := by
  intro r hvalid
  rw [walk_append]
  exact (hm r hvalid).bounded fun a r' _ hvalid' => hk a r' hvalid'

theorem map (hm : Walks p m left) (f : α → β) :
    Bounds p (m >>= fun a => pure (f a)) left := by
  have hbind := bind hm fun a => last (p := p) (m := pure (f a)) fun _ => rfl
  rwa [List.append_nil] at hbind

theorem requestOf (hlength : p.length < 2 ^ 63) (outBuf : List Byte)
    (proc : Procedure) :
    Bounds p (Rpc.requestOf outBuf proc) (requestLayout proc) := by
  have hpath := Walks.readPath hlength
  have hu64 := Walks.readInt hlength UInt64 (by decide)
  have hi64 := Walks.readInt hlength Int64 (by decide)
  have hu32 := Walks.readInt hlength UInt32 (by decide)
  cases proc with
  | stat => exact map hpath _
  | listdir => exact map hpath _
  | readlink => exact map hpath _
  | mknod => exact bind hpath fun _ => bind hu32 fun _ => map hu64 _
  | mkdir => exact bind hpath fun _ => map hu32 _
  | unlink => exact map hpath _
  | rmdir => exact map hpath _
  | rename => exact bind hpath fun _ => bind hpath fun _ => map hu32 _
  | truncate => exact bind hpath fun _ => map hi64 _
  | utimens =>
      exact bind hpath fun _ => bind hi64 fun _ => bind hi64 fun _ =>
        bind hi64 fun _ => map hi64 _
  | copyFileRange =>
      exact bind hpath fun _ => bind hi64 fun _ => bind hpath fun _ =>
        bind hi64 fun _ => map hu64 _
  | «open» =>
      have hmode : Walks p PayloadReader.readOpenMode [.int 1] :=
        Walks.bind (Walks.readInt hlength UInt8 (by decide)) fun _ =>
          Walks.pure _
      exact bind hpath fun _ => map hmode _
  | close => exact map hu64 _
  | read =>
      refine bind hu64 fun _ => bind hi64 fun _ => bind hu64 fun _ =>
        last fun r => ?_
      split_ifs <;> rfl
  | write =>
      exact bind hu64 fun _ => bind hi64 fun _ =>
        map (Walks.readBytes hlength) _
  | ping => exact map hu64 _

theorem responseOf (hlength : p.length < 2 ^ 63) (req : Request) :
    Bounded p (.create p) ((Rpc.responseOf req).on (.create p))
      (walk p (responseLayout p req.proc) 0) := by
  have hvalid : (PayloadReader.create p).Valid p := ⟨rfl, Nat.zero_le _⟩
  have hu64 := Walks.readInt hlength UInt64 (by decide)
  cases req with
  | listdir path buf =>
      have hcount := hu64 _ hvalid
      rw [walk_singleton] at hcount
      rw [Request.proc, responseLayout, walk]
      apply hcount.bounded
      intro size r' hread hvalid'
      obtain ⟨hsize, -⟩ := Walks.readInt_ok hvalid hlength hread
      have hsize : announcedAt p 0 = size.toNat := hsize.symm
      rw [hsize]
      split_ifs with hlarge
      · exact Bounded.last rfl
      · exact map (Walks.readEntries hlength _ _ _) _ r' hvalid'
  | stat path => exact map (Walks.readStat hlength) _ _ hvalid
  | readlink path buf => exact map (Walks.readPath hlength) _ _ hvalid
  | copyFileRange inPath inOffset outPath outOffset size =>
      exact map hu64 _ _ hvalid
  | «open» path mode => exact map hu64 _ _ hvalid
  | read fd offset out => exact map (Walks.readBytes hlength) _ _ hvalid
  | write fd offset input => exact map hu64 _ _ hvalid
  | ping num => exact map hu64 _ _ hvalid
  | _ => exact Bounded.last rfl

end Bounds

theorem parse_staysInside_iff (p : List Byte) (hlength : p.length ≤ maxSize) :
    (∀ outBuf proc, StaysInside p (parseRequest p outBuf proc) ↔
      walk p (requestLayout proc) 0 ≠ .bad) ∧
    ∀ req, StaysInside p (parseResponse p req) ↔
      walk p (responseLayout p req.proc) 0 ≠ .bad := by
  have hlt : p.length < 2 ^ 63 := Nat.lt_of_le_of_lt hlength (by decide)
  constructor
  · intro outBuf proc
    exact (Bounds.requestOf hlt outBuf proc _ ⟨rfl, Nat.zero_le _⟩).inside
      nofun
  · intro req
    exact (Bounds.responseOf hlt req).inside nofun

/-- The request to unlink a path of length one. -/
theorem parse_staysInside_one_path :
    StaysInside (toNetBytes (1 : UInt64) ++ [0])
      (parseRequest (toNetBytes (1 : UInt64) ++ [0]) [] .unlink) :=
  ((parse_staysInside_iff (toNetBytes (1 : UInt64) ++ [0])
    (by decide)).1 [] .unlink).mpr (by decide)

namespace ZeroLength

/-- The payload of an `unlink` request whose path has declared length zero,
with one more byte after it. -/
def payload : List Byte :=
  [0, 0, 0, 0, 0, 0, 0, 0, 97]

/-- The path is then the rest of the payload. -/
theorem not_staysInside_unlink :
    payload.length ≤ maxSize ∧
    (parseRequest payload [] .unlink).1 = .ok (.unlink [97]) ∧
    ¬ StaysInside payload (parseRequest payload [] .unlink) := by
  refine ⟨by decide, by decide, fun hstays => ?_⟩
  have hread : (⟨.path, 8, 0, some ⟨8, 1⟩, 8⟩ : Extent) ∈
      (parseRequest payload [] .unlink).2.reads := by
    decide +kernel
  apply not_staysInside hread _ hstays
  exact ⟨nofun, fun hinside => absurd hinside.1 (by decide)⟩

end ZeroLength

end Rpc

end Madbfs
