/-
Rules for the payload reader.  A read whose bytes lie in the payload takes
exactly them; a read past the end is refused, unless the sum in its bounds
check wraps around.  What a builder has written is read back field by field.
-/
import Madbfs.Rpc.Codec

namespace Madbfs

namespace Rpc

open Bytes NetBytes PayloadReader

namespace Parse

variable {α β : Type}

theorem on_bind (m : Parse α) (k : α → Parse β) (r : PayloadReader) :
    (m >>= k).on r = match m.on r with
      | (.ok a, r') => (k a).on r'
      | (.error stop, r') => (.error stop, r') := by
  have hrun : StateT.run (ExceptT.run m) r = m.on r := rfl
  rw [Parse.on, ExceptT.run_bind, StateT.run_bind, hrun]
  rcases m.on r with ⟨stop | a, r'⟩ <;> rfl

theorem on_tryCatch (m : Parse α) (handler : Stop → Parse α)
    (r : PayloadReader) :
    (tryCatch m handler : Parse α).on r = match m.on r with
      | (.ok a, r') => (.ok a, r')
      | (.error stop, r') => (handler stop).on r' := by
  have hrun : StateT.run (ExceptT.run m) r = m.on r := rfl
  rw [Parse.on, ExceptT.run_tryCatch, StateT.run_bind, hrun]
  rcases m.on r with ⟨stop | a, r'⟩ <;> rfl

end Parse

namespace PayloadReader

variable {r : PayloadReader} {kind : Kind} {size count : Nat}

theorem take_on (r : PayloadReader) (kind : Kind) (size count : Nat) :
    (take kind size count).on r =
      let span := subspan r.buffer.length r.index count
      if usub (r.index + size) 1 ≥ r.buffer.length then
        (.error .nullopt, r.refused kind size)
      else if span.offset + span.size ≤ r.buffer.length then
        (.ok (span.view r.buffer), r.advanced kind size span)
      else (.error .undefined, r.advanced kind size span) :=
  rfl

/-- A read inside the payload. -/
theorem take_inside (hle : r.index + size ≤ r.buffer.length)
    (hpos : 0 < r.index + size) (hlt : r.buffer.length < 2 ^ 63)
    (hcount : count ≤ size) :
    (take kind size count).on r =
      (.ok (slice r.buffer r.index count),
        r.advanced kind size ⟨r.index, count⟩) := by
  have hcheck : usub (r.index + size) 1 = r.index + size - 1 :=
    usub_of_le hpos (by omega)
  have hspan : subspan r.buffer.length r.index count = ⟨r.index, count⟩ := by
    rw [subspan, if_neg (by omega)]
  rw [take_on, hcheck, hspan]
  dsimp only
  rw [if_neg (by omega), if_pos (by omega)]
  rfl

/-- A read past the end is refused if the sum does not wrap. -/
theorem take_outside (hgt : r.buffer.length < r.index + size)
    (hwrap : r.index + size ≤ 2 ^ 64) :
    (take kind size count).on r = (.error .nullopt, r.refused kind size) := by
  have hcheck : usub (r.index + size) 1 = r.index + size - 1 := by
    simp only [usub, u64]
    omega
  rw [take_on, hcheck]
  dsimp only
  rw [if_pos (by omega)]

theorem index_advanced (hle : r.index + size ≤ r.buffer.length)
    (hlt : r.buffer.length < 2 ^ 63) (kind : Kind) (span : Slice) :
    (r.advanced kind size span).index = r.index + size :=
  Nat.mod_eq_of_lt (by omega)

/-- The reader stands in front of these bytes of a payload that a span can
have. -/
structure At (r : PayloadReader) (rest : List Byte) : Prop where
  index_le : r.index ≤ r.buffer.length
  length_lt : r.buffer.length < 2 ^ 63
  drop_eq : r.buffer.drop r.index = rest

theorem at_create {payload : List Byte} (hlt : payload.length < 2 ^ 63) :
    (PayloadReader.create payload).At payload :=
  ⟨Nat.zero_le _, hlt, rfl⟩

theorem At.length_le {bytes rest : List Byte} (hat : r.At (bytes ++ rest)) :
    r.index + bytes.length ≤ r.buffer.length := by
  have hindex := hat.index_le
  have hlength := congrArg List.length hat.drop_eq
  rw [List.length_drop, List.length_append] at hlength
  omega

/-- Taking the bytes in front leaves the reader in front of the rest. -/
theorem At.take (kind : Kind) {bytes rest : List Byte}
    (hat : r.At (bytes ++ rest)) (hsize : bytes.length = size)
    (hpos : 0 < r.index + size) (hcount : count ≤ size) :
    ∃ r', (take kind size count).on r = (.ok (bytes.take count), r') ∧
      r'.At rest ∧ 0 < r'.index := by
  have hle := hat.length_le
  rw [hsize] at hle
  have hindex := index_advanced hle hat.length_lt kind ⟨r.index, count⟩
  have hbytes : slice r.buffer r.index count = bytes.take count := by
    rw [slice, hat.drop_eq, List.take_append_of_le_length (by omega)]
  refine ⟨r.advanced kind size ⟨r.index, count⟩, ?_,
    ⟨?_, hat.length_lt, ?_⟩, ?_⟩
  · rw [take_inside hle hpos hat.length_lt hcount, hbytes]
  · rw [hindex]
    exact hle
  · rw [hindex, ← List.drop_drop]
    change (r.buffer.drop r.index).drop size = rest
    rw [hat.drop_eq, ← hsize, List.drop_left]
  · rw [hindex]
    exact hpos

theorem At.readInt {I : Type} [Integral I] {value : I} {rest : List Byte}
    (hat : r.At (toNetBytes value ++ rest)) :
    ∃ r', (readInt I).on r = (.ok value, r') ∧ r'.At rest ∧ 0 < r'.index := by
  have hpos := Integral.size_pos (I := I)
  obtain ⟨r', htake, hat', hindex⟩ := hat.take .int
    (length_toNetBytes value) (by omega) (Nat.le_refl _)
  have hbytes : (toNetBytes value).take (Integral.size I) =
      toNetBytes value :=
    List.take_of_length_le (by simp)
  refine ⟨r', ?_, hat', hindex⟩
  rw [PayloadReader.readInt, Parse.on_bind, htake, hbytes]
  change (Except.ok (fromNetBytes I (toNetBytes value)), r') = _
  rw [fromNetBytes_toNetBytes]

end PayloadReader

/-- Text that reads exactly these bytes, whatever follows them, and gives this
value. -/
def Takes {α : Type} (m : Parse α) (bytes : List Byte) (a : α) : Prop :=
  ∀ (r : PayloadReader) (rest : List Byte), r.At (bytes ++ rest) →
    ∃ r', m.on r = (.ok a, r') ∧ r'.At rest

namespace Takes

variable {α β I : Type} [Integral I] {m : Parse α} {k : α → Parse β}
  {left right : List Byte} {a : α} {b : β}

theorem pure (a : α) : Takes (Pure.pure a) [] a :=
  fun r _ hat => ⟨r, rfl, hat⟩

theorem bind (hm : Takes m left a) (hk : Takes (k a) right b) :
    Takes (m >>= k) (left ++ right) b := by
  intro r rest hat
  rw [List.append_assoc] at hat
  obtain ⟨r₁, hm, hat₁⟩ := hm r _ hat
  obtain ⟨r₂, hk, hat₂⟩ := hk r₁ _ hat₁
  refine ⟨r₂, ?_, hat₂⟩
  rw [Parse.on_bind, hm]
  exact hk

/-- The last read, and text that reads nothing. -/
theorem last (hm : Takes m left a) (hk : Takes (k a) [] b) :
    Takes (m >>= k) left b := by
  have hbind := hm.bind hk
  rwa [List.append_nil] at hbind

/-- The last read, and a value computed from it. -/
theorem map (hm : Takes m left a) (f : α → β) :
    Takes (m >>= fun a => Pure.pure (f a)) left (f a) :=
  hm.last (pure (f a))

theorem functor (hm : Takes m left a) (f : α → β) :
    Takes (f <$> m) left (f a) :=
  hm.map f

theorem tryCatch (hm : Takes m left a) (handler : Stop → Parse α) :
    Takes (MonadExcept.tryCatch m handler) left a := by
  intro r rest hat
  obtain ⟨r', hm, hat'⟩ := hm r rest hat
  refine ⟨r', ?_, hat'⟩
  rw [Parse.on_tryCatch, hm]

theorem readInt (value : I) :
    Takes (PayloadReader.readInt I) (toNetBytes value) value := by
  intro r rest hat
  obtain ⟨r', hread, hat', -⟩ := hat.readInt
  exact ⟨r', hread, hat'⟩

/-- A length, and the bytes it announces, of which `count` are used. -/
theorem announced (kind : Kind) (bytes : List Byte) (count : Nat)
    (f : Nat → Nat) (hf : bytes.length < 2 ^ 63 → f bytes.length = count)
    (hcount : count ≤ bytes.length) :
    Takes (PayloadReader.readInt UInt64 >>= fun size =>
        take kind size.toNat (f size.toNat))
      (toNetBytes (UInt64.ofNat bytes.length) ++ bytes)
      (bytes.take count) := by
  intro r rest hat
  have hle := hat.length_le
  have hlt := hat.length_lt
  rw [List.length_append] at hle
  have hsize : (UInt64.ofNat bytes.length).toNat = bytes.length :=
    UInt64.toNat_ofNat_of_lt' (Nat.lt_trans (by omega : _ < 2 ^ 63) (by decide))
  rw [List.append_assoc] at hat
  obtain ⟨r₁, hint, hat₁, hpos⟩ := hat.readInt
  obtain ⟨r₂, htake, hat₂, -⟩ := hat₁.take kind rfl (by omega) hcount
  refine ⟨r₂, ?_, hat₂⟩
  rw [Parse.on_bind, hint]
  dsimp only
  rw [hsize, hf (by omega)]
  exact htake

theorem readBytes (bytes : List Byte) :
    Takes PayloadReader.readBytes
      (toNetBytes (UInt64.ofNat bytes.length) ++ bytes) bytes := by
  have htakes := announced .bytes bytes bytes.length (fun size => size)
    (fun _ => rfl) (Nat.le_refl _)
  rwa [List.take_length] at htakes

theorem readPath (path : List Byte) :
    Takes PayloadReader.readPath
      (toNetBytes (UInt64.ofNat (path.length + 1)) ++ (path ++ [0])) path := by
  have hlength : (path ++ [0]).length = path.length + 1 := by simp
  have htakes := announced .path (path ++ [0]) path.length
    (fun size => usub size 1)
    (fun hlt => by
      rw [hlength] at hlt ⊢
      exact usub_of_le (by omega) (by omega))
    (by omega)
  rwa [hlength, List.take_left] at htakes

theorem readId (id : Id) :
    Takes PayloadReader.readId (toNetBytes id.inner) id :=
  (readInt id.inner).map Id.mk

theorem readOpenMode (mode : OpenMode) :
    Takes PayloadReader.readOpenMode (toNetBytes mode.value) mode :=
  (readInt mode.value).map OpenMode.mk

theorem readProcedure (proc : Procedure) :
    Takes PayloadReader.readProcedure (toNetBytes proc.toByte) proc := by
  intro r rest hat
  obtain ⟨r', hread, hat', -⟩ := hat.readInt
  refine ⟨r', ?_, hat'⟩
  rw [PayloadReader.readProcedure, Parse.on_bind, hread]
  dsimp only
  rw [Procedure.ofByte_toByte]
  rfl

/-- Text that takes a whole buffer. -/
theorem on_create {bytes : List Byte} (hm : Takes m bytes a)
    (hlt : bytes.length < 2 ^ 63) : (m.on (.create bytes)).1 = .ok a := by
  have hat := at_create hlt
  rw [← List.append_nil bytes] at hat
  obtain ⟨r', hm, -⟩ := hm _ _ hat
  rw [List.append_nil] at hm
  rw [hm]

end Takes

end Rpc

end Madbfs
