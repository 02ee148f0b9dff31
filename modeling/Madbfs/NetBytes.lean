/-
Fixed-width integers in network order.  An integer type is given by its size
in bytes and by the bit pattern of each value; the pattern is written with the
most significant byte first.
-/
import Mathlib.Data.List.Basic
import Mathlib.Data.UInt
import Mathlib.Tactic.Ring

namespace Madbfs

namespace NetBytes

/-- The `n` low bytes of a number, the most significant one first. -/
def bigEndian : Nat → Nat → List UInt8
  | 0, _ => []
  | n + 1, v => UInt8.ofNat (v / 256 ^ n) :: bigEndian n v

/-- The number that a byte string spells. -/
def ofBigEndian : List UInt8 → Nat
  | [] => 0
  | byte :: rest => byte.toNat * 256 ^ rest.length + ofBigEndian rest

@[simp] theorem length_bigEndian (n v : Nat) : (bigEndian n v).length = n := by
  induction n with
  | zero => rfl
  | succ n ih => simp [bigEndian, ih]

theorem ofBigEndian_bigEndian (n v : Nat) :
    ofBigEndian (bigEndian n v) = v % 256 ^ n := by
  induction n with
  | zero => simp [bigEndian, ofBigEndian, Nat.mod_one]
  | succ n ih =>
      have hbyte : (UInt8.ofNat (v / 256 ^ n)).toNat = v / 256 ^ n % 256 := by
        simp
      rw [bigEndian, ofBigEndian, ih, length_bigEndian, hbyte, Nat.pow_succ,
        Nat.mod_mul, Nat.mul_comm, Nat.add_comm]

theorem ofBigEndian_lt (bytes : List UInt8) :
    ofBigEndian bytes < 256 ^ bytes.length := by
  induction bytes with
  | nil => simp [ofBigEndian]
  | cons byte rest ih =>
      have hbyte : byte.toNat + 1 ≤ 256 := byte.toNat_lt
      have hmul := Nat.mul_le_mul_right (256 ^ rest.length) hbyte
      simp only [ofBigEndian, List.length_cons, Nat.pow_succ]
      rw [Nat.succ_mul] at hmul
      omega

/-- `std::integral`: the size of the type, and the bit patterns of its
values. -/
class Integral (I : Type) where
  size : Nat
  size_pos : 0 < size
  toBits : I → Nat
  ofBits : Nat → I
  toBits_lt : ∀ value, toBits value < 256 ^ size
  ofBits_toBits : ∀ value, ofBits (toBits value) = value

instance : Integral UInt8 where
  size := 1
  size_pos := by decide
  toBits := UInt8.toNat
  ofBits := UInt8.ofNat
  toBits_lt := UInt8.toNat_lt
  ofBits_toBits := fun _ => UInt8.ofNat_toNat

instance : Integral UInt32 where
  size := 4
  size_pos := by decide
  toBits := UInt32.toNat
  ofBits := UInt32.ofNat
  toBits_lt := UInt32.toNat_lt
  ofBits_toBits := fun _ => UInt32.ofNat_toNat

instance : Integral UInt64 where
  size := 8
  size_pos := by decide
  toBits := UInt64.toNat
  ofBits := UInt64.ofNat
  toBits_lt := UInt64.toNat_lt
  ofBits_toBits := fun _ => UInt64.ofNat_toNat

instance : Integral Int32 where
  size := 4
  size_pos := by decide
  toBits := fun value => value.toUInt32.toNat
  ofBits := fun bits => (UInt32.ofNat bits).toInt32
  toBits_lt := fun value => value.toUInt32.toNat_lt
  ofBits_toBits := fun value => by simp

instance : Integral Int64 where
  size := 8
  size_pos := by decide
  toBits := fun value => value.toUInt64.toNat
  ofBits := fun bits => (UInt64.ofNat bits).toInt64
  toBits_lt := fun value => value.toUInt64.toNat_lt
  ofBits_toBits := fun value => by simp

variable {I : Type} [Integral I]

/-- `to_net_bytes`. -/
def toNetBytes (value : I) : List UInt8 :=
  bigEndian (Integral.size I) (Integral.toBits value)

/-- `from_net_bytes`. -/
def fromNetBytes (I : Type) [Integral I] (bytes : List UInt8) : I :=
  Integral.ofBits (ofBigEndian bytes)

@[simp] theorem length_toNetBytes (value : I) :
    (toNetBytes value).length = Integral.size I :=
  length_bigEndian _ _

theorem fromNetBytes_toNetBytes (value : I) :
    fromNetBytes I (toNetBytes value) = value := by
  rw [fromNetBytes, toNetBytes, ofBigEndian_bigEndian,
    Nat.mod_eq_of_lt (Integral.toBits_lt value), Integral.ofBits_toBits]

theorem toNat_fromNetBytes {bytes : List UInt8} (hlength : bytes.length = 8) :
    (fromNetBytes UInt64 bytes).toNat = ofBigEndian bytes := by
  have hlt := ofBigEndian_lt bytes
  rw [hlength] at hlt
  exact UInt64.toNat_ofNat_of_lt' hlt

end NetBytes

end Madbfs
