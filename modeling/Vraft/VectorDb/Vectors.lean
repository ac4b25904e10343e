import Vraft.VectorDb.Records

/-!
# Vectors

`Vec` and `VecValue` of `vectordb/vengine.cc`: the components of a vector behind their
number, and an attached string.  A component is kept as the bits of its `float`.
-/

namespace Vraft.VectorDb

open Raw

/-- The bits of a `float`. -/
abbrev Float32Bits := UInt32

/-- A vector and a string that is attached to it. -/
structure VecValue where
  vec : List Float32Bits
  attachValue : Bytes
  deriving DecidableEq

/-- `static_cast<int32_t>(data.size())`. -/
def dimOf (vec : List Float32Bits) : Int32 :=
  Int32.ofInt vec.length

namespace VecValue

/-- `VecValue::MaxBytes`. -/
def maxBytes (vv : VecValue) : ℕ :=
  (4 + 4 * vv.vec.length) + 2 * 4 + vv.attachValue.length

/-- `VecValue::ToString`. -/
def toBytes (vv : VecValue) : Bytes :=
  encodeFixed32 (vv.vec.length % 2 ^ 32) ++
    (vv.vec.flatMap (fun f32 => encodeFixed32 f32.toNat) ++ encodeString2 vv.attachValue)

/-- `VecValue::FromString`. -/
def decoder (len : ℤ) : Decoder VecValue := do
  let u32 ← readFixed32
  let vec ← readMany readFixed32 u32.toNat
  let attachValue ← readText len
  pure ⟨vec, attachValue⟩

/-! ## Values are read back -/

theorem length_flatMap_fixed32 (vec : List Float32Bits) :
    (vec.flatMap fun f32 => encodeFixed32 f32.toNat).length = 4 * vec.length := by
  induction vec with
  | nil => rfl
  | cons f32 vec ih =>
      rw [List.flatMap_cons, List.length_append, encodeFixed32_length, ih, List.length_cons]
      omega

theorem readComponents_holds {mem : Memory} {cursor : Cursor} {vec : List Float32Bits}
    (holds : mem.Holds cursor.pos (vec.flatMap fun f32 => encodeFixed32 f32.toNat)) :
    ∃ moved, readMany readFixed32 vec.length mem cursor = .ok (vec, moved) ∧
      moved.pos = cursor.pos + 4 * vec.length := by
  rw [← length_flatMap_fixed32]
  refine readMany_holds (fun f32 _ cursor component _ => ?_) holds le_rfl
  rw [encodeFixed32_length]
  exact readFixed32_holds component

/-- A string of any length in front of the limit. -/
theorem readText_last {mem : Memory} {cursor : Cursor} {text : Bytes} {len : ℕ}
    (small : 1 + text.length < 2 ^ 31) (holds : mem.Holds cursor.pos (encodeString2 text))
    (last : cursor.pos + (encodeString2 text).length = len) :
    ∃ moved, readText len mem cursor = .ok (text, moved) := by
  have length := length_encodeString2_le_add text
  have rest : (len : ℤ) - cursor.pos = ((encodeString2 text).length : ℕ) := by omega
  unfold readText
  rw [rest, readString2_holds small (by omega) holds le_rfl]
  exact ⟨_, rfl⟩

/-- The attached string may have any length, as nothing is read behind it. -/
theorem fromString_toBytes {vv : VecValue} (fits : vv.maxBytes < 2 ^ 31) (beyond : Memory) :
    fromString decoder vv.toBytes beyond = .ok vv := by
  obtain ⟨vec, attachValue⟩ := vv
  change 4 + 4 * vec.length + 2 * 4 + attachValue.length < 2 ^ 31 at fits
  have small : vec.length < 2 ^ 32 := by omega
  have bytes : toBytes ⟨vec, attachValue⟩ = encodeFixed32 vec.length ++
      (vec.flatMap (fun f32 => encodeFixed32 f32.toNat) ++ encodeString2 attachValue) := by
    rw [toBytes, Nat.mod_eq_of_lt small]
  have size : (toBytes ⟨vec, attachValue⟩).length =
      4 + 4 * vec.length + (encodeString2 attachValue).length := by
    rw [bytes, List.length_append, List.length_append, encodeFixed32_length,
      length_flatMap_fixed32, add_assoc]
  have whole := Memory.follow_holds (toBytes ⟨vec, attachValue⟩) beyond
  rw [fromString, size]
  generalize Memory.follow (toBytes ⟨vec, attachValue⟩) beyond = mem at whole
  rw [bytes, Memory.holds_append, encodeFixed32_length, Memory.holds_append,
    length_flatMap_fixed32, Nat.zero_add] at whole
  obtain ⟨number, values, text⟩ := whole
  have count : (readFixed32 : Decoder UInt32) mem Cursor.start =
      .ok (UInt32.ofNat vec.length, Cursor.start.advance 4) := by
    refine readFixed32_holds ?_
    rw [UInt32.toNat_ofNat_of_lt' small]
    exact number
  have start : (Cursor.start.advance 4).pos = 4 := rfl
  obtain ⟨moved, components, pos⟩ := readComponents_holds (start.symm ▸ values)
  rw [start] at pos
  have last : moved.pos + (encodeString2 attachValue).length =
      4 + 4 * vec.length + (encodeString2 attachValue).length := by rw [pos]
  obtain ⟨final, attached⟩ := readText_last (by omega) (pos.symm ▸ text) last
  unfold decoder
  rw [Reader.bind_of_ok count, UInt32.toNat_ofNat_of_lt' small, Reader.bind_of_ok components,
    Reader.bind_of_ok attached]
  rfl

end VecValue

end Vraft.VectorDb
