import Vraft.VectorDb.KeyIds

/-!
# Vectors, objects and parameters of indices as bytes

`Vec`, `VecValue` and `VecObj` of `vectordb/vengine.cc` and `VIndexParam` of
`vectordb/vindex.cc`, with the number of bytes that their decoders return.  A string of 128
bytes or more is followed by fields that are looked for too early, and even the last one
of a record is counted with a byte less than it has.
-/

namespace Vraft.VectorDb

open Raw

/-! ## Encodings -/

namespace Vec

/-- `Vec::MaxBytes`. -/
def maxBytes (vec : List Float32Bits) : ℕ :=
  4 + 4 * vec.length

/-- The number of components, and the components. -/
def toBytes (vec : List Float32Bits) : Bytes :=
  encodeFixed32 (vec.length % 2 ^ 32) ++ vec.flatMap fun f32 => encodeFixed32 f32.toNat

/-- `Vec::FromString`. -/
def decoder (_len : ℤ) : Decoder (List Float32Bits) := do
  let u32 ← readFixed32
  readMany readFixed32 u32.toNat

end Vec

namespace VecObj

/-- `VecObj::MaxBytes`. -/
def maxBytes (vo : VecObj) : ℕ :=
  2 * 4 + vo.key.length + vo.vv.maxBytes

/-- The key, and the value. -/
def toBytes (vo : VecObj) : Bytes :=
  encodeString2 vo.key ++ vo.vv.toBytes

/-- `VecObj::FromString`. -/
def decoder (len : ℤ) : Decoder VecObj := do
  let key ← readText len
  let vv ← VecValue.decoder len
  pure ⟨key, vv⟩

end VecObj

/-- The number of a kind in the enumeration. -/
def VIndexType.toU8 : VIndexType → UInt8
  | .annoy => 0

/-- The number of a distance in the enumeration. -/
def DistanceType.toU8 : DistanceType → UInt8
  | .cosine => 0
  | .innerProduct => 1
  | .euclidean => 2

/-- `U82VIndexType`. -/
def u8ToVIndexType (u8 : UInt8) : Decoder VIndexType :=
  if u8 = 0 then pure .annoy else Reader.fail .indexType

/-- `U82DistanceType`. -/
def u8ToDistanceType (u8 : UInt8) : Decoder DistanceType :=
  if u8 = 0 then pure .cosine
  else if u8 = 1 then pure .innerProduct
  else if u8 = 2 then pure .euclidean
  else Reader.fail .distanceType

namespace VIndexParam

/-- `VIndexParam::MaxBytes`. -/
def maxBytes (param : VIndexParam) : ℕ :=
  2 * 4 + param.path.length + 8 + 4 + 1 + 1 + 4

/-- `VIndexParam::ToString`. -/
def toBytes (param : VIndexParam) : Bytes :=
  encodeString2 param.path ++ (encodeFixed64 param.timestamp.toNat ++ (encodeInt32 param.dim ++
    ([param.indexType.toU8] ++ ([param.distanceType.toU8] ++ encodeInt32 param.annoyTreeNum))))

/-- `VIndexParam::FromString`, with the asserts on the types. -/
def decoder (len : ℤ) : Decoder VIndexParam := do
  let path ← readText len
  let timestamp ← readFixed64
  let dim ← readInt32
  let u8 ← readFixed8
  let indexType ← u8ToVIndexType u8
  let u8 ← readFixed8
  let distanceType ← u8ToDistanceType u8
  let annoyTreeNum ← readInt32
  pure ⟨path, timestamp, dim, indexType, distanceType, annoyTreeNum⟩

end VIndexParam

/-- A fresh object after `FromString`, and the number of bytes that is returned. -/
def decode {α : Type} (decoder : ℤ → Decoder α) (value : Bytes) (beyond : Memory) :
    Except MetadataFault (α × ℕ) :=
  (decoder value.length (Memory.follow value beyond) Cursor.start).map fun (object, cursor) =>
    (object, cursor.pos)

/-- `FromString` restores what `ToString` has written and returns the same number. -/
def Survives {α : Type} (maxBytes : ℕ) (bytes : Bytes) (decoder : ℤ → Decoder α) (object : α) :
    Prop :=
  ∃ value, toString maxBytes bytes = .ok value ∧
    ∀ beyond, decode decoder value beyond = .ok (object, value.length)

/-! ## Lengths -/

theorem length_encodeString2_eq {text : Bytes} (small : text.length < 2 ^ 32) :
    (encodeString2 text).length = (encodeVarint32 text.length).length + text.length := by
  rw [encodeString2, List.length_append, Nat.mod_eq_of_lt small]

theorem length_lt_encodeString2 {text : Bytes} (small : text.length < 2 ^ 32) :
    text.length < (encodeString2 text).length := by
  rw [length_encodeString2_eq small]
  exact Nat.lt_add_of_pos_left (length_encodeVarint32_pos _)

/-- A string is short if its length takes one byte. -/
theorem length_lt_of_le {text : Bytes} (small : text.length < 2 ^ 32)
    (le : (encodeString2 text).length ≤ 1 + text.length) : text.length < 128 := by
  rw [← length_encodeVarint32_eq_one_iff]
  have positive := length_encodeVarint32_pos text.length
  rw [length_encodeString2_eq small] at le
  omega

theorem Vec.length_toBytes (vec : List Float32Bits) : (Vec.toBytes vec).length = Vec.maxBytes vec := by
  rw [Vec.toBytes, List.length_append, encodeFixed32_length, VecValue.length_flatMap_fixed32,
    Vec.maxBytes]

theorem VecValue.toBytes_eq (vv : VecValue) :
    vv.toBytes = Vec.toBytes vv.vec ++ encodeString2 vv.attachValue := by
  rw [VecValue.toBytes, Vec.toBytes, List.append_assoc]

theorem VecValue.length_toBytes (vv : VecValue) :
    vv.toBytes.length = 4 + 4 * vv.vec.length + (encodeString2 vv.attachValue).length := by
  rw [VecValue.toBytes_eq, List.length_append, Vec.length_toBytes, Vec.maxBytes]

theorem VecValue.length_toBytes_le (vv : VecValue) : vv.toBytes.length ≤ vv.maxBytes := by
  have text := length_encodeString2_le_add vv.attachValue
  rw [VecValue.length_toBytes, VecValue.maxBytes]
  omega

theorem VecObj.length_toBytes_le (vo : VecObj) : vo.toBytes.length ≤ vo.maxBytes := by
  have key := length_encodeString2_le_add vo.key
  have vv := vo.vv.length_toBytes_le
  rw [VecObj.toBytes, List.length_append, VecObj.maxBytes]
  omega

theorem VIndexParam.length_toBytes (param : VIndexParam) :
    param.toBytes.length = (encodeString2 param.path).length + 18 := by
  simp only [toBytes, List.length_append, encodeFixed64_length, length_encodeInt32,
    List.length_singleton]

theorem VIndexParam.length_toBytes_le (param : VIndexParam) :
    param.toBytes.length ≤ param.maxBytes := by
  have path := length_encodeString2_le_add param.path
  rw [length_toBytes, maxBytes]
  omega

/-! ## How far the decoders move -/

section Positions

variable {mem : Memory} {cursor moved : Cursor}

/-- A string moves the pointer by one byte more than it has, at most. -/
theorem readText_pos_le {len : ℤ} {text : Bytes} (done : readText len mem cursor = .ok (text, moved)) :
    moved.pos ≤ cursor.pos + (1 + text.length) := by
  rw [readText] at done
  by_cases found : ∃ count stop,
      Prefixed mem cursor.pos (cursor.pos + sizeT (len - cursor.pos)) count stop
  · obtain ⟨count, stop, prefixed⟩ := found
    rw [readString2_prefixed prefixed] at done
    obtain ⟨rfl, rfl⟩ := Prod.mk.inj (Except.ok.inj done)
    rw [Option.getD_some, Memory.length_read]
  · rw [readString2_not_prefixed fun count stop prefixed => found ⟨count, stop, prefixed⟩] at done
    obtain ⟨rfl, rfl⟩ := Prod.mk.inj (Except.ok.inj done)
    exact Nat.le_add_right _ _

theorem readMany_fixed32_pos {count : ℕ} {items : List UInt32}
    (done : readMany readFixed32 count mem cursor = .ok (items, moved)) :
    moved.pos = cursor.pos + 4 * items.length := by
  induction count generalizing cursor items with
  | zero =>
      obtain ⟨rfl, rfl⟩ := Prod.mk.inj (Except.ok.inj done)
      rfl
  | succ count ih =>
      obtain ⟨first, middle, one, done⟩ := Reader.ok_of_bind done
      obtain ⟨rest, final, others, done⟩ := Reader.ok_of_bind done
      obtain ⟨rfl, rfl⟩ := Prod.mk.inj (Except.ok.inj done)
      obtain ⟨-, rfl⟩ := Prod.mk.inj (Except.ok.inj (readFixed32_run.symm.trans one))
      rw [ih others, Cursor.pos_advance, List.length_cons]
      omega

theorem VecValue.decoder_pos_le {len : ℤ} {vv : VecValue}
    (done : VecValue.decoder len mem cursor = .ok (vv, moved)) :
    moved.pos ≤ cursor.pos + (4 + 4 * vv.vec.length + (1 + vv.attachValue.length)) := by
  obtain ⟨u32, counted, number, done⟩ := Reader.ok_of_bind done
  obtain ⟨vec, filled, components, done⟩ := Reader.ok_of_bind done
  obtain ⟨text, final, attached, done⟩ := Reader.ok_of_bind done
  obtain ⟨rfl, rfl⟩ := Prod.mk.inj (Except.ok.inj done)
  obtain ⟨-, rfl⟩ := Prod.mk.inj (Except.ok.inj (readFixed32_run.symm.trans number))
  have pos := readMany_fixed32_pos components
  have le := readText_pos_le attached
  rw [Cursor.pos_advance] at pos
  dsimp only
  omega

theorem VecObj.decoder_pos_le {len : ℤ} {vo : VecObj}
    (done : VecObj.decoder len mem cursor = .ok (vo, moved)) :
    moved.pos ≤ cursor.pos + (1 + vo.key.length +
      (4 + 4 * vo.vv.vec.length + (1 + vo.vv.attachValue.length))) := by
  obtain ⟨key, behind, text, done⟩ := Reader.ok_of_bind done
  obtain ⟨vv, final, value, done⟩ := Reader.ok_of_bind done
  obtain ⟨rfl, rfl⟩ := Prod.mk.inj (Except.ok.inj done)
  have first := readText_pos_le text
  have second := VecValue.decoder_pos_le value
  dsimp only
  omega

theorem pos_of_indexType {u8 : UInt8} {type : VIndexType}
    (done : u8ToVIndexType u8 mem cursor = .ok (type, moved)) : moved = cursor := by
  rw [u8ToVIndexType] at done
  split at done
  · exact (Prod.mk.inj (Except.ok.inj done)).2.symm
  · contradiction

theorem pos_of_distanceType {u8 : UInt8} {type : DistanceType}
    (done : u8ToDistanceType u8 mem cursor = .ok (type, moved)) : moved = cursor := by
  rw [u8ToDistanceType] at done
  split_ifs at done
  · exact (Prod.mk.inj (Except.ok.inj done)).2.symm
  · exact (Prod.mk.inj (Except.ok.inj done)).2.symm
  · exact (Prod.mk.inj (Except.ok.inj done)).2.symm
  · contradiction

theorem readInt32_pos {value : Int32} (done : readInt32 mem cursor = .ok (value, moved)) :
    moved = cursor.advance 4 := by
  obtain ⟨u32, middle, number, done⟩ := Reader.ok_of_bind done
  obtain ⟨-, rfl⟩ := Prod.mk.inj (Except.ok.inj done)
  exact (Prod.mk.inj (Except.ok.inj (readFixed32_run.symm.trans number))).2.symm

theorem VIndexParam.decoder_pos_le {len : ℤ} {param : VIndexParam}
    (done : VIndexParam.decoder len mem cursor = .ok (param, moved)) :
    moved.pos ≤ cursor.pos + (1 + param.path.length + 18) := by
  obtain ⟨path, c1, text, done⟩ := Reader.ok_of_bind done
  obtain ⟨timestamp, c2, time, done⟩ := Reader.ok_of_bind done
  obtain ⟨dim, c3, number, done⟩ := Reader.ok_of_bind done
  obtain ⟨u8, c4, byte, done⟩ := Reader.ok_of_bind done
  obtain ⟨indexType, c5, kind, done⟩ := Reader.ok_of_bind done
  obtain ⟨u8', c6, byte', done⟩ := Reader.ok_of_bind done
  obtain ⟨distanceType, c7, measure, done⟩ := Reader.ok_of_bind done
  obtain ⟨trees, c8, number', done⟩ := Reader.ok_of_bind done
  obtain ⟨rfl, rfl⟩ := Prod.mk.inj (Except.ok.inj done)
  have le := readText_pos_le text
  obtain ⟨-, rfl⟩ := Prod.mk.inj (Except.ok.inj (readFixed64_run.symm.trans time))
  obtain rfl := readInt32_pos number
  obtain ⟨-, rfl⟩ := Prod.mk.inj (Except.ok.inj (readFixed8_run.symm.trans byte))
  obtain rfl := pos_of_indexType kind
  obtain ⟨-, rfl⟩ := Prod.mk.inj (Except.ok.inj (readFixed8_run.symm.trans byte'))
  obtain rfl := pos_of_distanceType measure
  obtain rfl := readInt32_pos number'
  simp only [Cursor.pos_advance]
  omega

end Positions

/-! ## What is read back -/

section Survival

variable {mem : Memory} {cursor : Cursor}

/-- An object survives if the decoder undoes the encoder, and only if it counts all the
bytes. -/
theorem survives_iff_of_moves {α : Type} {maxBytes : ℕ} {bytes : Bytes}
    {decoder : ℤ → Decoder α} {object : α} {short : Prop} (fits : maxBytes < 2 ^ 31)
    (room : bytes.length ≤ maxBytes)
    (undoes : short → ∀ mem : Memory, mem.Holds 0 bytes → ∃ moved,
      decoder bytes.length mem Cursor.start = .ok (object, moved) ∧ moved.pos = bytes.length)
    (moves : ∀ (mem : Memory) moved, decoder bytes.length mem Cursor.start = .ok (object, moved) →
      moved.pos = bytes.length → short) :
    Survives maxBytes bytes decoder object ↔ short := by
  constructor
  · rintro ⟨value, written, decodes⟩
    obtain ⟨same, -, -⟩ := toString_eq_ok written
    rw [same] at decodes
    have read := decodes fun _ => 0
    unfold decode at read
    cases done : decoder bytes.length (Memory.follow bytes fun _ => 0) Cursor.start with
    | error fault =>
        rw [done] at read
        contradiction
    | ok result =>
        rw [done] at read
        obtain ⟨same, pos⟩ := Prod.mk.inj (Except.ok.inj read)
        subst same
        exact moves _ result.2 done pos
  · intro holds
    refine ⟨bytes, if_pos ⟨fits, room⟩, fun beyond => ?_⟩
    obtain ⟨moved, done, pos⟩ := undoes holds _ (Memory.follow_holds bytes beyond)
    rw [decode, done, ← pos]
    rfl

theorem Vec.decoder_holds {vec : List Float32Bits} {len : ℤ} (small : vec.length < 2 ^ 32)
    (holds : mem.Holds cursor.pos (Vec.toBytes vec)) :
    ∃ moved, Vec.decoder len mem cursor = .ok (vec, moved) ∧
      moved.pos = cursor.pos + (Vec.toBytes vec).length := by
  rw [Vec.length_toBytes]
  rw [Vec.toBytes, Nat.mod_eq_of_lt small, Memory.holds_append, encodeFixed32_length] at holds
  obtain ⟨number, values⟩ := holds
  rw [← UInt32.toNat_ofNat_of_lt' small] at number
  obtain ⟨moved, components, pos⟩ := @VecValue.readComponents_holds mem (cursor.advance 4) vec values
  refine ⟨moved, ?_, ?_⟩
  · unfold Vec.decoder
    rw [Reader.bind_of_ok (readFixed32_holds number), UInt32.toNat_ofNat_of_lt' small, components]
  · rw [pos, Cursor.pos_advance, Vec.maxBytes]
    omega

theorem VecValue.decoder_holds {vv : VecValue} {len : ℕ} (short : vv.attachValue.length < 128)
    (bound : len < 2 ^ 31) (holds : mem.Holds cursor.pos vv.toBytes)
    (room : cursor.pos + vv.toBytes.length ≤ len) :
    ∃ moved, VecValue.decoder len mem cursor = .ok (vv, moved) ∧
      moved.pos = cursor.pos + vv.toBytes.length := by
  have length := vv.length_toBytes
  have small : vv.vec.length < 2 ^ 32 := by omega
  rw [toBytes, Nat.mod_eq_of_lt small, Memory.holds_append, encodeFixed32_length,
    Memory.holds_append, length_flatMap_fixed32] at holds
  obtain ⟨number, values, text⟩ := holds
  rw [← UInt32.toNat_ofNat_of_lt' small] at number
  obtain ⟨moved, components, pos⟩ := @readComponents_holds mem (cursor.advance 4) vv.vec values
  rw [Cursor.pos_advance] at pos
  rw [← pos] at text
  refine ⟨moved.advance (encodeString2 vv.attachValue).length, ?_, ?_⟩
  · unfold decoder
    rw [Reader.bind_of_ok (readFixed32_holds number), UInt32.toNat_ofNat_of_lt' small,
      Reader.bind_of_ok components, Reader.bind_of_ok (readText_holds short bound text (by omega))]
    rfl
  · rw [Cursor.pos_advance, pos]
    omega

theorem VecObj.decoder_holds {vo : VecObj} {len : ℕ} (key : vo.key.length < 128)
    (attachValue : vo.vv.attachValue.length < 128) (bound : len < 2 ^ 31)
    (holds : mem.Holds cursor.pos vo.toBytes) (room : cursor.pos + vo.toBytes.length ≤ len) :
    ∃ moved, VecObj.decoder len mem cursor = .ok (vo, moved) ∧
      moved.pos = cursor.pos + vo.toBytes.length := by
  rw [toBytes, Memory.holds_append] at holds
  rw [toBytes, List.length_append] at room ⊢
  obtain ⟨moved, value, pos⟩ := @VecValue.decoder_holds mem
    (cursor.advance (encodeString2 vo.key).length) vo.vv len attachValue bound holds.2
    (by rw [Cursor.pos_advance]; omega)
  refine ⟨moved, ?_, ?_⟩
  · unfold decoder
    rw [Reader.bind_of_ok (readText_holds key bound holds.1 (by omega)), Reader.bind_of_ok value]
    rfl
  · rw [pos, Cursor.pos_advance]
    omega

theorem u8ToVIndexType_toU8 (type : VIndexType) :
    u8ToVIndexType type.toU8 mem cursor = .ok (type, cursor) := by
  cases type
  rfl

theorem u8ToDistanceType_toU8 (type : DistanceType) :
    u8ToDistanceType type.toU8 mem cursor = .ok (type, cursor) := by
  cases type <;> rfl

theorem VIndexParam.decoder_holds {param : VIndexParam} {len : ℕ} (short : param.path.length < 128)
    (bound : len < 2 ^ 31) (holds : mem.Holds cursor.pos param.toBytes)
    (room : cursor.pos + param.toBytes.length ≤ len) :
    ∃ moved, VIndexParam.decoder len mem cursor = .ok (param, moved) ∧
      moved.pos = cursor.pos + param.toBytes.length := by
  rw [length_toBytes] at room ⊢
  simp only [toBytes, Memory.holds_append, encodeFixed64_length, length_encodeInt32,
    List.length_singleton] at holds
  obtain ⟨path, timestamp, dim, indexType, distanceType, annoyTreeNum⟩ := holds
  refine ⟨(((((cursor.advance (encodeString2 param.path).length).advance 8).advance 4).advance
    1).advance 1).advance 4, ?_, ?_⟩
  · unfold decoder
    rw [Reader.bind_of_ok (readText_holds short bound path (by omega)),
      Reader.bind_of_ok (readFixed64_holds timestamp), Reader.bind_of_ok (readInt32_holds dim),
      Reader.bind_of_ok (readFixed8_holds indexType),
      Reader.bind_of_ok (u8ToVIndexType_toU8 param.indexType),
      Reader.bind_of_ok (readFixed8_holds distanceType),
      Reader.bind_of_ok (u8ToDistanceType_toU8 param.distanceType),
      Reader.bind_of_ok (readInt32_holds annoyTreeNum)]
    rfl
  · simp only [Cursor.pos_advance]
    omega

/-! ## What survives -/

/-- A vector of any length. -/
theorem Vec.survives (vec : List Float32Bits) (fits : Vec.maxBytes vec < 2 ^ 31) :
    Survives (Vec.maxBytes vec) (Vec.toBytes vec) Vec.decoder vec := by
  have room := Vec.length_toBytes vec
  refine (survives_iff_of_moves fits room.le (fun _ mem holds => ?_)
    fun _ _ _ _ => trivial).mpr trivial
  have small : vec.length < 2 ^ 32 := by
    rw [Vec.maxBytes] at fits
    omega
  obtain ⟨moved, done, pos⟩ := @Vec.decoder_holds mem Cursor.start vec
    (Vec.toBytes vec).length small holds
  exact ⟨moved, done, pos.trans (Nat.zero_add _)⟩

theorem VecValue.survives_iff_attach (vv : VecValue) (fits : vv.maxBytes < 2 ^ 31) :
    Survives vv.maxBytes vv.toBytes VecValue.decoder vv ↔ vv.attachValue.length < 128 := by
  have room := vv.length_toBytes_le
  refine survives_iff_of_moves fits room (fun short mem holds => ?_) fun mem moved done pos => ?_
  · obtain ⟨moved, done, pos⟩ := @VecValue.decoder_holds mem Cursor.start vv vv.toBytes.length short
      (by omega) holds (Nat.zero_add _).le
    exact ⟨moved, done, pos.trans (Nat.zero_add _)⟩
  · have le := VecValue.decoder_pos_le done
    have length := vv.length_toBytes
    rw [maxBytes] at fits
    apply length_lt_of_le
    · omega
    · change moved.pos ≤ 0 + _ at le
      omega

theorem VecObj.survives_iff_strings (vo : VecObj) (fits : vo.maxBytes < 2 ^ 31) :
    Survives vo.maxBytes vo.toBytes VecObj.decoder vo ↔
      vo.key.length < 128 ∧ vo.vv.attachValue.length < 128 := by
  have room := vo.length_toBytes_le
  refine survives_iff_of_moves fits room (fun short mem holds => ?_) fun mem moved done pos => ?_
  · obtain ⟨moved, done, pos⟩ := @VecObj.decoder_holds mem Cursor.start vo vo.toBytes.length short.1
      short.2 (by omega) holds (Nat.zero_add _).le
    exact ⟨moved, done, pos.trans (Nat.zero_add _)⟩
  · have le := VecObj.decoder_pos_le done
    have length := vo.vv.length_toBytes
    rw [maxBytes, VecValue.maxBytes] at fits
    rw [toBytes, List.length_append] at pos
    have key : vo.key.length < 2 ^ 32 := by omega
    have attachValue : vo.vv.attachValue.length < 2 ^ 32 := by omega
    have more := length_lt_encodeString2 key
    have more' := length_lt_encodeString2 attachValue
    change moved.pos ≤ 0 + _ at le
    exact ⟨length_lt_of_le key (by omega), length_lt_of_le attachValue (by omega)⟩

theorem VIndexParam.survives_iff_path (param : VIndexParam) (fits : param.maxBytes < 2 ^ 31) :
    Survives param.maxBytes param.toBytes VIndexParam.decoder param ↔ param.path.length < 128 := by
  have room := param.length_toBytes_le
  refine survives_iff_of_moves fits room (fun short mem holds => ?_) fun mem moved done pos => ?_
  · obtain ⟨moved, done, pos⟩ := @VIndexParam.decoder_holds mem Cursor.start param
      param.toBytes.length short (by omega) holds (Nat.zero_add _).le
    exact ⟨moved, done, pos.trans (Nat.zero_add _)⟩
  · have le := VIndexParam.decoder_pos_le done
    have length := param.length_toBytes
    rw [maxBytes] at fits
    apply length_lt_of_le
    · omega
    · change moved.pos ≤ 0 + _ at le
      omega

end Survival

end Vraft.VectorDb
