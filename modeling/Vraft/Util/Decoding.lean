import Vraft.Lib.Base128
import Vraft.Util.Coding

/-!
# Decoding strings and integers from memory

The decoding half of `util/coding.cc` as the messages use it, on a pointer.  The
prefix of a string has as many bytes as its length needs, but `DecodeString2`
counts it as one: `DecodeVarint32`, whose result it takes for the number of bytes,
only tells whether it succeeded.
-/

namespace Vraft

open Raw

/-- A number of bytes as a `size_t`. -/
def sizeT (count : ℤ) : ℕ :=
  (count % 2 ^ 64).toNat

theorem sizeT_of_nonneg {count : ℕ} (bound : count < 2 ^ 64) : sizeT count = count := by
  rw [sizeT]
  omega

/-! ## Integers -/

section Integers

variable {ε : Type*} {mem : Memory} {cursor : Cursor}

/-- One byte. -/
def readFixed8 : Reader ε UInt8 := do
  let bytes ← Reader.take 1
  pure (UInt8.ofNat (decodeFixed bytes))

/-- Four bytes as a number. -/
def readFixed32 : Reader ε UInt32 := do
  let bytes ← Reader.take 4
  pure (UInt32.ofNat (decodeFixed32 bytes))

/-- Eight bytes as a number. -/
def readFixed64 : Reader ε UInt64 := do
  let bytes ← Reader.take 8
  pure (UInt64.ofNat (decodeFixed64 bytes))

theorem readFixed8_run : (readFixed8 : Reader ε UInt8) mem cursor =
    .ok (UInt8.ofNat (decodeFixed (mem.read cursor.pos 1)), cursor.advance 1) :=
  rfl

theorem readFixed32_run : (readFixed32 : Reader ε UInt32) mem cursor =
    .ok (UInt32.ofNat (decodeFixed32 (mem.read cursor.pos 4)), cursor.advance 4) :=
  rfl

theorem readFixed64_run : (readFixed64 : Reader ε UInt64) mem cursor =
    .ok (UInt64.ofNat (decodeFixed64 (mem.read cursor.pos 8)), cursor.advance 8) :=
  rfl

theorem readFixed8_holds {value : UInt8} (holds : mem.Holds cursor.pos [value]) :
    (readFixed8 : Reader ε UInt8) mem cursor = .ok (value, cursor.advance 1) := by
  have bytes : mem.read cursor.pos 1 = [value] := holds
  rw [readFixed8_run, bytes]
  simp [decodeFixed]

theorem readFixed32_holds {value : UInt32}
    (holds : mem.Holds cursor.pos (encodeFixed32 value.toNat)) :
    (readFixed32 : Reader ε UInt32) mem cursor = .ok (value, cursor.advance 4) := by
  have bytes : mem.read cursor.pos 4 = encodeFixed32 value.toNat := by
    rwa [Memory.Holds, encodeFixed32_length] at holds
  have decoded : decodeFixed32 (encodeFixed32 value.toNat) = value.toNat := by
    simpa using decodeFixed32_encodeFixed32 value.toNat_lt []
  rw [readFixed32_run, bytes, decoded, UInt32.ofNat_toNat]

theorem readFixed64_holds {value : UInt64}
    (holds : mem.Holds cursor.pos (encodeFixed64 value.toNat)) :
    (readFixed64 : Reader ε UInt64) mem cursor = .ok (value, cursor.advance 8) := by
  have bytes : mem.read cursor.pos 8 = encodeFixed64 value.toNat := by
    rwa [Memory.Holds, encodeFixed64_length] at holds
  have decoded : decodeFixed64 (encodeFixed64 value.toNat) = value.toNat := by
    simpa using decodeFixed64_encodeFixed64 value.toNat_lt []
  rw [readFixed64_run, bytes, decoded, UInt64.ofNat_toNat]

end Integers

theorem decodeFixed_lt (bytes : Bytes) : decodeFixed bytes < 256 ^ bytes.length := by
  induction bytes with
  | nil => exact Nat.one_pos
  | cons byte rest ih =>
      have := byte.toNat_lt
      rw [decodeFixed, List.length_cons, pow_succ]
      omega

theorem decodeFixed32_lt (bytes : Bytes) : decodeFixed32 bytes < 2 ^ 32 := by
  have length : (bytes.take 4).length ≤ 4 := List.length_take_le 4 bytes
  calc decodeFixed32 bytes < 256 ^ (bytes.take 4).length := decodeFixed_lt _
    _ ≤ 256 ^ 4 := Nat.pow_le_pow_right (by decide) length

/-! ## The prefix of a string -/

/-- The value behind at most `steps` bytes before `limit`, and the end of what has been
read of them. -/
def getVarint32PtrFallback (mem : Memory) (limit : ℕ) : ℕ → ℕ → ℕ → ℕ → Option ℕ × ℕ
  | 0, pos, _, _ => (none, pos)
  | steps + 1, pos, shift, result =>
      if pos < limit then
        let byte := (mem pos).toNat
        if byte &&& 128 ≠ 0 then
          getVarint32PtrFallback mem limit steps (pos + 1) (shift + 7)
            (result ||| (byte &&& 127) <<< shift % 2 ^ 32)
        else (some (result ||| byte <<< shift % 2 ^ 32), pos + 1)
      else (none, pos)

/-- `GetVarint32Ptr`: the number, and where the pointer stands behind it. -/
def getVarint32Ptr (mem : Memory) (pos limit : ℕ) : Option ℕ × ℕ :=
  if pos < limit ∧ (mem pos).toNat &&& 128 = 0 then (some (mem pos).toNat, pos + 1)
  else getVarint32PtrFallback mem limit 5 pos 0 0

/-- What `DecodeString2` finds: the number it returns, and where the string is. -/
structure DecodedString where
  sz : ℤ
  begin_ : ℕ
  size : ℕ
  deriving DecidableEq, Repr

/-- Look for a string in `size` bytes; also the end of what has been read of them. -/
def decodeString2 (mem : Memory) (pos size : ℕ) : DecodedString × ℕ :=
  let (value, stop) := getVarint32Ptr mem pos (pos + size)
  match value with
  | some len =>
      if stop + len ≤ pos + size then (⟨((1 + len : ℕ) : ℤ).bmod (2 ^ 32), stop, len⟩, stop)
      else (⟨-1, 0, 0⟩, stop)
  | none => (⟨-1, 0, 0⟩, stop)

/-- Take a string that has been found and step over it, as every caller does. -/
def readString2 {ε : Type*} (size : ℤ) : Reader ε (Option Bytes) := fun mem cursor =>
  let (found, stop) := decodeString2 mem cursor.pos (sizeT size)
  if 0 < found.sz then
    .ok (some (mem.read found.begin_ found.size),
      ⟨cursor.pos + found.sz.toNat, max cursor.reach (found.begin_ + found.size)⟩)
  else .ok (none, ⟨cursor.pos, max cursor.reach stop⟩)

section Strings

variable {ε : Type*} {mem : Memory} {cursor : Cursor}

/-- The prefix of a string is a base-128 number of 32 bits. -/
theorem getVarint32PtrFallback_eq_scan (steps pos shift result limit : ℕ) :
    getVarint32PtrFallback mem limit steps pos shift result =
      Base128.scan 32 mem limit steps pos shift result := by
  induction steps generalizing pos shift result with
  | zero => rfl
  | succ steps ih =>
      unfold getVarint32PtrFallback Base128.scan
      simp only [ih]

/-- The fast path for a single byte finds what the loop would find. -/
theorem getVarint32Ptr_eq_scan (mem : Memory) (pos limit : ℕ) :
    getVarint32Ptr mem pos limit = Base128.scan 32 mem limit 5 pos 0 0 := by
  unfold getVarint32Ptr
  split
  · rename_i fast
    have byte := (mem pos).toNat_lt
    rw [Base128.scan_last fast.1 ((Base128.and_top_bit byte).mp fast.2) Nat.one_pos (Nat.zero_le _),
      Nat.zero_add, pow_zero, Nat.mul_one, Nat.mod_eq_of_lt (by omega)]
  · exact getVarint32PtrFallback_eq_scan ..

theorem exists_of_varint {pos limit value stop : ℕ}
    (found : getVarint32Ptr mem pos limit = (some value, stop)) :
    ∃ number, Base128.Terminated number ∧ number.length ≤ 5 ∧ mem.Holds pos number ∧
      stop = pos + number.length ∧ stop ≤ limit ∧ value = Base128.value number % 2 ^ 32 := by
  rw [getVarint32Ptr_eq_scan] at found
  have below : 0 < 2 ^ 0 := Nat.one_pos
  simpa using Base128.exists_of_scan below (by decide) found

theorem varint_of_number {number : Bytes} {pos limit : ℕ} (terminated : Base128.Terminated number)
    (short : number.length ≤ 5) (holds : mem.Holds pos number) (room : pos + number.length ≤ limit) :
    getVarint32Ptr mem pos limit =
      (some (Base128.value number % 2 ^ 32), pos + number.length) := by
  rw [getVarint32Ptr_eq_scan,
    Base128.scan_number terminated short holds room Nat.one_pos (by decide), Nat.zero_add, pow_zero,
    Nat.mul_one]

theorem varint_stop_le {pos limit : ℕ} (le : pos ≤ limit) :
    (getVarint32Ptr mem pos limit).2 ≤ limit := by
  rw [getVarint32Ptr_eq_scan]
  exact Base128.scan_stop_le 5 0 0 le

theorem lt_varint_stop {pos limit value : ℕ}
    (found : (getVarint32Ptr mem pos limit).1 = some value) :
    pos < (getVarint32Ptr mem pos limit).2 := by
  obtain ⟨number, terminated, -, -, stop, -⟩ := exists_of_varint (Prod.ext found rfl)
  exact (Nat.lt_add_of_pos_right terminated.length_pos).trans_eq stop.symm

theorem encodeVarint32_eq_encode {v : ℕ} (bound : v < 2 ^ 32) :
    encodeVarint32 v = Base128.encode v := by
  change _ = Base128.encode (v >>> 0)
  unfold encodeVarint32
  split_ifs with h1 h2 h3 h4
  · rw [Base128.encode_shiftRight_last h1]
    rfl
  · rw [Base128.encode_shiftRight_more h1, Base128.encode_shiftRight_last h2]
    rfl
  · rw [Base128.encode_shiftRight_more h1, Base128.encode_shiftRight_more h2,
      Base128.encode_shiftRight_last h3]
    rfl
  · rw [Base128.encode_shiftRight_more h1, Base128.encode_shiftRight_more h2,
      Base128.encode_shiftRight_more h3, Base128.encode_shiftRight_last h4]
    rfl
  · have small : v < 2 ^ (28 + 7) := by omega
    rw [Base128.encode_shiftRight_more h1, Base128.encode_shiftRight_more h2,
      Base128.encode_shiftRight_more h3, Base128.encode_shiftRight_more h4,
      Base128.encode_shiftRight_last small]
    rfl

/-- A prefix that has been written is read back, as far as the limit leaves room. -/
theorem getVarint32Ptr_holds {pos limit v : ℕ} (bound : v < 2 ^ 32)
    (holds : mem.Holds pos (encodeVarint32 v))
    (room : pos + (encodeVarint32 v).length ≤ limit) :
    getVarint32Ptr mem pos limit = (some v, pos + (encodeVarint32 v).length) := by
  rw [encodeVarint32_eq_encode bound] at holds room ⊢
  have short : (Base128.encode v).length ≤ 5 :=
    Base128.length_encode_le (bound.trans (by decide : 2 ^ 32 < 128 ^ 5))
  rw [getVarint32Ptr_eq_scan]
  exact Base128.scan_encode short bound (by decide) holds room

/-! ## Strings -/

theorem length_encodeVarint32_pos (v : ℕ) : 0 < (encodeVarint32 v).length := by
  unfold encodeVarint32
  split_ifs <;> simp

theorem length_encodeVarint32_le (v : ℕ) : (encodeVarint32 v).length ≤ 5 := by
  unfold encodeVarint32
  split_ifs <;> simp

/-- The prefix is a single byte for lengths below 128 only. -/
theorem length_encodeVarint32_eq_one_iff (v : ℕ) : (encodeVarint32 v).length = 1 ↔ v < 128 := by
  unfold encodeVarint32
  split_ifs <;> simp <;> omega

theorem getVarint32Ptr_lt {pos limit value : ℕ}
    (found : (getVarint32Ptr mem pos limit).1 = some value) : value < 2 ^ 32 := by
  obtain ⟨number, -, -, -, -, -, rfl⟩ := exists_of_varint (Prod.ext found rfl)
  exact Nat.mod_lt _ (by decide)

/-- A 32-bit sum is positive as an `int32_t` if it is below half of the range. -/
theorem bmod_pos_iff {len : ℕ} (bound : len < 2 ^ 32) :
    0 < ((1 + len : ℕ) : ℤ).bmod (2 ^ 32) ↔ 1 + len < 2 ^ 31 := by
  rw [Int.bmod_def]
  split_ifs <;> omega

theorem bmod_eq {len : ℕ} (small : 1 + len < 2 ^ 31) :
    ((1 + len : ℕ) : ℤ).bmod (2 ^ 32) = 1 + len := by
  rw [Int.bmod_def]
  split_ifs <;> omega

/-- A string of `len` bytes starts at `stop`, behind its prefix at `pos`. -/
def Prefixed (mem : Memory) (pos limit len stop : ℕ) : Prop :=
  getVarint32Ptr mem pos limit = (some len, stop) ∧ stop + len ≤ limit ∧ 1 + len < 2 ^ 31

theorem Prefixed.lt {pos limit len stop : ℕ} (prefixed : Prefixed mem pos limit len stop) :
    pos < stop := by
  have found := prefixed.1
  have := lt_varint_stop (congrArg Prod.fst found)
  rwa [found] at this

theorem readString2_prefixed {size : ℤ} {len stop : ℕ}
    (prefixed : Prefixed mem cursor.pos (cursor.pos + sizeT size) len stop) :
    (readString2 size : Reader ε (Option Bytes)) mem cursor = .ok (some (mem.read stop len),
      ⟨cursor.pos + (1 + len), max cursor.reach (stop + len)⟩) := by
  obtain ⟨found, room, small⟩ := prefixed
  have sz := bmod_eq small
  have decoded : decodeString2 mem cursor.pos (sizeT size) =
      (⟨((1 + len : ℕ) : ℤ).bmod (2 ^ 32), stop, len⟩, stop) := by
    rw [decodeString2, found]
    exact if_pos room
  have steps : (((1 + len : ℕ) : ℤ).bmod (2 ^ 32)).toNat = 1 + len := by
    rw [sz]
    omega
  unfold readString2
  simp only [decoded, steps]
  rw [if_pos (by rw [sz]; omega)]

theorem readString2_not_prefixed {size : ℤ}
    (other : ∀ len stop, ¬Prefixed mem cursor.pos (cursor.pos + sizeT size) len stop) :
    (readString2 size : Reader ε (Option Bytes)) mem cursor = .ok (none,
      ⟨cursor.pos, max cursor.reach (getVarint32Ptr mem cursor.pos (cursor.pos + sizeT size)).2⟩) := by
  have decoded : (decodeString2 mem cursor.pos (sizeT size)).1.sz ≤ 0 ∧
      (decodeString2 mem cursor.pos (sizeT size)).2 =
        (getVarint32Ptr mem cursor.pos (cursor.pos + sizeT size)).2 := by
    unfold decodeString2
    rcases found : getVarint32Ptr mem cursor.pos (cursor.pos + sizeT size) with ⟨_ | len, stop⟩
    · simp
    · dsimp only
      split
      · rename_i room
        have bound : len < 2 ^ 32 := getVarint32Ptr_lt (congrArg Prod.fst found)
        simp only [and_true, ← not_lt, bmod_pos_iff bound]
        exact fun small => other len stop ⟨found, room, small⟩
      · simp
  unfold readString2
  dsimp only
  rw [if_neg (not_lt.mpr decoded.1), decoded.2]

/-- A string that has been written is read back, and the pointer moves as if its length
had taken one byte. -/
theorem readString2_holds {text : Bytes} {size : ℕ} (small : 1 + text.length < 2 ^ 31)
    (bound : size < 2 ^ 64) (holds : mem.Holds cursor.pos (encodeString2 text))
    (room : (encodeString2 text).length ≤ size) :
    (readString2 size : Reader ε (Option Bytes)) mem cursor = .ok (some text,
      ⟨cursor.pos + (1 + text.length),
        max cursor.reach (cursor.pos + (encodeString2 text).length)⟩) := by
  rw [encodeString2, Nat.mod_eq_of_lt (by omega)] at holds room ⊢
  rw [Memory.holds_append] at holds
  rw [List.length_append] at room ⊢
  have content : mem.read (cursor.pos + (encodeVarint32 text.length).length) text.length = text :=
    holds.2
  have prefixed : Prefixed mem cursor.pos (cursor.pos + sizeT size) text.length
      (cursor.pos + (encodeVarint32 text.length).length) := by
    rw [sizeT_of_nonneg bound]
    exact ⟨getVarint32Ptr_holds (by omega) holds.1 (by omega), by omega, small⟩
  rw [readString2_prefixed prefixed, content, Nat.add_assoc]

/-- Whatever is found, the pointer moves by one more byte than the string has. -/
theorem readString2_pos {size : ℤ} {text : Bytes} {moved : Cursor}
    (done : (readString2 size : Reader ε (Option Bytes)) mem cursor = .ok (some text, moved)) :
    moved.pos = cursor.pos + (1 + text.length) := by
  by_cases found : ∃ len stop, Prefixed mem cursor.pos (cursor.pos + sizeT size) len stop
  · obtain ⟨len, stop, prefixed⟩ := found
    rw [readString2_prefixed prefixed] at done
    obtain ⟨same, rfl⟩ := Prod.mk.inj (Except.ok.inj done)
    rw [← Option.some.inj same, Memory.length_read]
  · rw [readString2_not_prefixed fun len stop prefixed => found ⟨len, stop, prefixed⟩] at done
    simp at done

/-! ## Other memories and limits -/

variable {mem' : Memory}

theorem getVarint32Ptr_congr {pos limit : ℕ}
    (same : ∀ offset, pos ≤ offset → offset < limit → mem offset = mem' offset) :
    getVarint32Ptr mem pos limit = getVarint32Ptr mem' pos limit := by
  rw [getVarint32Ptr_eq_scan, getVarint32Ptr_eq_scan, Base128.scan_congr same]

/-- A value that ends below another limit is found with that limit as well. -/
theorem getVarint32Ptr_limit {pos limit limit' value stop : ℕ}
    (found : getVarint32Ptr mem pos limit = (some value, stop)) (le : stop ≤ limit') :
    getVarint32Ptr mem pos limit' = (some value, stop) := by
  obtain ⟨number, terminated, short, holds, rfl, -, rfl⟩ := exists_of_varint found
  exact varint_of_number terminated short holds le

theorem Prefixed.limit {pos limit limit' count stop : ℕ}
    (prefixed : Prefixed mem pos limit count stop) (le : stop + count ≤ limit') :
    Prefixed mem pos limit' count stop :=
  ⟨getVarint32Ptr_limit prefixed.1 (by omega), le, prefixed.2.2⟩

theorem Prefixed.congr {pos limit count stop : ℕ}
    (same : ∀ offset, pos ≤ offset → offset < limit → mem offset = mem' offset)
    (prefixed : Prefixed mem pos limit count stop) : Prefixed mem' pos limit count stop :=
  ⟨(getVarint32Ptr_congr same).symm.trans prefixed.1, prefixed.2⟩

/-- A prefix of one byte is the length itself. -/
theorem getVarint32Ptr_single {pos limit value : ℕ}
    (found : getVarint32Ptr mem pos limit = (some value, pos + 1)) :
    (mem pos).toNat < 128 ∧ value = (mem pos).toNat := by
  obtain ⟨number, terminated, -, holds, stop, -, rfl⟩ := exists_of_varint found
  obtain ⟨byte, rfl⟩ := List.length_eq_one_iff.mp (Nat.add_left_cancel stop).symm
  obtain ⟨at_pos, -⟩ := Memory.holds_cons.mp holds
  rcases terminated with ⟨last, -⟩ | ⟨-, nothing⟩
  · have bits := (mem pos).toNat_lt
    rw [Base128.value, Base128.value, at_pos]
    omega
  · exact nothing.elim

theorem prefixed_single {pos limit : ℕ} (short : (mem pos).toNat < 128)
    (room : pos + 1 + (mem pos).toNat ≤ limit) :
    Prefixed mem pos limit (mem pos).toNat (pos + 1) := by
  refine ⟨?_, room, by omega⟩
  rw [getVarint32Ptr, if_pos ⟨by omega, (Base128.and_top_bit (mem pos).toNat_lt).mpr short⟩]

end Strings

end Vraft
