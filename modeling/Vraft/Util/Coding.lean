import Mathlib.Data.List.Basic
import Mathlib.Logic.Function.Iterate
import Mathlib.Tactic.Ring

/-!
# Byte coding and checksums

The little-endian integer fields and length-prefixed strings of
`util/coding.cc`, and `Crc32` of `util/util.cc`.  An integer is written as a
fixed number of bytes, least significant byte first; decoding reads the same
number of bytes back.
-/

namespace Vraft

/-- A byte string. -/
abbrev Bytes := List UInt8

/-- The `width` low-order bytes of a value, least significant first. -/
def encodeFixed : ℕ → ℕ → Bytes
  | 0, _ => []
  | width + 1, value => UInt8.ofNat (value % 256) :: encodeFixed width (value / 256)

/-- The value of a little-endian byte string. -/
def decodeFixed : Bytes → ℕ
  | [] => 0
  | byte :: rest => byte.toNat + 256 * decodeFixed rest

/-- Four bytes, the lowest first. -/
def encodeFixed32 (value : ℕ) : Bytes := encodeFixed 4 value

/-- Eight bytes, the lowest first. -/
def encodeFixed64 (value : ℕ) : Bytes := encodeFixed 8 value

/-- The number of the first four bytes. -/
def decodeFixed32 (bytes : Bytes) : ℕ := decodeFixed (bytes.take 4)

/-- The number of the first eight bytes. -/
def decodeFixed64 (bytes : Bytes) : ℕ := decodeFixed (bytes.take 8)

@[simp]
theorem encodeFixed_length (width value : ℕ) : (encodeFixed width value).length = width := by
  induction width generalizing value with
  | zero => rfl
  | succ width ih => simp [encodeFixed, ih]

theorem decodeFixed_encodeFixed (width value : ℕ) (bound : value < 256 ^ width) :
    decodeFixed (encodeFixed width value) = value := by
  induction width generalizing value with
  | zero =>
      have : value = 0 := by simpa using bound
      simp [encodeFixed, decodeFixed, this]
  | succ width ih =>
      have quotient : value / 256 < 256 ^ width := by
        rw [pow_succ] at bound
        exact Nat.div_lt_of_lt_mul (by rwa [mul_comm] at bound)
      have low : (UInt8.ofNat (value % 256)).toNat = value % 256 := by
        simp [UInt8.toNat_ofNat']
      rw [encodeFixed, decodeFixed, ih _ quotient, low]
      omega

@[simp]
theorem encodeFixed32_length (value : ℕ) : (encodeFixed32 value).length = 4 :=
  encodeFixed_length 4 value

@[simp]
theorem encodeFixed64_length (value : ℕ) : (encodeFixed64 value).length = 8 :=
  encodeFixed_length 8 value

theorem decodeFixed32_encodeFixed32 {value : ℕ} (bound : value < 2 ^ 32) (rest : Bytes) :
    decodeFixed32 (encodeFixed32 value ++ rest) = value := by
  rw [decodeFixed32, List.take_left' (encodeFixed32_length value)]
  exact decodeFixed_encodeFixed 4 value bound

theorem decodeFixed64_encodeFixed64 {value : ℕ} (bound : value < 2 ^ 64) (rest : Bytes) :
    decodeFixed64 (encodeFixed64 value ++ rest) = value := by
  rw [decodeFixed64, List.take_left' (encodeFixed64_length value)]
  exact decodeFixed_encodeFixed 8 value bound

/-! ## Strings -/

/-- Seven bits a byte, least significant first; all bytes but the last have
their top bit set. -/
def encodeVarint32 (v : ℕ) : Bytes :=
  if v < 2 ^ 7 then [UInt8.ofNat v]
  else if v < 2 ^ 14 then [UInt8.ofNat (v ||| 128), UInt8.ofNat (v >>> 7)]
  else if v < 2 ^ 21 then
    [UInt8.ofNat (v ||| 128), UInt8.ofNat (v >>> 7 ||| 128), UInt8.ofNat (v >>> 14)]
  else if v < 2 ^ 28 then
    [UInt8.ofNat (v ||| 128), UInt8.ofNat (v >>> 7 ||| 128), UInt8.ofNat (v >>> 14 ||| 128),
      UInt8.ofNat (v >>> 21)]
  else
    [UInt8.ofNat (v ||| 128), UInt8.ofNat (v >>> 7 ||| 128), UInt8.ofNat (v >>> 14 ||| 128),
      UInt8.ofNat (v >>> 21 ||| 128), UInt8.ofNat (v >>> 28)]

/-- A string behind its length. -/
def encodeString2 (value : Bytes) : Bytes :=
  encodeVarint32 (value.length % 2 ^ 32) ++ value

theorem length_encodeVarint32_le_four_iff (v : ℕ) :
    (encodeVarint32 v).length ≤ 4 ↔ v < 2 ^ 28 := by
  unfold encodeVarint32
  split_ifs <;> simp only [List.length_cons, List.length_nil] <;> omega

/-- A size that an `int32_t` holds stays as it is. -/
theorem bmod_of_lt {count : ℕ} (small : count < 2 ^ 31) : (count : ℤ).bmod (2 ^ 32) = count := by
  rw [Int.bmod_def]
  split_ifs <;> omega

/-! ## Checksums -/

/-- Shift out one bit. -/
def crcBit (crc : UInt32) : UInt32 :=
  if crc &&& 1 ≠ 0 then (crc >>> 1) ^^^ 0xEDB88320 else crc >>> 1

/-- The checksum after one more byte, bit by bit. -/
def crcByte (crc : UInt32) (byte : UInt8) : UInt32 :=
  crcBit^[8] (crc ^^^ byte.toUInt32)

/-- `Crc32`. -/
def crc32 (bytes : Bytes) : UInt32 :=
  ~~~(bytes.foldl crcByte 0xFFFFFFFF)

end Vraft
