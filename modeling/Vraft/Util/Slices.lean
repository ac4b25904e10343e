import Vraft.Util.Decoding

/-!
# Decoding from a slice

The decoders of `util/coding.cc` that take a slice and leave what is behind the value in
it.  Varints and strings come back whatever follows them.  But `DecodeString2` reports
one byte for the length of a string however many it has: `DecodeVarint32`, whose result
it takes for their number, only tells whether there is one.
-/

namespace Vraft

open Raw

/-- `while (v >= B)`. -/
def encodeVarint64 (v : ℕ) : Bytes :=
  Base128.encode v

/-- At most ten bytes, up to a shift of 63. -/
def getVarint64Ptr (mem : Memory) (pos limit : ℕ) : Option ℕ × ℕ :=
  Base128.scan 64 mem limit 10 pos 0 0

/-- Append a string behind its length. -/
def encodeString (dst value : Bytes) : Bytes :=
  dst ++ (encodeVarint32 (value.length % 2 ^ 32) ++ value)

namespace Slice

/-- Move a slice behind the value that is found in it.  Any memory may follow the slice. -/
def decode (pointer : Memory → ℕ → ℕ → Option ℕ × ℕ) (beyond : Memory) (input : Bytes) :
    Option ℕ × Bytes :=
  match pointer (Memory.follow input beyond) 0 input.length with
  | (some value, q) => (some value, input.drop q)
  | (none, _) => (none, input)

/-- `DecodeVarint32` of a slice. -/
def decodeVarint32 : Memory → Bytes → Option ℕ × Bytes :=
  decode getVarint32Ptr

/-- `DecodeVarint64` of a slice. -/
def decodeVarint64 : Memory → Bytes → Option ℕ × Bytes :=
  decode getVarint64Ptr

/-- The number of bytes as well, or -1. -/
def decodeVarint32Bytes (beyond : Memory) (input : Bytes) : ℤ × Option ℕ × Bytes :=
  match getVarint32Ptr (Memory.follow input beyond) 0 input.length with
  | (some value, q) => (q, some value, input.drop q)
  | (none, _) => (-1, none, input)

/-- `DecodeString` of a slice. -/
def decodeString (beyond : Memory) (input : Bytes) : Option Bytes × Bytes :=
  match decodeVarint32 beyond input with
  | (some len, input) =>
      if len ≤ input.length then (some (input.take len), input.drop len) else (none, input)
  | (none, input) => (none, input)

/-- The number that is returned, the string and the slice.  `bytes` is the truth value of
`DecodeVarint32`. -/
def decodeString2 (beyond : Memory) (input : Bytes) : ℤ × Option Bytes × Bytes :=
  let (len, input) := decodeVarint32 beyond input
  let bytes : ℕ := if len.isSome then 1 else 0
  match len with
  | some len =>
      if 0 < bytes ∧ len ≤ input.length then
        (((bytes + len : ℕ) : ℤ).bmod (2 ^ 32), some (input.take len), input.drop len)
      else (-1, none, input)
  | none => (-1, none, input)

/-! ## Varints -/

/-- What a decoder makes of an encoded value and of its beginnings. -/
structure RoundTrips (pointer : Memory → ℕ → ℕ → Option ℕ × ℕ) (value : ℕ) (encoded : Bytes)
    (most : ℕ) : Prop where
  nonempty : 1 ≤ encoded.length
  short : encoded.length ≤ most
  whole : ∀ beyond rest, decode pointer beyond (encoded ++ rest) = (some value, rest)
  cut : ∀ beyond front back, front ++ back = encoded → back ≠ [] →
    decode pointer beyond front = (none, front) ∧
      (pointer (Memory.follow front beyond) 0 front.length).2 ≤ front.length

section Varints

variable {width steps v : ℕ} {beyond : Memory}

theorem decode_of_some {pointer : Memory → ℕ → ℕ → Option ℕ × ℕ} {input : Bytes} {q : ℕ}
    (found : pointer (Memory.follow input beyond) 0 input.length = (some v, q)) :
    decode pointer beyond input = (some v, input.drop q) := by
  rw [decode, found]

theorem decode_of_none {pointer : Memory → ℕ → ℕ → Option ℕ × ℕ} {input : Bytes}
    (found : (pointer (Memory.follow input beyond) 0 input.length).1 = none) :
    decode pointer beyond input = (none, input) := by
  rw [decode]
  split
  · rename_i same
    rw [same] at found
    cases found
  · rfl

/-- The decoder of a width, with the steps that its shift allows, decodes every value of
this width. -/
theorem roundTrips (bound : v < 2 ^ width) (short : (Base128.encode v).length ≤ steps)
    (fits : 7 * steps ≤ width + 6) :
    RoundTrips (fun mem pos limit => Base128.scan width mem limit steps pos 0 0) v
      (Base128.encode v) steps := by
  refine ⟨Base128.length_encode_pos v, short, fun beyond rest => ?_,
    fun beyond front back cut proper => ⟨?_, Base128.scan_stop_le steps 0 0 (Nat.zero_le _)⟩⟩
  · have holds := Memory.follow_holds (Base128.encode v ++ rest) beyond
    have room : 0 + (Base128.encode v).length ≤ (Base128.encode v ++ rest).length := by
      rw [List.length_append]
      omega
    rw [decode_of_some (Base128.scan_encode short bound fits (Memory.holds_append.mp holds).1 room),
      Nat.zero_add, List.drop_left]
  · apply decode_of_none
    have nothing := Base128.scan_cut cut proper fits (Memory.follow_holds front beyond)
    rwa [Nat.zero_add] at nothing

theorem getVarint32Ptr_eq : getVarint32Ptr = fun mem pos limit => Base128.scan 32 mem limit 5 pos 0 0 := by
  funext mem pos limit
  exact getVarint32Ptr_eq_scan mem pos limit

theorem roundTrips32 (x : UInt32) :
    RoundTrips getVarint32Ptr x.toNat (encodeVarint32 x.toNat) 5 := by
  rw [getVarint32Ptr_eq, encodeVarint32_eq_encode x.toNat_lt]
  apply roundTrips x.toNat_lt
  · exact Base128.length_encode_le (x.toNat_lt.trans (by decide : 2 ^ 32 < 128 ^ 5))
  · decide

theorem roundTrips64 (x : UInt64) :
    RoundTrips getVarint64Ptr x.toNat (encodeVarint64 x.toNat) 10 := by
  apply roundTrips x.toNat_lt
  · exact Base128.length_encode_le (x.toNat_lt.trans (by decide : 2 ^ 64 < 128 ^ 10))
  · decide

/-- The number of bytes is what the slice has become shorter by. -/
theorem decodeVarint32Bytes_eq (beyond : Memory) (input : Bytes) :
    decodeVarint32Bytes beyond input =
      (if (decodeVarint32 beyond input).1.isSome
        then (input.length : ℤ) - (decodeVarint32 beyond input).2.length else -1,
        decodeVarint32 beyond input) := by
  have stop : (getVarint32Ptr (Memory.follow input beyond) 0 input.length).2 ≤ input.length :=
    varint_stop_le (Nat.zero_le input.length)
  unfold decodeVarint32Bytes decodeVarint32 decode
  rcases found : getVarint32Ptr (Memory.follow input beyond) 0 input.length with ⟨_ | value, q⟩
  · rfl
  · rw [found] at stop
    dsimp only at stop ⊢
    rw [Option.isSome_some, if_pos rfl, List.length_drop, Nat.cast_sub stop, Int.sub_sub_self]

/-- Every value of 32 and of 64 bits is decoded from its encoding, whatever follows it, and
from no proper beginning of it. -/
theorem varints_roundTrip :
    (∀ x : UInt32, RoundTrips getVarint32Ptr x.toNat (encodeVarint32 x.toNat) 5 ∧
      (∀ beyond rest, decodeVarint32Bytes beyond (encodeVarint32 x.toNat ++ rest) =
        (((encodeVarint32 x.toNat).length : ℤ), some x.toNat, rest)) ∧
      ∀ beyond front back, front ++ back = encodeVarint32 x.toNat → back ≠ [] →
        decodeVarint32Bytes beyond front = (-1, none, front)) ∧
    ∀ x : UInt64, RoundTrips getVarint64Ptr x.toNat (encodeVarint64 x.toNat) 10 ∧
      (∀ beyond rest, decodeVarint64 beyond (encodeVarint64 x.toNat ++ rest) =
        (some x.toNat, rest)) ∧
      ∀ beyond front back, front ++ back = encodeVarint64 x.toNat → back ≠ [] →
        decodeVarint64 beyond front = (none, front) := by
  refine ⟨fun x => ⟨roundTrips32 x, fun beyond rest => ?_, fun beyond front back cut proper => ?_⟩,
    fun x => ⟨roundTrips64 x, (roundTrips64 x).whole, fun beyond front back cut proper =>
      ((roundTrips64 x).cut beyond front back cut proper).1⟩⟩
  · rw [decodeVarint32Bytes_eq, decodeVarint32, (roundTrips32 x).whole beyond rest]
    dsimp only
    rw [Option.isSome_some, if_pos rfl, List.length_append, Nat.cast_add, Int.add_sub_cancel]
  · rw [decodeVarint32Bytes_eq, decodeVarint32, ((roundTrips32 x).cut beyond front back cut proper).1]
    rfl

end Varints

/-! ## Strings -/

/-- A number of at most five bytes, and as many bytes behind it. -/
def Complete (input : Bytes) : Prop :=
  ∃ number text rest, Base128.Terminated number ∧ number.length ≤ 5 ∧
    text.length = Base128.value number % 2 ^ 32 ∧ input = number ++ (text ++ rest)

/-- What the two pairs of functions owe a string. -/
structure Survives (v : Bytes) : Prop where
  counted : ∀ beyond w,
    decodeString2 beyond (encodeString2 v ++ w) = (((encodeString2 v).length : ℤ), some v, w)
  rejected : ∀ beyond input, ¬Complete input → (decodeString2 beyond input).1 = -1
  plain : ∀ beyond w, decodeString beyond (encodeString [] v ++ w) = (some v, w)

section Strings

variable {v w : Bytes} {beyond : Memory}

/-- The length in front of a string is found. -/
theorem decodeVarint32_string (small : v.length < 2 ^ 31) :
    decodeVarint32 beyond (encodeVarint32 (v.length % 2 ^ 32) ++ v ++ w) =
      (some v.length, v ++ w) := by
  rw [Nat.mod_eq_of_lt (by omega), List.append_assoc]
  have fits : v.length < UInt32.size := by
    rw [UInt32.size]
    omega
  have whole := (roundTrips32 (UInt32.ofNat v.length)).whole beyond (v ++ w)
  rwa [UInt32.toNat_ofNat_of_lt' fits] at whole

theorem decodeString_encodeString (small : v.length < 2 ^ 31) :
    decodeString beyond (encodeString [] v ++ w) = (some v, w) := by
  rw [decodeString, encodeString, List.nil_append, decodeVarint32_string small]
  dsimp only
  rw [if_pos (by rw [List.length_append]; omega), List.take_left, List.drop_left]

/-- The string is found and the slice moves behind it; the number that is returned is short
by the bytes that its length has more than one of. -/
theorem decodeString2_encodeString2 (small : v.length < 2 ^ 31) :
    decodeString2 beyond (encodeString2 v ++ w) =
      (((1 + v.length : ℕ) : ℤ).bmod (2 ^ 32), some v, w) := by
  rw [decodeString2, encodeString2, decodeVarint32_string small]
  dsimp only
  rw [Option.isSome_some, if_pos rfl, if_pos, List.take_left, List.drop_left]
  exact ⟨Nat.one_pos, by rw [List.length_append]; omega⟩

/-- What stands at the beginning of a slice is its beginning. -/
theorem eq_append_of_holds {number input : Bytes}
    (holds : (Memory.follow input beyond).Holds 0 number) (le : number.length ≤ input.length) :
    input = number ++ input.drop number.length := by
  have taken : input.take number.length = number := by
    rw [← holds, Memory.length_read, Memory.read_follow (by rwa [Nat.zero_add]), List.drop_zero]
  conv_lhs => rw [← List.take_append_drop number.length input]
  rw [taken]

theorem decodeString2_incomplete {input : Bytes} (incomplete : ¬Complete input) :
    (decodeString2 beyond input).1 = -1 := by
  unfold decodeString2 decodeVarint32 decode
  rcases found : getVarint32Ptr (Memory.follow input beyond) 0 input.length with ⟨_ | len, q⟩
  · rfl
  · obtain ⟨number, terminated, short, holds, rfl, le, rfl⟩ := exists_of_varint found
    rw [Nat.zero_add] at le
    have split_ := eq_append_of_holds holds le
    dsimp only
    rw [Nat.zero_add, if_neg]
    rintro ⟨-, room⟩
    apply incomplete
    refine ⟨number, (input.drop number.length).take (Base128.value number % 2 ^ 32),
      (input.drop number.length).drop (Base128.value number % 2 ^ 32), terminated, short,
      List.length_take_of_le room, ?_⟩
    rwa [List.take_append_drop]

theorem length_encodeString2 (small : v.length < 2 ^ 31) :
    (encodeString2 v).length = (encodeVarint32 v.length).length + v.length := by
  rw [encodeString2, List.length_append, Nat.mod_eq_of_lt (by omega)]

/-- One byte is reported for the length of a string: the number is right for strings below
128 bytes, while the string itself always comes back. -/
theorem survives_iff_short (small : v.length < 2 ^ 31) : Survives v ↔ v.length < 128 := by
  rw [← length_encodeVarint32_eq_one_iff]
  constructor
  · intro survives
    have reported := congrArg Prod.fst (survives.counted (fun _ => 0) [])
    rw [decodeString2_encodeString2 small, length_encodeString2 small] at reported
    dsimp only at reported
    have few := length_encodeVarint32_le v.length
    rw [Int.bmod_def] at reported
    split_ifs at reported <;> omega
  · intro single
    have short := (length_encodeVarint32_eq_one_iff v.length).mp single
    refine ⟨fun beyond w => ?_, fun beyond input => decodeString2_incomplete, fun beyond w =>
      decodeString_encodeString small⟩
    rw [decodeString2_encodeString2 small, length_encodeString2 small, single,
      bmod_eq (by omega)]
    rfl

theorem survives_iff_short_seven : Survives [1, 2, 3, 4, 5, 6, 7] :=
  (survives_iff_short (by decide)).mpr (by decide)

/-- The first length that takes two bytes. -/
theorem not_survives : ¬∀ v : Bytes, v.length < 2 ^ 31 → Survives v := by
  intro all
  have length := List.length_replicate (n := 128) (a := (0 : UInt8))
  have small : (List.replicate 128 (0 : UInt8)).length < 2 ^ 31 := by
    rw [length]
    decide
  have reported := congrArg Prod.fst ((all _ small).counted (fun _ => 0) [])
  rw [decodeString2_encodeString2 small, length_encodeString2 small, length] at reported
  exact absurd reported (by decide)

end Strings

end Slice

end Vraft
