import Vraft.Lib.Reading
import Mathlib.Algebra.Order.Group.Nat
import Mathlib.Tactic.Ring

/-!
# Base-128 numbers

A number is written with seven bits a byte, least significant first, and the top bit of
every byte but the last set.  The numbers are prefix-free.  The decoder reads at most a
given number of bytes before a limit and keeps as many low bits as its type has; it finds
a number exactly if one stands there.
-/

open Raw

namespace Base128

/-! ## Numbers -/

/-- Seven bits a byte, the lowest first, with the high bit set on all bytes but the last. -/
def encode (v : ℕ) : List UInt8 :=
  if v < 128 then [UInt8.ofNat v] else UInt8.ofNat (v ||| 128) :: encode (v >>> 7)
termination_by v
decreasing_by
  rw [Nat.shiftRight_eq_div_pow]
  omega

/-- The last byte of a number, and no other, has its top bit clear. -/
def Terminated : List UInt8 → Prop
  | [] => False
  | byte :: rest => byte.toNat < 128 ∧ rest = [] ∨ 128 ≤ byte.toNat ∧ Terminated rest

/-- The number that seven bits of each byte make. -/
def value : List UInt8 → ℕ
  | [] => 0
  | byte :: rest => byte.toNat % 128 + 128 * value rest

theorem Terminated.ne_nil {number : List UInt8} (terminated : Terminated number) : number ≠ [] := by
  rintro rfl
  exact terminated

theorem Terminated.length_pos {number : List UInt8} (terminated : Terminated number) :
    0 < number.length :=
  List.length_pos_of_ne_nil terminated.ne_nil

/-- No number is a proper prefix of another. -/
theorem Terminated.eq_of_append {first second behind : List UInt8} (terminated : Terminated second)
    (same : first ++ behind = second) (other : Terminated first) : behind = [] := by
  induction first generalizing second with
  | nil => exact other.elim
  | cons byte rest ih =>
      subst same
      rcases terminated with ⟨-, empty⟩ | ⟨more, terminated⟩
      · exact (List.append_eq_nil_iff.mp empty).2
      · rcases other with ⟨last, -⟩ | ⟨-, other⟩
        · omega
        · exact ih terminated rfl other

/-! ## Encodings -/

theorem or_top_bit {byte : ℕ} (bound : byte < 256) : byte ||| 128 = byte % 128 + 128 := by
  have all : ∀ b : Fin 256, (b : ℕ) ||| 128 = b % 128 + 128 := by decide +kernel
  exact all ⟨byte, bound⟩

theorem and_top_bit {byte : ℕ} (bound : byte < 256) : byte &&& 128 = 0 ↔ byte < 128 := by
  have all : ∀ b : Fin 256, (b : ℕ) &&& 128 = 0 ↔ (b : ℕ) < 128 := by decide +kernel
  exact all ⟨byte, bound⟩

theorem toNat_continued (v : ℕ) : (UInt8.ofNat (v ||| 128)).toNat = v % 128 + 128 := by
  rw [UInt8.toNat_ofNat', Nat.or_mod_two_pow, or_top_bit (Nat.mod_lt _ (by decide))]
  omega

theorem toNat_last {v : ℕ} (low : v < 128) : (UInt8.ofNat v).toNat = v := by
  rw [UInt8.toNat_ofNat', Nat.mod_eq_of_lt (by omega)]

/-- The number that is left behind some groups is their last one, -/
theorem encode_shiftRight_last {v shift : ℕ} (less : v < 2 ^ (shift + 7)) :
    encode (v >>> shift) = [UInt8.ofNat (v >>> shift)] := by
  rw [pow_add] at less
  rw [encode, if_pos]
  rw [Nat.shiftRight_eq_div_pow]
  exact Nat.div_lt_of_lt_mul less

/-- or there is one more. -/
theorem encode_shiftRight_more {v shift : ℕ} (more : ¬v < 2 ^ (shift + 7)) :
    encode (v >>> shift) = UInt8.ofNat (v >>> shift ||| 128) :: encode (v >>> (shift + 7)) := by
  rw [pow_add, Nat.not_lt] at more
  rw [encode, if_neg, Nat.shiftRight_add]
  rw [Nat.shiftRight_eq_div_pow, Nat.not_lt, Nat.le_div_iff_mul_le (Nat.two_pow_pos shift),
    Nat.mul_comm]
  exact more

theorem terminated_encode (v : ℕ) : Terminated (encode v) := by
  induction v using encode.induct with
  | case1 v low =>
      rw [encode, if_pos low]
      exact .inl ⟨(toNat_last low).trans_lt low, rfl⟩
  | case2 v high ih =>
      rw [encode, if_neg high]
      refine .inr ⟨?_, ih⟩
      rw [toNat_continued]
      exact Nat.le_add_left _ _

theorem value_encode (v : ℕ) : value (encode v) = v := by
  induction v using encode.induct with
  | case1 v low =>
      rw [encode, if_pos low, value, value, toNat_last low]
      omega
  | case2 v high ih =>
      rw [encode, if_neg high, value, ih, toNat_continued, Nat.shiftRight_eq_div_pow]
      omega

theorem length_encode_pos (v : ℕ) : 0 < (encode v).length :=
  (terminated_encode v).length_pos

/-- As many bytes as there are groups of seven bits. -/
theorem length_encode_le {v groups : ℕ} (bound : v < 128 ^ (groups + 1)) :
    (encode v).length ≤ groups + 1 := by
  induction groups generalizing v with
  | zero =>
      rw [Nat.zero_add, pow_one] at bound
      rw [encode, if_pos bound]
      exact Nat.le_refl 1
  | succ groups ih =>
      rw [encode]
      split
      · exact Nat.le_add_left 1 _
      · apply Nat.succ_le_succ
        apply ih
        rw [Nat.shiftRight_eq_div_pow]
        rw [pow_succ] at bound
        exact Nat.div_lt_of_lt_mul (by rwa [Nat.mul_comm] at bound)

/-! ## The decoder -/

/-- The number in at most `steps` bytes before `limit`, and the end of what has been read
of them. -/
def scan (width : ℕ) (mem : Memory) (limit : ℕ) : ℕ → ℕ → ℕ → ℕ → Option ℕ × ℕ
  | 0, pos, _, _ => (none, pos)
  | steps + 1, pos, shift, result =>
      if pos < limit then
        let byte := (mem pos).toNat
        if byte &&& 128 ≠ 0 then
          scan width mem limit steps (pos + 1) (shift + 7)
            (result ||| (byte &&& 127) <<< shift % 2 ^ width)
        else (some (result ||| byte <<< shift % 2 ^ width), pos + 1)
      else (none, pos)

section Scan

variable {width : ℕ} {mem mem' : Memory} {limit steps pos shift result found stop : ℕ}

theorem scan_stop_le (steps shift result : ℕ) (le : pos ≤ limit) :
    (scan width mem limit steps pos shift result).2 ≤ limit := by
  induction steps generalizing pos shift result with
  | zero => exact le
  | succ steps ih =>
      unfold scan
      split
      · rename_i before
        dsimp only
        split
        · exact ih _ _ before
        · exact before
      · exact le

/-- A group of seven bits goes above the bits that are there, as far as the type reaches. -/
theorem or_shiftLeft_mod (below : result < 2 ^ shift) (fits : shift ≤ width) (byte : ℕ) :
    result ||| byte <<< shift % 2 ^ width = (result + byte * 2 ^ shift) % 2 ^ width := by
  obtain ⟨room, rfl⟩ := Nat.exists_eq_add_of_le fits
  have low : byte <<< shift % 2 ^ (shift + room) = (byte % 2 ^ room) <<< shift := by
    rw [Nat.shiftLeft_eq, Nat.shiftLeft_eq, pow_add, Nat.mul_comm (2 ^ shift), Nat.mul_mod_mul_right]
  rw [low, Nat.or_comm, ← Nat.shiftLeft_add_eq_or_of_lt below, Nat.shiftLeft_eq, pow_add,
    Nat.mod_mul, Nat.add_mul_mod_self_right, Nat.mod_eq_of_lt below,
    Nat.add_mul_div_right _ _ (Nat.two_pow_pos shift), Nat.div_eq_of_lt below, Nat.zero_add,
    Nat.add_comm, Nat.mul_comm]

theorem mask_eq (byte : ℕ) : byte &&& 127 = byte % 128 :=
  Nat.and_two_pow_sub_one_eq_mod byte 7

/-- One byte more of a number. -/
theorem scan_more (before : pos < limit) (more : 128 ≤ (mem pos).toNat)
    (below : result < 2 ^ shift) (fits : shift ≤ width) :
    scan width mem limit (steps + 1) pos shift result =
      scan width mem limit steps (pos + 1) (shift + 7)
        ((result + (mem pos).toNat % 128 * 2 ^ shift) % 2 ^ width) := by
  have set : (mem pos).toNat &&& 128 ≠ 0 := by
    rw [Ne, and_top_bit (mem pos).toNat_lt]
    omega
  rw [scan, if_pos before]
  dsimp only
  rw [if_pos set, mask_eq, or_shiftLeft_mod below fits]

/-- The last byte of a number. -/
theorem scan_last (before : pos < limit) (last : (mem pos).toNat < 128)
    (below : result < 2 ^ shift) (fits : shift ≤ width) :
    scan width mem limit (steps + 1) pos shift result =
      (some ((result + (mem pos).toNat * 2 ^ shift) % 2 ^ width), pos + 1) := by
  have clear_ : ¬(mem pos).toNat &&& 128 ≠ 0 := by
    rw [not_not, and_top_bit (mem pos).toNat_lt]
    exact last
  rw [scan, if_pos before]
  dsimp only
  rw [if_neg clear_, or_shiftLeft_mod below fits]

theorem scan_none (outside : ¬pos < limit) :
    scan width mem limit steps pos shift result = (none, pos) := by
  cases steps with
  | zero => rfl
  | succ steps => rw [scan, if_neg outside]

/-- What has been put together stays below the next group. -/
theorem joined_lt (below : result < 2 ^ shift) (byte : ℕ) :
    (result + byte % 128 * 2 ^ shift) % 2 ^ width < 2 ^ (shift + 7) := by
  have top : byte % 128 + 1 ≤ 128 := Nat.mod_lt _ (by decide)
  calc (result + byte % 128 * 2 ^ shift) % 2 ^ width
      ≤ result + byte % 128 * 2 ^ shift := Nat.mod_le _ _
    _ < 2 ^ shift + byte % 128 * 2 ^ shift := Nat.add_lt_add_right below _
    _ = (byte % 128 + 1) * 2 ^ shift := by rw [Nat.add_mul, Nat.one_mul, Nat.add_comm]
    _ ≤ 128 * 2 ^ shift := Nat.mul_le_mul_right _ top
    _ = 2 ^ (shift + 7) := by rw [pow_add, Nat.mul_comm]; rfl

/-- The value of the first group and of the others. -/
theorem joined_mod (byte rest : ℕ) :
    ((result + byte % 128 * 2 ^ shift) % 2 ^ width + rest * 2 ^ (shift + 7)) % 2 ^ width =
      (result + (byte % 128 + 128 * rest) * 2 ^ shift) % 2 ^ width := by
  rw [Nat.mod_add_mod, pow_add]
  congr 1
  ring

/-- A number that stands there is found. -/
theorem scan_number {number : List UInt8} (terminated : Terminated number)
    (short : number.length ≤ steps) (holds : mem.Holds pos number)
    (room : pos + number.length ≤ limit) (below : result < 2 ^ shift)
    (fits : shift + 7 * steps ≤ width + 6) :
    scan width mem limit steps pos shift result =
      (some ((result + value number * 2 ^ shift) % 2 ^ width), pos + number.length) := by
  induction number generalizing steps pos shift result with
  | nil => exact terminated.elim
  | cons byte rest ih =>
      rw [Memory.holds_cons] at holds
      obtain ⟨rfl, holds⟩ := holds
      rw [List.length_cons] at short room
      obtain ⟨steps, rfl⟩ := Nat.exists_eq_add_of_le' (Nat.le_trans (Nat.le_add_left 1 _) short)
      have before : pos < limit := by omega
      rcases terminated with ⟨last, rfl⟩ | ⟨more, terminated⟩
      · rw [scan_last before last below (by omega), value, value, Nat.mod_eq_of_lt last]
        rfl
      · rw [scan_more before more below (by omega),
          ih terminated (by omega) holds (by omega) (joined_lt below _) (by omega), joined_mod, value,
          List.length_cons, Nat.add_assoc, Nat.add_comm 1]

/-- What is found stands there. -/
theorem exists_of_scan (below : result < 2 ^ shift) (fits : shift + 7 * steps ≤ width + 6)
    (done : scan width mem limit steps pos shift result = (some found, stop)) :
    ∃ number, Terminated number ∧ number.length ≤ steps ∧ mem.Holds pos number ∧
      stop = pos + number.length ∧ stop ≤ limit ∧
      found = (result + value number * 2 ^ shift) % 2 ^ width := by
  induction steps generalizing pos shift result with
  | zero => simp [scan] at done
  | succ steps ih =>
      by_cases before : pos < limit
      · by_cases last : (mem pos).toNat < 128
        · rw [scan_last before last below (by omega), Prod.mk.injEq, Option.some.injEq] at done
          obtain ⟨rfl, rfl⟩ := done
          refine ⟨[mem pos], .inl ⟨last, rfl⟩, Nat.le_add_left 1 _, rfl, rfl, before, ?_⟩
          rw [value, value, Nat.mod_eq_of_lt last]
          rfl
        · rw [scan_more before (Nat.not_lt.mp last) below (by omega)] at done
          obtain ⟨number, terminated, short, holds, rfl, le, rfl⟩ :=
            ih (joined_lt below _) (by omega) done
          refine ⟨mem pos :: number, .inr ⟨Nat.not_lt.mp last, terminated⟩,
            Nat.succ_le_succ short, Memory.holds_cons.mpr ⟨rfl, holds⟩, ?_, le, ?_⟩
          · rw [List.length_cons, Nat.add_assoc, Nat.add_comm 1]
          · rw [joined_mod, value]
      · rw [scan_none before] at done
        simp at done

/-- Only the bytes before the limit count. -/
theorem scan_congr (same : ∀ offset, pos ≤ offset → offset < limit → mem offset = mem' offset) :
    scan width mem limit steps pos shift result = scan width mem' limit steps pos shift result := by
  induction steps generalizing pos shift result with
  | zero => rfl
  | succ steps ih =>
      unfold scan
      split
      · rename_i before
        rw [same pos (Nat.le_refl pos) before]
        dsimp only
        rw [ih fun offset le => same offset (Nat.le_of_succ_le le)]
      · rfl

end Scan

/-! ## Encodings are decoded -/

section Encoded

variable {width : ℕ} {mem : Memory} {limit steps pos v : ℕ}

theorem scan_encode (short : (encode v).length ≤ steps) (bound : v < 2 ^ width)
    (fits : 7 * steps ≤ width + 6) (holds : mem.Holds pos (encode v))
    (room : pos + (encode v).length ≤ limit) :
    scan width mem limit steps pos 0 0 = (some v, pos + (encode v).length) := by
  rw [scan_number (terminated_encode v) short holds room Nat.one_pos (by omega), value_encode,
    Nat.zero_add, pow_zero, Nat.mul_one, Nat.mod_eq_of_lt bound]

/-- A number that is cut off is not found. -/
theorem scan_cut {front back : List UInt8} (cut : front ++ back = encode v) (proper : back ≠ [])
    (fits : 7 * steps ≤ width + 6) (holds : mem.Holds pos front) :
    (scan width mem (pos + front.length) steps pos 0 0).1 = none := by
  rcases done : scan width mem (pos + front.length) steps pos 0 0 with ⟨_ | found, stop⟩
  · rfl
  · have below : 0 < 2 ^ 0 := Nat.one_pos
    obtain ⟨number, terminated, -, holds', rfl, le, -⟩ := exists_of_scan below (by omega) done
    have inside : number.length ≤ front.length := by omega
    obtain ⟨rest, rfl⟩ : number <+: front := by
      rw [← holds', ← holds, ← Nat.add_sub_of_le inside, Memory.read_add]
      exact List.prefix_append _ _
    rw [List.append_assoc] at cut
    have nothing := (terminated_encode v).eq_of_append cut terminated
    exact absurd (List.append_eq_nil_iff.mp nothing).2 proper

end Encoded

end Base128
