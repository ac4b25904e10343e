import Mathlib.Data.List.Basic

/-!
# Regions of a list

What lies between two positions of a list, and what writing at a position leaves there.
-/

universe u

namespace Region

variable {α : Type u} {cells data rest : List α} {i j k pos : ℕ}

/-- The items from position `i` on, up to position `j`. -/
def segment (cells : List α) (i j : ℕ) : List α :=
  (cells.drop i).take (j - i)

/-- Write items from a position on. -/
def overwrite (cells : List α) (pos : ℕ) (data : List α) : List α :=
  cells.take pos ++ (data ++ cells.drop (pos + data.length))

theorem length_segment (within : j ≤ cells.length) : (segment cells i j).length = j - i := by
  rw [segment, List.length_take, List.length_drop]
  omega

theorem segment_self (cells : List α) (i : ℕ) : segment cells i i = [] := by
  rw [segment, Nat.sub_self, List.take_zero]

theorem segment_drop (cells : List α) (i j k : ℕ) :
    (segment cells i j).drop k = segment cells (i + k) j := by
  rw [segment, segment, List.drop_take, List.drop_drop, Nat.sub_sub]

/-- A segment ends before what follows it. -/
theorem segment_append (before : j ≤ cells.length) :
    segment (cells ++ rest) i j = segment cells i j := by
  by_cases empty : j ≤ i
  · rw [segment, segment, Nat.sub_eq_zero_of_le empty, List.take_zero, List.take_zero]
  · rw [segment, segment, List.drop_append_of_le_length (by omega),
      List.take_append_of_le_length (by rw [List.length_drop]; omega)]

theorem segment_take (before : j ≤ k) : segment (cells.take k) i j = segment cells i j := by
  rw [segment, segment, List.drop_take, List.take_take, Nat.min_eq_left (by omega)]

theorem length_overwrite (within : pos + data.length ≤ cells.length) :
    (overwrite cells pos data).length = cells.length := by
  simp only [overwrite, List.length_append, List.length_take, List.length_drop]
  omega

/-- What is written continues the segment that ends where it begins. -/
theorem segment_overwrite (before : i ≤ pos) (within : pos ≤ cells.length) :
    segment (overwrite cells pos data) i (pos + data.length) = segment cells i pos ++ data := by
  have front : (cells.take pos ++ data).length = pos + data.length := by
    rw [List.length_append, List.length_take, Nat.min_eq_left within]
  rw [overwrite, ← List.append_assoc, segment_append (Nat.le_of_eq front.symm), segment,
    List.drop_append_of_le_length (by rw [List.length_take]; omega), List.take_of_length_le,
    List.drop_take, segment]
  rw [List.length_append, List.length_drop, List.length_take]
  omega

end Region
