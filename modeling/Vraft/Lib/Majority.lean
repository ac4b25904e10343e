import Mathlib.Data.List.Sort
import Mathlib.Data.Finset.Card
import Mathlib.Algebra.Order.Group.Nat

/-!
# Majorities

Facts about counting in a finite membership.  Sets that are together larger than the
membership meet; and the middle of a sorted list is the largest number that more than
half of its elements reach.
-/

namespace Majority

universe u

/-- Two subsets of a finite set meet when their sizes add up to more than it. -/
theorem exists_mem_of_card_lt {N : Type u} [DecidableEq N] {members first second : Finset N}
    (first_sub : first ⊆ members) (second_sub : second ⊆ members)
    (large : members.card < first.card + second.card) : ∃ p ∈ first, p ∈ second := by
  by_contra apart
  push Not at apart
  have disjoint : Disjoint first second := Finset.disjoint_left.mpr apart
  have union_le := Finset.card_le_card (Finset.union_subset first_sub second_sub)
  rw [Finset.card_union_of_disjoint disjoint] at union_le
  omega

/-- In an ascending list, the elements from position `i` on reach the element at
position `i`. -/
theorem length_sub_le_countP {l : List ℕ} (sorted : l.Pairwise (· ≤ ·)) {i x : ℕ}
    (at_i : l[i]? = some x) : l.length - i ≤ l.countP fun y => x ≤ y := by
  induction l generalizing i with
  | nil => simp at at_i
  | cons y l ih =>
      obtain ⟨below, sorted⟩ := List.pairwise_cons.mp sorted
      cases i with
      | zero =>
          obtain rfl : y = x := by simpa using at_i
          have all : (y :: l).countP (fun z => y ≤ z) = (y :: l).length := by
            rw [List.countP_eq_length]
            intro z mem
            rcases List.mem_cons.mp mem with rfl | mem
            · simp
            · simpa using below z mem
          rw [all]
          simp
      | succ i =>
          have tail := ih sorted (i := i) (by simpa using at_i)
          have grows : l.countP (fun z => x ≤ z) ≤ (y :: l).countP (fun z => x ≤ z) := by
            rw [List.countP_cons]
            omega
          simp only [List.length_cons]
          omega

/-- The elements that exceed the one at position `i` come behind it. -/
theorem countP_le_length_sub {l : List ℕ} (sorted : l.Pairwise (· ≤ ·)) {i x y : ℕ}
    (at_i : l[i]? = some x) (above : x < y) : l.countP (fun z => y ≤ z) ≤ l.length - (i + 1) := by
  induction l generalizing i with
  | nil => simp
  | cons z l ih =>
      obtain ⟨below, sorted⟩ := List.pairwise_cons.mp sorted
      have small : z ≤ x := by
        cases i with
        | zero => exact (Option.some.inj at_i).le
        | succ i => exact below x (List.mem_of_getElem? at_i)
      rw [List.countP_cons_of_neg (by simpa using small.trans_lt above), List.length_cons]
      cases i with
      | zero => exact List.countP_le_length
      | succ i =>
          rw [Nat.add_sub_add_right]
          exact ih sorted at_i

/-- The element in the middle of the sorted form of a list. -/
theorem getElem?_middle {l : List ℕ} (nonempty : l ≠ []) :
    (l.insertionSort (· ≤ ·))[(l.length - 1) / 2]? =
      some ((l.insertionSort (· ≤ ·)).getD ((l.length - 1) / 2) 0) := by
  have positive : 0 < l.length := List.length_pos_iff.mpr nonempty
  have lt : (l.length - 1) / 2 < (l.insertionSort (· ≤ ·)).length := by
    rw [List.length_insertionSort]
    omega
  simp [List.getElem?_eq_getElem lt]

/-- More than half of a list reaches the element in the middle of its sorted
form. -/
theorem length_lt_two_mul_countP {l : List ℕ} (nonempty : l ≠ []) :
    l.length < 2 * l.countP fun y =>
      (l.insertionSort (· ≤ ·)).getD ((l.length - 1) / 2) 0 ≤ y := by
  have positive : 0 < l.length := List.length_pos_iff.mpr nonempty
  have reach := length_sub_le_countP (List.pairwise_insertionSort (· ≤ ·) l)
    (getElem?_middle nonempty)
  rw [List.length_insertionSort, (List.perm_insertionSort (· ≤ ·) l).countP_eq] at reach
  omega

/-- At most half of a list exceeds it. -/
theorem two_mul_countP_le_length {l : List ℕ} (nonempty : l ≠ []) {y : ℕ}
    (above : (l.insertionSort (· ≤ ·)).getD ((l.length - 1) / 2) 0 < y) :
    2 * l.countP (fun z => y ≤ z) ≤ l.length := by
  have few := countP_le_length_sub (List.pairwise_insertionSort (· ≤ ·) l)
    (getElem?_middle nonempty) above
  rw [List.length_insertionSort, (List.perm_insertionSort (· ≤ ·) l).countP_eq] at few
  omega

end Majority
