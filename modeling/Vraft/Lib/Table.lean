import Mathlib.Data.List.Nodup
import Mathlib.Data.List.Count
import Mathlib.Data.Finset.Card
import Mathlib.Logic.Function.Basic
import Mathlib.Tactic.Tauto

/-!
# Tables with an inserting subscript

A finite map whose subscript operator inserts a default item for a missing key,
as the unordered maps of the C++ standard library do.  The keys are kept as a
duplicate-free list, so that whole-table scans can be evaluated; outside the
keys every value is the default one.
-/

universe u v

/-- A finite map from keys to values with a default value. -/
structure Table (K : Type u) (V : Type v) [Inhabited V] where
  keys : List K
  val : K → V
  nodup : keys.Nodup
  val_of_not_mem : ∀ k, k ∉ keys → val k = default

namespace Table

variable {K : Type u} {V : Type v} [Inhabited V] [DecidableEq K]

/-- The table without keys. -/
def empty : Table K V where
  keys := []
  val _ := default
  nodup := List.nodup_nil
  val_of_not_mem _ _ := rfl

/-- Assign a value, inserting the key if it is missing. -/
def set (table : Table K V) (k : K) (v : V) : Table K V where
  keys := if k ∈ table.keys then table.keys else table.keys ++ [k]
  val := Function.update table.val k v
  nodup := by
    split
    · exact table.nodup
    · rename_i missing
      exact table.nodup.append (List.nodup_singleton k) (by simpa using missing)
  val_of_not_mem := by
    intro j missing
    have ne : j ≠ k := by
      rintro rfl
      split at missing <;> simp_all
    rw [Function.update_of_ne ne]
    refine table.val_of_not_mem j fun mem => missing ?_
    split
    · exact mem
    · exact List.mem_append_left _ mem

/-- Evaluate a subscript: the key exists afterwards. -/
def touch (table : Table K V) (k : K) : Table K V :=
  table.set k (table.val k)

/-- Change the item of a key that exists, and nothing otherwise. -/
def modify (table : Table K V) (k : K) (f : V → V) : Table K V :=
  if k ∈ table.keys then table.set k (f (table.val k)) else table

/-- Change every item. -/
def mapValues (table : Table K V) (f : V → V) : Table K V where
  keys := table.keys
  val k := if k ∈ table.keys then f (table.val k) else default
  nodup := table.nodup
  val_of_not_mem k missing := by simp [missing]

/-- Remove a key. -/
def erase (table : Table K V) (k : K) : Table K V where
  keys := table.keys.erase k
  val := Function.update table.val k default
  nodup := table.nodup.erase k
  val_of_not_mem := by
    intro j missing
    by_cases same : j = k
    · subst same
      simp
    · rw [Function.update_of_ne same]
      exact table.val_of_not_mem j fun mem => missing ((List.mem_erase_of_ne same).mpr mem)

/-- A table holding one value under each of the given keys. -/
def ofKeys (keys : List K) (v : V) : Table K V :=
  keys.foldl (fun table k => table.set k v) empty

/-- The number of items with a property. -/
def count (table : Table K V) (p : V → Bool) : ℕ :=
  table.keys.countP fun k => p (table.val k)

@[simp]
theorem set_val_self (table : Table K V) (k : K) (v : V) : (table.set k v).val k = v := by
  simp [set]

@[simp]
theorem set_val_of_ne (table : Table K V) {j k : K} (ne : j ≠ k) (v : V) :
    (table.set k v).val j = table.val j := by
  simp [set, ne]

theorem set_val (table : Table K V) (j k : K) (v : V) :
    (table.set k v).val j = if j = k then v else table.val j := by
  simp [set, Function.update_apply]

theorem mem_set_keys (table : Table K V) {j k : K} (v : V) :
    j ∈ (table.set k v).keys ↔ j = k ∨ j ∈ table.keys := by
  simp only [set]
  split
  · rename_i mem
    constructor
    · exact Or.inr
    · rintro (rfl | inside)
      · exact mem
      · exact inside
  · simp [or_comm]

theorem erase_val (table : Table K V) (j k : K) :
    (table.erase k).val j = if j = k then default else table.val j := by
  simp [erase, Function.update_apply]

theorem mem_erase_keys (table : Table K V) {j k : K} :
    j ∈ (table.erase k).keys ↔ j ≠ k ∧ j ∈ table.keys :=
  table.nodup.mem_erase_iff

theorem set_keys_of_mem (table : Table K V) {k : K} (mem : k ∈ table.keys) (v : V) :
    (table.set k v).keys = table.keys := by
  simp [set, mem]

theorem touch_keys_of_mem (table : Table K V) {k : K} (mem : k ∈ table.keys) :
    (table.touch k).keys = table.keys :=
  table.set_keys_of_mem mem _

@[simp]
theorem touch_val (table : Table K V) (k : K) : (table.touch k).val = table.val := by
  simp [touch, set]

@[simp]
theorem mapValues_keys (table : Table K V) (f : V → V) : (table.mapValues f).keys = table.keys :=
  rfl

theorem mapValues_val_of_mem (table : Table K V) (f : V → V) {k : K} (mem : k ∈ table.keys) :
    (table.mapValues f).val k = f (table.val k) := by
  simp [mapValues, mem]

theorem mapValues_val (table : Table K V) (f : V → V) (j : K) :
    (table.mapValues f).val j = if j ∈ table.keys then f (table.val j) else default :=
  rfl

theorem modify_val (table : Table K V) (j k : K) (f : V → V) :
    (table.modify k f).val j = if j = k ∧ k ∈ table.keys then f (table.val k) else table.val j := by
  rw [modify]
  split
  · rename_i mem
    simp [set_val, mem]
  · rename_i missing
    simp [missing]

theorem modify_keys (table : Table K V) (k : K) (f : V → V) :
    (table.modify k f).keys = table.keys := by
  rw [modify]
  split
  · rename_i mem
    exact table.set_keys_of_mem mem _
  · rfl

private theorem foldl_set_keys (v : V) (keys : List K) (table : Table K V)
    (nodup : (table.keys ++ keys).Nodup) :
    (keys.foldl (fun table k => table.set k v) table).keys = table.keys ++ keys := by
  induction keys generalizing table with
  | nil => simp
  | cons k keys ih =>
      have missing : k ∉ table.keys := by
        intro mem
        have := (List.nodup_append.mp nodup).2.2 k mem k List.mem_cons_self
        exact this rfl
      have keys_eq : (table.set k v).keys = table.keys ++ [k] := by simp [set, missing]
      rw [List.foldl_cons, ih]
      · rw [keys_eq, List.append_assoc, List.singleton_append]
      · rw [keys_eq, List.append_assoc, List.singleton_append]
        exact nodup

theorem ofKeys_keys {keys : List K} (nodup : keys.Nodup) (v : V) :
    (ofKeys keys v).keys = keys := by
  simpa [ofKeys, empty] using foldl_set_keys v keys (empty : Table K V) (by simpa [empty])

private theorem foldl_set_val (v : V) (keys : List K) (table : Table K V) (j : K) :
    (keys.foldl (fun table k => table.set k v) table).val j =
      if j ∈ keys then v else table.val j := by
  induction keys generalizing table with
  | nil => simp
  | cons k keys ih =>
      rw [List.foldl_cons, ih, set_val]
      by_cases later : j ∈ keys <;> by_cases same : j = k <;> simp [later, same]

theorem ofKeys_val (keys : List K) (v : V) (j : K) :
    (ofKeys keys v).val j = if j ∈ keys then v else default :=
  foldl_set_val v keys empty j

private theorem mem_foldl_set_keys (v : V) (keys : List K) (table : Table K V) (j : K) :
    j ∈ (keys.foldl (fun table k => table.set k v) table).keys ↔ j ∈ keys ∨ j ∈ table.keys := by
  induction keys generalizing table with
  | nil => simp
  | cons k keys ih =>
      rw [List.foldl_cons, ih, mem_set_keys, List.mem_cons]
      tauto

theorem mem_ofKeys_keys (keys : List K) (v : V) (j : K) : j ∈ (ofKeys keys v).keys ↔ j ∈ keys := by
  rw [ofKeys, mem_foldl_set_keys]
  simp [empty]

/-- Counting items is counting the keys that carry them. -/
theorem count_eq_card (table : Table K V) (p : V → Bool) :
    table.count p = (table.keys.toFinset.filter fun k => p (table.val k)).card := by
  rw [count, List.countP_eq_length_filter, ← List.toFinset_filter,
    List.toFinset_card_of_nodup (table.nodup.filter _)]

end Table
