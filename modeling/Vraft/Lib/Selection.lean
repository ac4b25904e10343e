import Mathlib.Data.List.Pairwise
import Mathlib.Data.List.Sort
import Mathlib.Data.List.Perm.Basic
import Mathlib.Order.Defs.LinearOrder

/-!
# The least items of a list

A selection of the `k` least items by some key, least first.  Items with the same key
may stand for each other, so the keys of a selection are determined but not its items.
The least of several lists are found among the least of each.
-/

universe u v w

variable {α : Type u} {β : Type v} {ι : Type w} [LinearOrder β]

/-- The `k` least of some items by a key, least first. -/
structure Least (key : α → β) (k : ℕ) (items out : List α) : Prop where
  ordered : out.Pairwise fun a b => key a ≤ key b
  rest : ∃ others, (out ++ others).Perm items ∧ ∀ a ∈ out, ∀ b ∈ others, key a ≤ key b
  length : out.length = min k items.length

/-- Some items in the order of their keys. -/
def sortBy (key : α → β) (items : List α) : List α :=
  items.insertionSort fun a b => key a ≤ key b

theorem perm_sortBy (key : α → β) (items : List α) : (sortBy key items).Perm items :=
  List.perm_insertionSort _ items

theorem ordered_sortBy (key : α → β) (items : List α) :
    (sortBy key items).Pairwise fun a b => key a ≤ key b := by
  have total : Std.Total fun a b => key a ≤ key b := ⟨fun a b => le_total (key a) (key b)⟩
  have trans : IsTrans α fun a b => key a ≤ key b := ⟨fun _ _ _ => le_trans⟩
  exact List.pairwise_insertionSort _ items

/-- Keys in order are determined by the items. -/
theorem map_eq_of_ordered {key : α → β} {items items' : List α} (perm : items.Perm items')
    (ordered : items.Pairwise fun a b => key a ≤ key b)
    (ordered' : items'.Pairwise fun a b => key a ≤ key b) :
    items.map key = items'.map key := by
  refine (perm.map key).eq_of_pairwise (fun _ _ _ _ => le_antisymm) ?_ ?_
  · exact List.pairwise_map.mpr ordered
  · exact List.pairwise_map.mpr ordered'

namespace Least

variable {key : α → β} {k : ℕ} {items items' out out' : List α}

theorem of_ordered {whole : List α} (perm : whole.Perm items)
    (ordered : whole.Pairwise fun a b => key a ≤ key b) : Least key k items (whole.take k) where
  ordered := ordered.sublist (List.take_sublist k whole)
  rest := by
    refine ⟨whole.drop k, by rwa [List.take_append_drop], fun a mem b mem' => ?_⟩
    rw [← List.take_append_drop k whole, List.pairwise_append] at ordered
    exact ordered.2.2 a mem b mem'
  length := by rw [List.length_take, perm.length_eq]

/-- A selection is the front of the items in order. -/
theorem exists_ordered (least : Least key k items out) :
    ∃ whole : List α, whole.Perm items ∧ (whole.Pairwise fun a b => key a ≤ key b) ∧
      out = whole.take k := by
  obtain ⟨others, perm, below⟩ := least.rest
  have sorted := perm_sortBy key others
  refine ⟨out ++ sortBy key others, (sorted.append_left out).trans perm, ?_, ?_⟩
  · refine List.pairwise_append.mpr ⟨least.ordered, ordered_sortBy key others, ?_⟩
    exact fun a mem b mem' => below a mem b (sorted.mem_iff.mp mem')
  · have length := least.length
    have total := perm.length_eq
    rw [List.length_append] at total
    by_cases all : k ≤ out.length
    · rw [List.take_append_of_le_length all, List.take_of_length_le (by omega)]
    · have nothing : others = [] := List.length_eq_zero_iff.mp (by omega)
      rw [nothing, List.take_of_length_le (by simp [sortBy]; omega)]
      simp [sortBy]

/-- The keys of a selection are determined. -/
theorem map_eq (least : Least key k items out) (least' : Least key k items' out')
    (perm : items.Perm items') : out.map key = out'.map key := by
  obtain ⟨whole, same, ordered, rfl⟩ := least.exists_ordered
  obtain ⟨whole', same', ordered', rfl⟩ := least'.exists_ordered
  rw [List.map_take, List.map_take,
    map_eq_of_ordered ((same.trans perm).trans same'.symm) ordered ordered']

theorem of_perm (least : Least key k items out) (perm : items.Perm items') :
    Least key k items' out := by
  obtain ⟨others, whole, below⟩ := least.rest
  exact ⟨least.ordered, ⟨others, whole.trans perm, below⟩, by rw [least.length, perm.length_eq]⟩

theorem mem (least : Least key k items out) {a : α} (mem : a ∈ out) : a ∈ items := by
  obtain ⟨others, perm, -⟩ := least.rest
  exact perm.mem_iff.mp (List.mem_append_left _ mem)

/-- If there are few enough items, all are selected. -/
theorem mem_of_length_le (least : Least key k items out) (few : items.length ≤ k) {a : α}
    (mem : a ∈ items) : a ∈ out := by
  obtain ⟨others, perm, -⟩ := least.rest
  have length := perm.length_eq
  rw [List.length_append, least.length, Nat.min_eq_right few, Nat.add_eq_left,
    List.length_eq_zero_iff] at length
  rw [length, List.append_nil] at perm
  exact perm.mem_iff.mpr mem

/-- How many items are below a selected one. -/
theorem countP_lt (least : Least key k items out) {b : α} (selected : b ∈ out) :
    items.countP (fun a => key a < key b) = out.countP fun a => key a < key b := by
  obtain ⟨others, perm, below⟩ := least.rest
  have nothing : others.countP (fun a => key a < key b) = 0 :=
    List.countP_eq_zero.mpr fun a mem lt =>
      not_lt.mpr (below b selected a mem) (of_decide_eq_true lt)
  rw [← perm.countP_eq, List.countP_append, nothing, Nat.add_zero]

/-- A selection of items that stand for others with the same keys. -/
theorem map {γ : Type*} {g : α → γ} {key' : γ → β} (least : Least key k items out)
    (same : ∀ a ∈ items, key' (g a) = key a) : Least key' k (items.map g) (out.map g) := by
  obtain ⟨others, perm, below⟩ := least.rest
  have inside {a : α} (mem : a ∈ out ++ others) : key' (g a) = key a :=
    same a (perm.mem_iff.mp mem)
  refine ⟨List.pairwise_map.mpr (least.ordered.imp_of_mem fun {a b} mem mem' le => ?_),
    ⟨others.map g, ?_, ?_⟩, ?_⟩
  · rw [inside (List.mem_append_left _ mem), inside (List.mem_append_left _ mem')]
    exact le
  · rw [← List.map_append]
    exact perm.map g
  · rintro _ mem _ mem'
    obtain ⟨a, chosen, rfl⟩ := List.mem_map.mp mem
    obtain ⟨b, left, rfl⟩ := List.mem_map.mp mem'
    rw [inside (List.mem_append_left _ chosen), inside (List.mem_append_right _ left)]
    exact below a chosen b left
  · rw [List.length_map, List.length_map, least.length]

/-- The least items of several lists are the least of the least of each. -/
theorem merge {parts : List ι} {items out : ι → List α} {whole : List α}
    (each : ∀ i ∈ parts, Least key k (items i) (out i)) (perm : whole.Perm (parts.flatMap out))
    (ordered : whole.Pairwise fun a b => key a ≤ key b) :
    Least key k (parts.flatMap items) (whole.take k) := by
  have chosen (i : ι) : ∃ others, i ∈ parts → (out i ++ others).Perm (items i) ∧
      ∀ a ∈ out i, ∀ b ∈ others, key a ≤ key b := by
    by_cases mem : i ∈ parts
    · obtain ⟨others, perm, below⟩ := (each i mem).rest
      exact ⟨others, fun _ => ⟨perm, below⟩⟩
    · exact ⟨[], fun mem' => absurd mem' mem⟩
  choose others rest using chosen
  have all : (parts.flatMap out ++ parts.flatMap others).Perm (parts.flatMap items) := by
    refine (List.flatMap_append_perm parts out others).trans ?_
    exact List.Perm.flatMap_left parts fun i mem => (rest i mem).1
  have longer : (parts.flatMap out).length ≤ (parts.flatMap items).length := by
    rw [← all.length_eq, List.length_append]
    exact Nat.le_add_right _ _
  have enough {i : ι} (mem : i ∈ parts) (ne : others i ≠ []) : k ≤ (out i).length := by
    have length := (each i mem).length
    have total := (rest i mem).1.length_eq
    have positive := List.length_pos_iff.mpr ne
    rw [List.length_append] at total
    omega
  have part {i : ι} (mem : i ∈ parts) : List.Sublist (out i) (parts.flatMap out) := by
    rw [List.flatMap_def]
    exact List.sublist_flatten_of_mem (List.mem_map_of_mem mem)
  refine ⟨ordered.sublist (List.take_sublist k whole),
    ⟨whole.drop k ++ parts.flatMap others, ?_, fun a mem b mem' => ?_⟩, ?_⟩
  · rw [← List.append_assoc, List.take_append_drop]
    exact (perm.append_right _).trans all
  · rcases List.mem_append.mp mem' with later | left
    · rw [← List.take_append_drop k whole, List.pairwise_append] at ordered
      exact ordered.2.2 a mem b later
    · obtain ⟨i, inside, left⟩ := List.mem_flatMap.mp left
      by_contra above
      obtain ⟨front, back, split⟩ := List.append_of_mem mem
      have short : front.length < k := by
        have length := congrArg List.length split
        rw [List.length_take, List.length_append, List.length_cons] at length
        omega
      have whole_eq : whole = front ++ a :: (back ++ whole.drop k) := by
        calc whole = whole.take k ++ whole.drop k := (List.take_append_drop k whole).symm
          _ = _ := by rw [split, List.append_assoc, List.cons_append]
      have few : whole.countP (fun x => key x < key a) ≤ front.length := by
        have tail := (List.pairwise_append.mp (whole_eq ▸ ordered)).2.1
        have nothing : (a :: (back ++ whole.drop k)).countP (fun x => key x < key a) = 0 := by
          refine List.countP_eq_zero.mpr fun x there lt => ?_
          rcases List.mem_cons.mp there with rfl | later
          · exact lt_irrefl _ (of_decide_eq_true lt)
          · exact not_lt.mpr (List.rel_of_pairwise_cons tail later) (of_decide_eq_true lt)
        rw [whole_eq, List.countP_append, nothing, Nat.add_zero]
        exact List.countP_le_length
      have many : k ≤ whole.countP fun x => key x < key a := by
        have before : (out i).countP (fun x => key x < key a) = (out i).length :=
          List.countP_eq_length.mpr fun x there =>
            decide_eq_true (lt_of_le_of_lt ((rest i inside).2 x there b left) (not_le.mp above))
        calc k ≤ (out i).length := enough inside (List.ne_nil_of_mem left)
          _ = (out i).countP fun x => key x < key a := before.symm
          _ ≤ (parts.flatMap out).countP fun x => key x < key a := (part inside).countP_le
          _ = whole.countP fun x => key x < key a := (perm.countP_eq _).symm
      omega
  · rw [List.length_take, perm.length_eq]
    by_cases some_left : ∃ i ∈ parts, others i ≠ []
    · obtain ⟨i, inside, ne⟩ := some_left
      have := (part inside).length_le
      have := enough inside ne
      omega
    · have nothing : parts.flatMap others = [] := by
        rw [List.flatMap_eq_nil_iff]
        intro i inside
        by_contra ne
        exact some_left ⟨i, inside, ne⟩
      rw [← all.length_eq, nothing, List.append_nil]

/-- Nothing is below all selected items. -/
theorem exists_le (least : Least key k items out) (positive : 0 < k) {a : α} (mem : a ∈ items) :
    ∃ b ∈ out, key b ≤ key a := by
  obtain ⟨others, perm, below⟩ := least.rest
  rcases List.mem_append.mp (perm.mem_iff.mpr mem) with inside | outside
  · exact ⟨a, inside, le_rfl⟩
  · have length := least.length
    have some_item := List.length_pos_of_mem mem
    obtain ⟨b, selected⟩ := List.exists_mem_of_length_pos (l := out) (by omega)
    exact ⟨b, selected, below b selected a outside⟩

/-- Put together in the wrong order, the front of what was selected is a selection only
if there is nothing to choose. -/
theorem merge_reversed_iff {parts : List ι} {items out : ι → List α} {whole : List α}
    (each : ∀ i ∈ parts, Least (fun a => OrderDual.toDual (key a)) k (items i) (out i))
    (perm : whole.Perm (parts.flatMap out))
    (ordered : whole.Pairwise fun a b => key a ≤ key b) (positive : 0 < k) :
    Least (fun a => OrderDual.toDual (key a)) k (parts.flatMap items) (whole.take k) ↔
      ∀ a ∈ whole, ∀ b ∈ whole, key a = key b := by
  constructor
  · intro least
    have both := (ordered.sublist (List.take_sublist k whole)).and least.ordered
    have same : ∀ b ∈ whole.take k, ∀ b' ∈ whole.take k, key b = key b' := by
      have symmetric : Std.Symm fun a b => key a = key b := ⟨fun _ _ => Eq.symm⟩
      have pairwise : (whole.take k).Pairwise fun a b => key a = key b :=
        both.imp fun h => le_antisymm h.1 h.2
      exact fun b mem b' mem' =>
        List.Pairwise.forall_of_forall (R := fun a b => key a = key b) (fun _ _ => rfl) pairwise mem
          mem'
    have front : Least key k whole (whole.take k) := of_ordered (List.Perm.refl _) ordered
    have squeezed : ∀ a ∈ whole, ∀ b ∈ whole.take k, key a = key b := by
      intro a mem b selected
      obtain ⟨i, inside, within⟩ := List.mem_flatMap.mp (perm.mem_iff.mp mem)
      have item : a ∈ parts.flatMap items :=
        List.mem_flatMap.mpr ⟨i, inside, (each i inside).mem within⟩
      obtain ⟨lower, there, le⟩ := front.exists_le positive mem
      obtain ⟨upper, there', le'⟩ := least.exists_le positive item
      refine le_antisymm ?_ ?_
      · rw [same b selected upper there']
        exact OrderDual.toDual_le_toDual.mp le'
      · rw [same b selected lower there]
        exact le
    intro a mem b mem'
    obtain ⟨lower, there, -⟩ := front.exists_le positive mem
    rw [squeezed a mem lower there, squeezed b mem' lower there]
  · intro same
    refine merge each perm (List.pairwise_of_forall_mem_list fun a mem b mem' => ?_)
    rw [same a mem b mem']

/-- A selection has the same keys as some of the items if and only if these are all items,
or as many as are selected and none of the others is less. -/
theorem map_perm_iff {own others : List α} (least : Least key k (own ++ others) out)
    (few : own.length ≤ k) :
    (out.map key).Perm (own.map key) ↔
      others = [] ∨ own.length = k ∧ ∀ a ∈ own, ∀ b ∈ others, key a ≤ key b := by
  have length := least.length
  rw [List.length_append] at length
  constructor
  · intro perm
    have same := perm.length_eq
    rw [List.length_map, List.length_map, length] at same
    by_cases nothing : others = []
    · exact .inl nothing
    have positive := List.length_pos_iff.mpr nothing
    refine .inr ⟨by omega, fun a mem b mem' => ?_⟩
    by_contra less
    have below : key b < key a := not_le.mp less
    obtain ⟨c, selected, equal⟩ := List.mem_map.mp (perm.mem_iff.mpr (List.mem_map_of_mem mem))
    have counted := least.countP_lt selected
    have few := perm.countP_eq fun value => decide (value < key a)
    have more : 0 < others.countP fun x => key x < key a :=
      List.countP_pos_iff.mpr ⟨b, mem', decide_eq_true below⟩
    rw [List.countP_map, List.countP_map] at few
    rw [equal, List.countP_append] at counted
    simp only [Function.comp_def] at few
    omega
  · intro condition
    have selection : Least key k (own ++ others) (sortBy key own) := by
      refine ⟨ordered_sortBy key own, ⟨others, (perm_sortBy key own).append_right _, ?_⟩, ?_⟩
      · intro a mem b mem'
        rcases condition with rfl | ⟨-, least⟩
        · contradiction
        · exact least a ((perm_sortBy key own).mem_iff.mp mem) b mem'
      · rw [(perm_sortBy key own).length_eq, List.length_append]
        rcases condition with rfl | ⟨full, -⟩
        · rw [List.length_nil]
          omega
        · omega
    rw [least.map_eq selection (List.Perm.refl _)]
    exact (perm_sortBy key own).map key

end Least
