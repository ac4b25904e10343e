import Mathlib
import Vraft.Lib.Failing

/-!
# Items under two keys

A collection whose items are found by a number and by a name, in two ordered maps of
pointers.  A pointer may be null: so it is in a collection of which only the keys have
been read back, until the items are looked up one after another.  A collection that was
made of items with different numbers and different names is the same afterwards.
-/

universe u v

open Std

/-- Items under a number and under a name, as two maps of pointers. -/
structure Indexed (ι κ α : Type u) [Ord ι] [Ord κ] where
  byId : ExtTreeMap ι (Option α)
  byName : ExtTreeMap κ (Option α)

namespace Indexed

variable {ι κ α : Type u} [Ord ι] [TransOrd ι] [Ord κ] [TransOrd κ]

instance [LawfulEqOrd ι] [LawfulEqOrd κ] [BEq α] [LawfulBEq α] : DecidableEq (Indexed ι κ α) :=
  fun left right =>
    decidable_of_iff (left.byId = right.byId ∧ left.byName = right.byName) <| by
      rcases left with ⟨_, _⟩
      rcases right with ⟨_, _⟩
      rw [mk.injEq]

/-- No items. -/
def empty : Indexed ι κ α := ⟨∅, ∅⟩

/-- Put an item under both of its keys. -/
def add (items : Indexed ι κ α) (id : ι) (name : κ) (item : α) : Indexed ι κ α :=
  ⟨items.byId.insert id (some item), items.byName.insert name (some item)⟩

/-- A null pointer under every key. -/
def nulls (keys : List κ) : ExtTreeMap κ (Option α) :=
  keys.foldl (fun entries key => entries.insert key none) ∅

/-- The keys alone. -/
def blank (items : Indexed ι κ α) : Indexed ι κ α :=
  ⟨nulls items.byId.keys, nulls items.byName.keys⟩

/-- The items there are, in the order of their numbers. -/
def items (collection : Indexed ι κ α) : List α :=
  collection.byId.toList.filterMap fun binding => binding.2

variable (id : α → ι) (name : α → κ)

/-- Add the items of a list, one after another. -/
def addAll (items : Indexed ι κ α) (list : List α) : Indexed ι κ α :=
  list.foldl (fun items item => items.add (id item) (name item) item) items

/-- Look up the names of a collection and put in what is found. -/
def refill {ε : Type u} (look : κ → Except ε α) (items : Indexed ι κ α) :
    Except ε (Indexed ι κ α) :=
  items.byName.keys.foldlM
    (fun items key => do
      let item ← look key
      pure (items.add (id item) (name item) item)) items

/-! ## Keys and items -/

section Keys

variable {entries : ExtTreeMap κ (Option α)} {key : α → κ}

theorem mem_nulls [LawfulEqOrd κ] {keys : List κ} {k : κ} :
    k ∈ (nulls keys : ExtTreeMap κ (Option α)) ↔ k ∈ keys := by
  have all (keys : List κ) (entries : ExtTreeMap κ (Option α)) :
      k ∈ keys.foldl (fun entries key => entries.insert key none) entries ↔
        k ∈ keys ∨ k ∈ entries := by
    induction keys generalizing entries with
    | nil => simp
    | cons key keys ih =>
        rw [List.foldl_cons, ih, ExtTreeMap.mem_insert, LawfulEqCmp.compare_eq_iff_eq,
          List.mem_cons, or_left_comm, or_assoc, eq_comm]
  rw [nulls, all]
  simp

theorem nodup_keys {β : Type u} [LawfulEqOrd κ] (entries : ExtTreeMap κ β) : entries.keys.Nodup :=
  ExtTreeMap.distinct_keys.imp fun differ same =>
    differ (by rw [same]; exact ReflCmp.compare_self)

theorem toList_insert {β : Type u} [LawfulEqOrd κ] {entries : ExtTreeMap κ β} {k : κ} {value : β}
    (absent : k ∉ entries) :
    (entries.insert k value).toList.Perm ((k, value) :: entries.toList) := by
  have nodup (entries : ExtTreeMap κ β) : entries.toList.Nodup :=
    ExtTreeMap.distinct_keys_toList.imp fun differ same =>
      differ (by rw [same]; exact ReflCmp.compare_self)
  have fresh (value : β) : (k, value) ∉ entries.toList := by
    rw [ExtTreeMap.mem_toList_iff_getElem?_eq_some, ExtTreeMap.getElem?_eq_none absent]
    exact nofun
  refine (List.perm_ext_iff_of_nodup (nodup _)
    (List.nodup_cons.mpr ⟨fresh value, nodup entries⟩)).mpr fun binding => ?_
  rw [ExtTreeMap.mem_toList_iff_getElem?_eq_some, ExtTreeMap.getElem?_insert, List.mem_cons,
    ExtTreeMap.mem_toList_iff_getElem?_eq_some]
  split
  · rename_i same
    obtain rfl := LawfulEqCmp.eq_of_compare same
    constructor
    · exact fun found => .inl (Prod.ext rfl (Option.some.inj found).symm)
    · rintro (self | found)
      · exact congrArg some (congrArg Prod.snd self).symm
      · rw [ExtTreeMap.getElem?_eq_none absent] at found
        contradiction
  · rename_i differ
    refine (or_iff_right fun same => differ ?_).symm
    rw [same]
    exact ReflCmp.compare_self

theorem keys_insert {β : Type u} [LawfulEqOrd κ] {entries : ExtTreeMap κ β} {k : κ} {value : β}
    (absent : k ∉ entries) : (entries.insert k value).keys.Perm (k :: entries.keys) := by
  rw [← ExtTreeMap.map_fst_toList_eq_keys, ← ExtTreeMap.map_fst_toList_eq_keys]
  exact (toList_insert absent).map Prod.fst

theorem getElem?_inserts_of_not_mem [LawfulEqOrd κ] {list : List α} {k : κ}
    (other : k ∉ list.map key) :
    (list.foldl (fun entries item => entries.insert (key item) (some item)) entries)[k]? =
      entries[k]? := by
  induction list generalizing entries with
  | nil => rfl
  | cons item list ih =>
      rw [List.map_cons, List.mem_cons, not_or] at other
      rw [List.foldl_cons, ih other.2, ExtTreeMap.getElem?_insert,
        if_neg fun same => other.1 (LawfulEqCmp.eq_of_compare same).symm]

theorem getElem?_inserts [LawfulEqOrd κ] {list : List α} (nodup : (list.map key).Nodup) {item : α}
    (mem : item ∈ list) :
    (list.foldl (fun entries item => entries.insert (key item) (some item)) entries)[key item]? =
      some (some item) := by
  induction list generalizing entries with
  | nil => contradiction
  | cons first list ih =>
      rw [List.map_cons, List.nodup_cons] at nodup
      rw [List.foldl_cons]
      rcases List.mem_cons.mp mem with rfl | later
      · rw [getElem?_inserts_of_not_mem nodup.1, ExtTreeMap.getElem?_insert_self]
      · exact ih nodup.2 later

theorem mem_inserts [LawfulEqOrd κ] {list : List α} {k : κ} :
    k ∈ list.foldl (fun entries item => entries.insert (key item) (some item)) entries ↔
      k ∈ list.map key ∨ k ∈ entries := by
  induction list generalizing entries with
  | nil => simp
  | cons item list ih =>
      rw [List.foldl_cons, ih, ExtTreeMap.mem_insert, LawfulEqCmp.compare_eq_iff_eq,
        List.map_cons, List.mem_cons, or_left_comm, or_assoc, eq_comm]

/-- Where all keys are those of the items, it does not matter what was there before. -/
theorem inserts_eq [LawfulEqOrd κ] {list list' : List α} {entries' : ExtTreeMap κ (Option α)}
    (nodup : (list.map key).Nodup) (perm : list'.Perm list)
    (covered : ∀ k, k ∉ list.map key → entries'[k]? = entries[k]?) :
    list'.foldl (fun entries item => entries.insert (key item) (some item)) entries' =
      list.foldl (fun entries item => entries.insert (key item) (some item)) entries := by
  have nodup' : (list'.map key).Nodup := (perm.map key).nodup_iff.mpr nodup
  refine ExtTreeMap.ext_getElem? fun k => ?_
  by_cases mem : k ∈ list.map key
  · obtain ⟨item, inside, rfl⟩ := List.mem_map.mp mem
    rw [getElem?_inserts nodup inside, getElem?_inserts nodup' (perm.mem_iff.mpr inside)]
  · have mem' : k ∉ list'.map key := fun inside => mem ((perm.map key).mem_iff.mp inside)
    rw [getElem?_inserts_of_not_mem mem, getElem?_inserts_of_not_mem mem', covered k mem]

end Keys

section Filling

variable {id name}

theorem byId_addAll (items : Indexed ι κ α) (list : List α) :
    (items.addAll id name list).byId =
      list.foldl (fun entries item => entries.insert (id item) (some item)) items.byId := by
  induction list generalizing items with
  | nil => rfl
  | cons item list ih => exact ih _

theorem byName_addAll (items : Indexed ι κ α) (list : List α) :
    (items.addAll id name list).byName =
      list.foldl (fun entries item => entries.insert (name item) (some item)) items.byName := by
  induction list generalizing items with
  | nil => rfl
  | cons item list ih => exact ih _

theorem mem_byName [LawfulEqOrd κ] {list : List α} {k : κ} :
    k ∈ (addAll id name (empty : Indexed ι κ α) list).byName ↔ k ∈ list.map name := by
  rw [byName_addAll, mem_inserts]
  exact or_iff_left ExtTreeMap.not_mem_empty

theorem mem_byId [LawfulEqOrd ι] {list : List α} {i : ι} :
    i ∈ (addAll id name (empty : Indexed ι κ α) list).byId ↔ i ∈ list.map id := by
  rw [byId_addAll, mem_inserts]
  exact or_iff_left ExtTreeMap.not_mem_empty

theorem getElem?_inserts_some [LawfulEqOrd κ] {key : α → κ} {list : List α} {k : κ}
    {pointer : Option α}
    (found : (list.foldl (fun entries item => entries.insert (key item) (some item))
      (∅ : ExtTreeMap κ (Option α)))[k]? = some pointer) :
    ∃ item ∈ list, pointer = some item ∧ key item = k := by
  induction list using List.reverseRecOn with
  | nil => simp at found
  | append_singleton list item ih =>
      rw [List.foldl_append, List.foldl_cons, List.foldl_nil, ExtTreeMap.getElem?_insert] at found
      split at found
      · rename_i same
        exact ⟨item, by simp, (Option.some.inj found).symm, LawfulEqCmp.eq_of_compare same⟩
      · obtain ⟨earlier, mem, rest⟩ := ih found
        exact ⟨earlier, List.mem_append_left _ mem, rest⟩

/-- Items with different keys are bound under them. -/
theorem toList_inserts [LawfulEqOrd κ] {key : α → κ} {list : List α}
    (nodup : (list.map key).Nodup) :
    (list.foldl (fun entries item => entries.insert (key item) (some item))
      (∅ : ExtTreeMap κ (Option α))).toList.Perm (list.map fun item => (key item, some item)) := by
  refine (List.perm_ext_iff_of_nodup ?_ ?_).mpr fun binding => ?_
  · exact ExtTreeMap.distinct_keys_toList.imp fun differ same =>
      differ (by rw [same]; exact ReflCmp.compare_self)
  · refine List.Nodup.of_map Prod.fst ?_
    rwa [List.map_map]
  · rw [ExtTreeMap.mem_toList_iff_getElem?_eq_some, List.mem_map]
    constructor
    · intro found
      obtain ⟨item, mem, pointer, same⟩ := getElem?_inserts_some found
      exact ⟨item, mem, Prod.ext same pointer.symm⟩
    · rintro ⟨item, mem, rfl⟩
      exact getElem?_inserts nodup mem

theorem toList_byName [LawfulEqOrd κ] {list : List α} (nodup : (list.map name).Nodup) :
    (addAll id name (empty : Indexed ι κ α) list).byName.toList.Perm
      (list.map fun item => (name item, some item)) := by
  rw [byName_addAll]
  exact toList_inserts nodup

theorem toList_byId [LawfulEqOrd ι] {list : List α} (nodup : (list.map id).Nodup) :
    (addAll id name (empty : Indexed ι κ α) list).byId.toList.Perm
      (list.map fun item => (id item, some item)) := by
  rw [byId_addAll]
  exact toList_inserts nodup

theorem size_byName [LawfulEqOrd κ] {list : List α} (nodup : (list.map name).Nodup) :
    (addAll id name (empty : Indexed ι κ α) list).byName.size = list.length := by
  rw [← ExtTreeMap.length_toList, (toList_byName nodup).length_eq, List.length_map]

theorem size_byId [LawfulEqOrd ι] {list : List α} (nodup : (list.map id).Nodup) :
    (addAll id name (empty : Indexed ι κ α) list).byId.size = list.length := by
  rw [← ExtTreeMap.length_toList, (toList_byId nodup).length_eq, List.length_map]

/-- An item stands under its number. -/
theorem byId_addAll_join [LawfulEqOrd ι] {list : List α} (nodup : (list.map id).Nodup) {i : ι}
    {item : α} :
    (addAll id name (empty : Indexed ι κ α) list).byId[i]?.join = some item ↔
      item ∈ list ∧ id item = i := by
  rw [byId_addAll, Option.join_eq_some_iff]
  constructor
  · intro found
    obtain ⟨_, mem, pointer, key⟩ := getElem?_inserts_some found
    obtain rfl := Option.some.inj pointer
    exact ⟨mem, key⟩
  · rintro ⟨mem, rfl⟩
    exact getElem?_inserts nodup mem

theorem items_addAll [LawfulEqOrd ι] {list : List α} (nodup : (list.map id).Nodup) :
    (addAll id name (empty : Indexed ι κ α) list).items.Perm list := by
  have entries : (addAll id name (empty : Indexed ι κ α) list).byId.toList.Perm
      (list.map fun item => (id item, some item)) := toList_byId nodup
  have bindings := entries.filterMap fun binding => binding.2
  have all : (list.map fun item => (id item, some item)).filterMap (fun binding => binding.2) =
      list := by
    rw [List.filterMap_map]
    exact List.filterMap_some
  rwa [all] at bindings

/-- Looking up names of items puts in these items. -/
theorem foldlM_look (id : α → ι) {ε : Type u} {look : κ → Except ε α} {list : List α} {keys : List κ}
    (found : ∀ item ∈ list, look (name item) = .ok item) (inside : ∀ k ∈ keys, k ∈ list.map name)
    (items : Indexed ι κ α) :
    ∃ list', list'.map name = keys ∧ (∀ item ∈ list', item ∈ list) ∧
      keys.foldlM
        (fun items key => do
          let item ← look key
          pure (items.add (id item) (name item) item)) items =
        .ok (items.addAll id name list') := by
  induction keys generalizing items with
  | nil => exact ⟨[], rfl, by simp, rfl⟩
  | cons k keys ih =>
      rw [List.forall_mem_cons] at inside
      obtain ⟨item, mem, rfl⟩ := List.mem_map.mp inside.1
      obtain ⟨rest, names, all, done⟩ := ih inside.2 (items.add (id item) (name item) item)
      refine ⟨item :: rest, by rw [List.map_cons, names], ?_, ?_⟩
      · rw [List.forall_mem_cons]
        exact ⟨mem, all⟩
      · rw [List.foldlM_cons, found item mem]
        exact done

/-- A collection of items with different keys is filled again with all of them. -/
theorem refill_blank [LawfulEqOrd ι] [LawfulEqOrd κ] {ε : Type u} {look : κ → Except ε α}
    {list : List α} (ids : (list.map id).Nodup) (names : (list.map name).Nodup)
    (found : ∀ item ∈ list, look (name item) = .ok item) :
    refill id name look (addAll id name (empty : Indexed ι κ α) list).blank =
      .ok (addAll id name empty list) := by
  generalize whole : addAll id name (empty : Indexed ι κ α) list = items
  have keys (k : κ) : k ∈ items.blank.byName.keys ↔ k ∈ list.map name := by
    rw [ExtTreeMap.mem_keys, blank, mem_nulls, ExtTreeMap.mem_keys, ← whole, mem_byName]
  obtain ⟨list', same, inside, done⟩ :=
    foldlM_look id found (fun k mem => (keys k).mp mem) items.blank
  have nodup : (list'.map name).Nodup := by
    rw [same]
    exact nodup_keys _
  have perm : list'.Perm list := by
    refine (List.perm_ext_iff_of_nodup nodup.of_map names.of_map).mpr fun item => ?_
    refine ⟨inside item, fun mem => ?_⟩
    have key : name item ∈ list'.map name := by
      rw [same, keys]
      exact List.mem_map_of_mem mem
    obtain ⟨item', mem', equal⟩ := List.mem_map.mp key
    rwa [← List.inj_on_of_nodup_map names (inside item' mem') mem equal]
  rw [refill, done, Except.ok.injEq]
  have ids_eq : (items.blank.addAll id name list').byId =
      (addAll id name (empty : Indexed ι κ α) list).byId := by
    rw [byId_addAll, byId_addAll]
    refine inserts_eq ids perm fun i other => ?_
    have absent : i ∉ items.blank.byId := by
      rwa [blank, mem_nulls, ExtTreeMap.mem_keys, ← whole, mem_byId]
    rw [ExtTreeMap.getElem?_eq_none absent]
    exact (ExtTreeMap.getElem?_eq_none ExtTreeMap.not_mem_empty).symm
  have names_eq : (items.blank.addAll id name list').byName =
      (addAll id name (empty : Indexed ι κ α) list).byName := by
    rw [byName_addAll, byName_addAll]
    refine inserts_eq names perm fun k other => ?_
    have absent : k ∉ items.blank.byName := by
      rwa [← ExtTreeMap.mem_keys, keys]
    rw [ExtTreeMap.getElem?_eq_none absent]
    exact (ExtTreeMap.getElem?_eq_none ExtTreeMap.not_mem_empty).symm
  exact (congrArg₂ mk ids_eq names_eq).trans whole

end Filling

end Indexed
