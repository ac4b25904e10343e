import Vraft.RaftLog.History

/-!
# Entries in a database

`image` is the part of a database that a run of entries takes up: the two
bindings of every entry it selects, in index order.  The main database selects
all entries and the second one the config entries.  This file says what the
operations of a store do to images.
-/

namespace Vraft

open OrderedStore

/-! ## Keys of entries -/

section Keys

variable {i j : ℕ}

theorem zeroKey_eq_dataKey : zeroKey = encodeDataKey 0 := by
  decide

theorem metaKey_eq_iff (i_lt : i < maxIndex) (j_lt : j < maxIndex) :
    u32Compare (encodeMetaKey i) (encodeMetaKey j) = .eq ↔ i = j := by
  rw [encodeMetaKey, encodeMetaKey, u32Compare_eq_iff (metaIndex_lt i) (metaIndex_lt j)]
  simp only [logIndexToMetaIndex, maxIndex] at *
  omega

theorem dataKey_eq_iff (i_lt : i < maxIndex) (j_lt : j < maxIndex) :
    u32Compare (encodeDataKey i) (encodeDataKey j) = .eq ↔ i = j := by
  rw [encodeDataKey, encodeDataKey, u32Compare_eq_iff (dataIndex_lt i) (dataIndex_lt j)]
  simp only [logIndexToDataIndex, maxIndex] at *
  omega

/-- Meta keys are odd and data keys are even. -/
theorem metaKey_ne_dataKey (i j : ℕ) : u32Compare (encodeMetaKey i) (encodeDataKey j) ≠ .eq := by
  rw [encodeMetaKey, encodeDataKey, Ne, u32Compare_eq_iff (metaIndex_lt i) (dataIndex_lt j)]
  simp only [logIndexToMetaIndex, logIndexToDataIndex]
  omega

theorem dataKey_ne_metaKey (i j : ℕ) : u32Compare (encodeDataKey i) (encodeMetaKey j) ≠ .eq := by
  rw [encodeMetaKey, encodeDataKey, Ne, u32Compare_eq_iff (dataIndex_lt i) (metaIndex_lt j)]
  simp only [logIndexToMetaIndex, logIndexToDataIndex]
  omega

/-- A key of an entry below `bound`, or the zero key. -/
def KeyBelow (bound : ℕ) (key : Bytes) : Prop :=
  ∃ index, key = encodeFixed32 index ∧ index + 1 < bound * 2

theorem KeyBelow.meta_gt {bound : ℕ} {key : Bytes} (below : KeyBelow bound key)
    (bound_lt : bound < maxIndex) : u32Compare (encodeMetaKey bound) key = .gt := by
  obtain ⟨index, rfl, lt⟩ := below
  rw [maxIndex] at bound_lt
  have positive : 0 < bound := by omega
  rw [encodeMetaKey, metaIndex_eq positive (by rwa [maxIndex])]
  exact u32Compare_eq_gt (by omega) (by omega)

theorem KeyBelow.data_gt {bound : ℕ} {key : Bytes} (below : KeyBelow bound key)
    (bound_lt : bound < maxIndex) : u32Compare (encodeDataKey bound) key = .gt := by
  obtain ⟨index, rfl, lt⟩ := below
  rw [encodeDataKey, dataIndex_eq bound_lt]
  rw [maxIndex] at bound_lt
  exact u32Compare_eq_gt (by omega) (by omega)

theorem data_gt_meta (positive : 0 < i) (bound : i < maxIndex) :
    u32Compare (encodeDataKey i) (encodeMetaKey i) = .gt := by
  rw [encodeDataKey, encodeMetaKey, dataIndex_eq bound, metaIndex_eq positive bound]
  rw [maxIndex] at bound
  exact u32Compare_eq_gt (by omega) (by omega)

end Keys

/-! ## Images -/

/-- The bindings of the entries that `keep` selects; `before` are the entries in
front of them. -/
def image (keep : AppendEntry → Bool) : List AppendEntry → List AppendEntry → List (Bytes × Bytes)
  | _, [] => []
  | before, entry :: rest =>
      (if keep entry then
        [(encodeMetaKey (before.length + 1), encodeMetaValue (metaAfter before entry)),
          (encodeDataKey (before.length + 1), entry.value)]
      else []) ++ image keep (before ++ [entry]) rest

section Images

variable {keep : AppendEntry → Bool} {before rest : List AppendEntry}

theorem image_append (keep : AppendEntry → Bool) (before first second : List AppendEntry) :
    image keep before (first ++ second) =
      image keep before first ++ image keep (before ++ first) second := by
  induction first generalizing before with
  | nil => simp [image]
  | cons entry first ih => simp [image, ih]

theorem image_singleton (before : List AppendEntry) {entry : AppendEntry} (kept : keep entry = true) :
    image keep before [entry] =
      [(encodeMetaKey (before.length + 1), encodeMetaValue (metaAfter before entry)),
        (encodeDataKey (before.length + 1), entry.value)] := by
  simp [image, kept]

theorem image_skip (before : List AppendEntry) {entry : AppendEntry} (skipped : keep entry = false) :
    image keep before [entry] = [] := by
  simp [image, skipped]

/-- A full image begins with the meta value of its first entry and ends with the
data of its last. -/
theorem image_ends (past : List AppendEntry) {kept : List AppendEntry} (nonempty : kept ≠ []) :
    (∃ mv rest, image (fun _ => true) past kept = (encodeMetaKey (past.length + 1), mv) :: rest) ∧
      ∃ value, (image (fun _ => true) past kept).getLast? =
        some (encodeDataKey (past.length + kept.length), value) := by
  constructor
  · cases kept with
    | nil => contradiction
    | cons entry rest => exact ⟨_, _, rfl⟩
  · rcases List.eq_nil_or_concat kept with empty | ⟨front, entry, rfl⟩
    · contradiction
    · refine ⟨entry.value, ?_⟩
      rw [List.concat_eq_append, image_append, List.getLast?_append, image_singleton _ rfl,
        List.length_append, List.length_append, Nat.add_assoc]
      rfl

/-- A binding belongs to one of the entries. -/
theorem mem_image {binding : Bytes × Bytes} (mem : binding ∈ image keep before rest) :
    ∃ first entry last, rest = first ++ entry :: last ∧ keep entry = true ∧
      (binding = (encodeMetaKey (before.length + first.length + 1),
          encodeMetaValue (metaAfter (before ++ first) entry)) ∨
        binding = (encodeDataKey (before.length + first.length + 1), entry.value)) := by
  induction rest generalizing before with
  | nil => simp [image] at mem
  | cons entry rest ih =>
      rw [image, List.mem_append] at mem
      rcases mem with mem | mem
      · split at mem
        · rename_i kept
          refine ⟨[], entry, rest, rfl, kept, ?_⟩
          simpa using mem
        · simp at mem
      · obtain ⟨first, found, last, rfl, kept, which⟩ := ih mem
        refine ⟨entry :: first, found, last, rfl, kept, ?_⟩
        simpa [Nat.add_assoc, Nat.add_comm 1] using which

theorem mem_image_key {binding : Bytes × Bytes} (mem : binding ∈ image keep before rest) :
    ∃ index, before.length < index ∧ index ≤ before.length + rest.length ∧
      (binding.1 = encodeMetaKey index ∨ binding.1 = encodeDataKey index) := by
  obtain ⟨first, entry, last, rfl, -, which⟩ := mem_image mem
  refine ⟨before.length + first.length + 1, by omega, ?_, ?_⟩
  · simp only [List.length_append, List.length_cons]
    omega
  · rcases which with rfl | rfl
    · exact Or.inl rfl
    · exact Or.inr rfl

theorem image_below (bound : before.length + rest.length < maxIndex) :
    ∀ binding ∈ image keep before rest, KeyBelow (before.length + rest.length + 1) binding.1 := by
  intro binding mem
  obtain ⟨index, above, below, isMeta | isData⟩ := mem_image_key mem
  · exact ⟨_, isMeta, by rw [metaIndex_eq (by omega) (by omega)]; omega⟩
  · exact ⟨_, isData, by rw [dataIndex_eq (by omega)]; omega⟩

/-! ## Reading -/

section Reading

variable {index : ℕ}

/-- An image has nothing under the keys of other indices. -/
theorem get_image_none (keep : AppendEntry → Bool) {before rest : List AppendEntry}
    (bound : before.length + rest.length < maxIndex) (index_lt : index < maxIndex)
    (outside : ¬(before.length < index ∧ index ≤ before.length + rest.length)) :
    (∀ binding ∈ image keep before rest, u32Compare binding.1 (encodeMetaKey index) ≠ .eq) ∧
      ∀ binding ∈ image keep before rest, u32Compare binding.1 (encodeDataKey index) ≠ .eq := by
  constructor <;> intro binding mem
  · obtain ⟨at_, above, below, isMeta | isData⟩ := mem_image_key mem
    · rw [isMeta, Ne, metaKey_eq_iff (by omega) index_lt]
      omega
    · rw [isData]
      exact dataKey_ne_metaKey _ _
  · obtain ⟨at_, above, below, isMeta | isData⟩ := mem_image_key mem
    · rw [isMeta]
      exact metaKey_ne_dataKey _ _
    · rw [isData, Ne, dataKey_eq_iff (by omega) index_lt]
      omega

/-- An image has the bindings of each selected entry. -/
theorem get_image {entry : AppendEntry} {after : List AppendEntry} (kept : keep entry = true)
    (rest_eq : rest = before ++ entry :: after) {past : List AppendEntry}
    (bound : past.length + rest.length < maxIndex) (index_eq : index = past.length + before.length + 1) :
    get u32Compare (image keep past rest) (encodeMetaKey index) =
        some (encodeMetaValue (metaAfter (past ++ before) entry)) ∧
      get u32Compare (image keep past rest) (encodeDataKey index) = some entry.value := by
  subst rest_eq index_eq
  simp only [List.length_append, List.length_cons] at bound
  have bound' : past.length + before.length < maxIndex := by omega
  obtain ⟨noMeta, noData⟩ := get_image_none keep bound'
    (show past.length + before.length + 1 < maxIndex by omega) (by omega)
  have same : u32Compare (encodeMetaKey (past.length + before.length + 1))
      (encodeMetaKey (past.length + before.length + 1)) = .eq :=
    (metaKey_eq_iff (by omega) (by omega)).mpr rfl
  have same' : u32Compare (encodeDataKey (past.length + before.length + 1))
      (encodeDataKey (past.length + before.length + 1)) = .eq :=
    (dataKey_eq_iff (by omega) (by omega)).mpr rfl
  rw [image_append, get_append noMeta, get_append noData, image, if_pos kept, List.length_append]
  constructor
  · exact get_cons_self same _
  · exact (get_cons_ne (metaKey_ne_dataKey _ _) _).trans (get_cons_self same' _)

end Reading

/-! ## Appending -/

/-- The batch of an entry goes behind everything below it. -/
theorem write_above {store : List (Bytes × Bytes)} {index : ℕ} (positive : 0 < index)
    (bound : index < maxIndex) (below : ∀ binding ∈ store, KeyBelow index binding.1)
    (mv value : Bytes) :
    write u32Compare store [.put (encodeMetaKey index) mv, .put (encodeDataKey index) value] =
      store ++ [(encodeMetaKey index, mv), (encodeDataKey index, value)] := by
  have first : put u32Compare (encodeMetaKey index) mv store =
      store ++ [(encodeMetaKey index, mv)] :=
    put_above fun binding mem => (below binding mem).meta_gt bound
  have second : put u32Compare (encodeDataKey index) value (store ++ [(encodeMetaKey index, mv)]) =
      store ++ [(encodeMetaKey index, mv)] ++ [(encodeDataKey index, value)] := by
    refine put_above fun binding mem => ?_
    rcases List.mem_append.mp mem with mem | mem
    · exact (below binding mem).data_gt bound
    · obtain rfl := List.mem_singleton.mp mem
      exact data_gt_meta positive bound
  calc
    _ = put u32Compare (encodeDataKey index) value (put u32Compare (encodeMetaKey index) mv store) :=
      rfl
    _ = _ := by rw [first, second, List.append_assoc]; rfl

/-- The zero key is written in place. -/
theorem write_zero (old value : Bytes) (rest : List (Bytes × Bytes)) :
    write u32Compare ((zeroKey, old) :: rest) [.put zeroKey value] = (zeroKey, value) :: rest := by
  refine put_head ?_ rest
  rw [zeroKey_eq_dataKey, dataKey_eq_iff maxIndex_pos maxIndex_pos]

/-! ## Deleting -/

section Deleting

variable {indices : List ℕ}

/-- A binding whose key is not among those of the deleted indices. -/
def live (indices : List ℕ) (binding : Bytes × Bytes) : Bool :=
  (indices.flatMap RaftLog.keysOf).all fun key => u32Compare binding.1 key != .eq

theorem write_deletes_eq (store : List (Bytes × Bytes)) (indices : List ℕ) :
    write u32Compare store (RaftLog.deletes indices) = store.filter (live indices) :=
  write_deletes store _

theorem live_iff {binding : Bytes × Bytes} :
    live indices binding = true ↔
      ∀ index ∈ indices, u32Compare binding.1 (encodeMetaKey index) ≠ .eq ∧
        u32Compare binding.1 (encodeDataKey index) ≠ .eq := by
  simp [live, RaftLog.keysOf]

theorem live_entry {index : ℕ} {key value : Bytes}
    (isKey : key = encodeMetaKey index ∨ key = encodeDataKey index) (index_lt : index < maxIndex)
    (indices_lt : ∀ index ∈ indices, index < maxIndex) :
    live indices (key, value) = true ↔ index ∉ indices := by
  rw [live_iff]
  constructor
  · intro alive mem
    rcases isKey with rfl | rfl
    · exact (alive index mem).1 ((metaKey_eq_iff index_lt index_lt).mpr rfl)
    · exact (alive index mem).2 ((dataKey_eq_iff index_lt index_lt).mpr rfl)
  · intro missing other mem
    have ne : index ≠ other := fun same => missing (same ▸ mem)
    rcases isKey with rfl | rfl
    · exact ⟨fun same => ne ((metaKey_eq_iff index_lt (indices_lt other mem)).mp same),
        metaKey_ne_dataKey _ _⟩
    · exact ⟨dataKey_ne_metaKey _ _,
        fun same => ne ((dataKey_eq_iff index_lt (indices_lt other mem)).mp same)⟩

theorem live_zero {value : Bytes} (indices_lt : ∀ index ∈ indices, index < maxIndex)
    (positive : 0 ∉ indices) : live indices (zeroKey, value) = true :=
  (live_entry (Or.inr zeroKey_eq_dataKey) maxIndex_pos indices_lt).mpr positive

theorem mem_span {index from_ to_ : ℕ} :
    index ∈ RaftLog.span from_ to_ ↔ from_ ≤ index ∧ index ≤ to_ := by
  rw [RaftLog.span, List.mem_range'_1]
  omega

/-- Entries outside the deleted indices stay. -/
theorem image_filter_live (bound : before.length + rest.length < maxIndex)
    (indices_lt : ∀ index ∈ indices, index < maxIndex)
    (outside : ∀ index ∈ indices, ¬(before.length < index ∧ index ≤ before.length + rest.length)) :
    (image keep before rest).filter (live indices) = image keep before rest := by
  rw [List.filter_eq_self]
  intro binding mem
  obtain ⟨index, above, below, isKey⟩ := mem_image_key mem
  exact (live_entry isKey (by omega) indices_lt).mpr fun mem => outside index mem ⟨above, below⟩

/-- Selected entries among the deleted indices go. -/
theorem image_filter_dead (bound : before.length + rest.length < maxIndex)
    (indices_lt : ∀ index ∈ indices, index < maxIndex)
    (inside : ∀ first entry last, rest = first ++ entry :: last → keep entry = true →
      before.length + first.length + 1 ∈ indices) :
    (image keep before rest).filter (live indices) = [] := by
  rw [List.filter_eq_nil_iff]
  intro binding mem alive
  obtain ⟨first, entry, last, rest_eq, kept, which⟩ := mem_image mem
  have isKey : binding.1 = encodeMetaKey (before.length + first.length + 1) ∨
      binding.1 = encodeDataKey (before.length + first.length + 1) := by
    rcases which with rfl | rfl
    · exact Or.inl rfl
    · exact Or.inr rfl
  have index_lt : before.length + first.length + 1 < maxIndex := by
    rw [rest_eq, List.length_append, List.length_cons] at bound
    omega
  exact (live_entry isKey index_lt indices_lt).mp alive (inside first entry last rest_eq kept)

/-- Delete what an image has behind `front`. -/
theorem write_deletes_back {past front back : List AppendEntry} {zero : Bytes}
    (bound : past.length + front.length + back.length < maxIndex)
    (range : ∀ index ∈ indices, past.length + front.length < index ∧
      index ≤ past.length + front.length + back.length)
    (covers : ∀ first entry last, back = first ++ entry :: last → keep entry = true →
      past.length + front.length + first.length + 1 ∈ indices) :
    write u32Compare ((zeroKey, zero) :: image keep past (front ++ back)) (RaftLog.deletes indices) =
      (zeroKey, zero) :: image keep past front := by
  have indices_lt : ∀ index ∈ indices, index < maxIndex :=
    fun index mem => (range index mem).2.trans_lt bound
  have zero_live : live indices (zeroKey, zero) = true :=
    live_zero indices_lt fun mem => absurd (range 0 mem).1 (Nat.not_lt_zero _)
  have front_live : (image keep past front).filter (live indices) = image keep past front := by
    refine image_filter_live (by omega) indices_lt fun index mem inside => ?_
    have := range index mem
    omega
  have back_dead : (image keep (past ++ front) back).filter (live indices) = [] := by
    refine image_filter_dead ?_ indices_lt fun first entry last back_eq kept => ?_
    · rwa [List.length_append]
    · rw [List.length_append]
      exact covers first entry last back_eq kept
  rw [write_deletes_eq, List.filter_cons_of_pos zero_live, image_append, List.filter_append,
    front_live, back_dead, List.append_nil]

/-- Delete what an image has in front of `back`. -/
theorem write_deletes_front {past front back : List AppendEntry} {zero : Bytes}
    (bound : past.length + front.length + back.length < maxIndex) :
    write u32Compare ((zeroKey, zero) :: image keep past (front ++ back))
        (RaftLog.deletes (RaftLog.span (past.length + 1) (past.length + front.length))) =
      (zeroKey, zero) :: image keep (past ++ front) back := by
  have indices_lt : ∀ index ∈ RaftLog.span (past.length + 1) (past.length + front.length),
      index < maxIndex := by
    intro index mem
    rw [mem_span] at mem
    omega
  have zero_live : live (RaftLog.span (past.length + 1) (past.length + front.length))
      (zeroKey, zero) = true :=
    live_zero indices_lt (by rw [mem_span]; omega)
  have front_dead : (image keep past front).filter
      (live (RaftLog.span (past.length + 1) (past.length + front.length))) = [] := by
    refine image_filter_dead (by omega) indices_lt fun first entry last front_eq _ => ?_
    rw [mem_span, front_eq, List.length_append, List.length_cons]
    omega
  have back_live : (image keep (past ++ front) back).filter
      (live (RaftLog.span (past.length + 1) (past.length + front.length))) =
        image keep (past ++ front) back := by
    refine image_filter_live ?_ indices_lt fun index mem inside => ?_
    · rwa [List.length_append]
    · rw [mem_span] at mem
      rw [List.length_append] at inside
      omega
  rw [write_deletes_eq, List.filter_cons_of_pos zero_live, image_append, List.filter_append,
    front_dead, back_live, List.nil_append]

end Deleting

end Images

end Vraft
