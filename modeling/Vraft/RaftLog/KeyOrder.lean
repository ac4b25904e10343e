import Vraft.RaftLog.Record
import Mathlib.Data.Set.Defs

/-!
# The order of the keys

An index is doubled in 32 bits, and keys are compared through their signed difference.
Up to the index `2 ^ 30 - 1` all keys are in the lower half of the range, where this is
the order of the numbers, so that the log is stored in its own order behind the zero key.
The data key of `2 ^ 30` is before and behind the zero key.
-/

namespace Vraft

/-- A key of a database that holds the entries with these indices. -/
inductive IsKey (indices : Set ℕ) : Bytes → Prop
  | zero : IsKey indices zeroKey
  | metaKey {index : ℕ} (mem : index ∈ indices) : IsKey indices (encodeMetaKey index)
  | dataKey {index : ℕ} (mem : index ∈ indices) : IsKey indices (encodeDataKey index)

/-- The keys of these indices are ordered like the log. -/
structure OrderedLikeLog (indices : Set ℕ) : Prop where
  distinct : ∀ i ∈ indices, ∀ j ∈ indices, encodeMetaKey i ≠ encodeDataKey j ∧
    (encodeMetaKey i = encodeMetaKey j → i = j) ∧ (encodeDataKey i = encodeDataKey j → i = j)
  nonzero : ∀ i ∈ indices, encodeMetaKey i ≠ zeroKey ∧ encodeDataKey i ≠ zeroKey
  refl : ∀ a, IsKey indices a → u32Compare a a = .eq
  eq_of_compare : ∀ a b, IsKey indices a → IsKey indices b → u32Compare a b = .eq → a = b
  swap : ∀ a b, IsKey indices a → IsKey indices b → u32Compare b a = (u32Compare a b).swap
  trans : ∀ a b c, IsKey indices a → IsKey indices b → IsKey indices c →
    u32Compare a b = .lt → u32Compare b c = .lt → u32Compare a c = .lt
  least : ∀ a, IsKey indices a → a ≠ zeroKey → u32Compare zeroKey a = .lt
  between : ∀ i ∈ indices, u32Compare (encodeMetaKey i) (encodeDataKey i) = .lt ∧
    u32Compare (encodeDataKey i) (encodeMetaKey (i + 1)) = .lt
  inverse : ∀ i ∈ indices, metaIndexToLogIndex (decodeFixed32 (encodeMetaKey i)) = .ok i ∧
    dataIndexToLogIndex (decodeFixed32 (encodeDataKey i)) = .ok i
  /-- Where `SeekToLast` ends up. -/
  last : ∀ last ∈ indices, (∀ i ∈ indices, i ≤ last) → ∀ a, IsKey indices a →
    a ≠ encodeDataKey last → u32Compare a (encodeDataKey last) = .lt

section LowerHalf

variable {a b : ℕ}

/-- In the lower half of the range keys are compared as numbers. -/
theorem u32Compare_eq_compare (a_lt : a < 2 ^ 31) (b_lt : b < 2 ^ 31) :
    u32Compare (encodeFixed32 a) (encodeFixed32 b) = compare a b := by
  rcases Nat.lt_trichotomy a b with lt | rfl | gt
  · rw [Nat.compare_eq_lt.mpr lt, u32Compare, decode_key (by omega), decode_key (by omega)]
    exact if_pos (by omega)
  · rw [Nat.compare_eq_eq.mpr rfl]
    exact (u32Compare_eq_iff (by omega) (by omega)).mpr rfl
  · rw [Nat.compare_eq_gt.mpr gt]
    exact u32Compare_eq_gt a_lt gt

theorem encodeFixed32_inj (a_lt : a < 2 ^ 32) (b_lt : b < 2 ^ 32)
    (same : encodeFixed32 a = encodeFixed32 b) : a = b := by
  rw [← decode_key a_lt, same, decode_key b_lt]

end LowerHalf

section Keys

variable {indices : Set ℕ} {index : ℕ}

theorem encodeMetaKey_eq (positive : 0 < index) (bound : index ≤ maxIndex) :
    encodeMetaKey index = encodeFixed32 (2 * index - 1) := by
  rw [encodeMetaKey, logIndexToMetaIndex]
  rw [maxIndex] at bound
  exact congrArg encodeFixed32 (by omega)

theorem encodeDataKey_eq (bound : index < maxIndex) :
    encodeDataKey index = encodeFixed32 (2 * index) := by
  rw [encodeDataKey, dataIndex_eq bound, Nat.mul_comm]

/-- A key is a number of the lower half. -/
theorem IsKey.exists_eq {key : Bytes} (isKey : IsKey indices key)
    (positive : ∀ i ∈ indices, 0 < i) (bound : ∀ i ∈ indices, i < maxIndex) :
    ∃ value < 2 ^ 31, key = encodeFixed32 value := by
  cases isKey with
  | zero => exact ⟨0, by decide, zeroKey_eq⟩
  | metaKey mem =>
      have lt := bound _ mem
      refine ⟨_, ?_, encodeMetaKey_eq (positive _ mem) lt.le⟩
      rw [maxIndex] at lt
      omega
  | dataKey mem =>
      have lt := bound _ mem
      refine ⟨_, ?_, encodeDataKey_eq lt⟩
      rw [maxIndex] at lt
      omega

theorem orderedLikeLog_of_bound (positive : ∀ i ∈ indices, 0 < i)
    (bound : ∀ i ∈ indices, i < maxIndex) : OrderedLikeLog indices where
  distinct i memI j memJ := by
    have ltI := bound i memI
    have ltJ := bound j memJ
    have posI := positive i memI
    have posJ := positive j memJ
    rw [encodeMetaKey_eq posI ltI.le, encodeMetaKey_eq posJ ltJ.le, encodeDataKey_eq ltI,
      encodeDataKey_eq ltJ]
    rw [maxIndex] at ltI ltJ
    refine ⟨fun same => ?_, fun same => ?_, fun same => ?_⟩
    all_goals
      have := encodeFixed32_inj (by omega) (by omega) same
      omega
  nonzero i mem := by
    have lt := bound i mem
    have pos := positive i mem
    rw [encodeMetaKey_eq pos lt.le, encodeDataKey_eq lt, zeroKey_eq]
    rw [maxIndex] at lt
    constructor
    all_goals
      intro same
      have := encodeFixed32_inj (by omega) (by omega) same
      omega
  refl a isKey := by
    obtain ⟨value, lt, rfl⟩ := isKey.exists_eq positive bound
    rw [u32Compare_eq_compare lt lt]
    exact Nat.compare_eq_eq.mpr rfl
  eq_of_compare a b isKeyA isKeyB same := by
    obtain ⟨a, ltA, rfl⟩ := isKeyA.exists_eq positive bound
    obtain ⟨b, ltB, rfl⟩ := isKeyB.exists_eq positive bound
    rw [u32Compare_eq_compare ltA ltB] at same
    rw [Nat.compare_eq_eq.mp same]
  swap a b isKeyA isKeyB := by
    obtain ⟨a, ltA, rfl⟩ := isKeyA.exists_eq positive bound
    obtain ⟨b, ltB, rfl⟩ := isKeyB.exists_eq positive bound
    rw [u32Compare_eq_compare ltA ltB, u32Compare_eq_compare ltB ltA]
    exact (Nat.compare_swap a b).symm
  trans a b c isKeyA isKeyB isKeyC first second := by
    obtain ⟨a, ltA, rfl⟩ := isKeyA.exists_eq positive bound
    obtain ⟨b, ltB, rfl⟩ := isKeyB.exists_eq positive bound
    obtain ⟨c, ltC, rfl⟩ := isKeyC.exists_eq positive bound
    rw [u32Compare_eq_compare ltA ltB, Nat.compare_eq_lt] at first
    rw [u32Compare_eq_compare ltB ltC, Nat.compare_eq_lt] at second
    rw [u32Compare_eq_compare ltA ltC, Nat.compare_eq_lt]
    exact first.trans second
  least a isKey other := by
    obtain ⟨value, lt, rfl⟩ := isKey.exists_eq positive bound
    rw [zeroKey_eq] at other ⊢
    rw [u32Compare_eq_compare (by decide) lt, Nat.compare_eq_lt]
    exact Nat.pos_of_ne_zero fun zero => other (congrArg encodeFixed32 zero)
  between i mem := by
    have lt := bound i mem
    have pos := positive i mem
    rw [encodeMetaKey_eq pos lt.le, encodeMetaKey_eq (Nat.succ_pos i) lt, encodeDataKey_eq lt]
    rw [maxIndex] at lt
    rw [u32Compare_eq_compare (by omega) (by omega), u32Compare_eq_compare (by omega) (by omega),
      Nat.compare_eq_lt, Nat.compare_eq_lt]
    omega
  inverse i mem :=
    ⟨metaIndexToLogIndex_metaKey (positive i mem) (bound i mem),
      dataIndexToLogIndex_dataKey (bound i mem)⟩
  last last mem greatest a isKey other := by
    have lt := bound last mem
    have pos := positive last mem
    rw [encodeDataKey_eq lt] at other ⊢
    rw [maxIndex] at lt
    have below : ∃ value < 2 * last, a = encodeFixed32 value := by
      cases isKey with
      | zero => exact ⟨0, by omega, zeroKey_eq⟩
      | metaKey memI =>
          have le := greatest _ memI
          exact ⟨_, by omega, encodeMetaKey_eq (positive _ memI) (bound _ memI).le⟩
      | @dataKey i memI =>
          have le := greatest _ memI
          rw [encodeDataKey_eq (bound _ memI)] at other ⊢
          have ne : i ≠ last := fun same => other (by rw [same])
          exact ⟨_, by omega, rfl⟩
    obtain ⟨value, less, rfl⟩ := below
    rw [u32Compare_eq_compare (by omega) (by omega), Nat.compare_eq_lt]
    exact less

/-- From `2 ^ 30` on the data key is not behind the zero key, or comes from another index. -/
theorem OrderedLikeLog.lt_maxIndex (ordered : OrderedLikeLog indices) (mem : index ∈ indices) :
    index < maxIndex := by
  have inverse := (ordered.inverse index mem).2
  have behind := ordered.least _ (.dataKey mem) (ordered.nonzero index mem).2
  have before := ordered.swap _ _ .zero (.dataKey mem)
  rw [behind] at before
  rw [encodeDataKey, decode_key (dataIndex_lt index), dataIndexToLogIndex, ensure_of (by
    rw [logIndexToDataIndex]
    omega)] at inverse
  have whole : logIndexToDataIndex index / 2 = index := Except.ok.inj inverse
  rw [encodeDataKey, zeroKey_eq, u32Compare, decode_key (dataIndex_lt index),
    decode_key (by decide)] at before
  have lt := dataIndex_lt index
  rw [maxIndex]
  rw [logIndexToDataIndex] at whole lt before
  by_contra beyond
  rw [if_pos (by omega)] at before
  contradiction

/-- The keys of any indices that can be assigned are ordered like the log if and only if
no index reaches `2 ^ 30`. -/
theorem orderedLikeLog_iff (assigned : ∀ i ∈ indices, 1 ≤ i ∧ i < 2 ^ 32) :
    OrderedLikeLog indices ↔ ∀ i ∈ indices, i < maxIndex :=
  ⟨fun ordered _ => ordered.lt_maxIndex,
    fun bound => orderedLikeLog_of_bound (fun i mem => (assigned i mem).1) bound⟩

theorem orderedLikeLog_iff_three : OrderedLikeLog {index | 1 ≤ index ∧ index ≤ 3} :=
  (orderedLikeLog_iff fun i mem => ⟨mem.1, lt_of_le_of_lt mem.2 (by decide)⟩).mpr
    fun i mem => lt_of_le_of_lt mem.2 (by decide)

/-- The first index whose keys are out of order. -/
theorem not_orderedLikeLog :
    ¬∀ indices : Set ℕ, (∀ i ∈ indices, 1 ≤ i ∧ i < 2 ^ 32) → OrderedLikeLog indices := by
  intro all
  have ordered := all {index | 1 ≤ index ∧ index ≤ maxIndex} fun i mem =>
    ⟨mem.1, lt_of_le_of_lt mem.2 (by decide)⟩
  exact absurd (ordered.lt_maxIndex ⟨maxIndex_pos, le_refl maxIndex⟩) (lt_irrefl maxIndex)

end Keys

end Vraft
