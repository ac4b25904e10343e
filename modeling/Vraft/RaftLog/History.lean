import Vraft.RaftLog.Operations
import Vraft.Raft.Log

/-!
# What a log is for

The abstract log: everything that has been appended and not truncated, cut in
two where compaction has got to.  Entry `i` is the `i`-th of the whole history,
whether it is still stored or not.  The running checksum is a fold over the
history.
-/

namespace Vraft

/-- The compacted entries and those still stored. -/
structure History where
  past : List AppendEntry
  kept : List AppendEntry
  deriving DecidableEq, Repr

/-- The checksum of one entry: of its index, term, type, index and value. -/
def entryChecksum (index : ℕ) (entry : AppendEntry) : UInt32 :=
  crc32 (encodeFixed32 index ++ encodeFixed64 entry.term ++ encodeFixed32 entry.type.toU32 ++
    encodeFixed32 index ++ encodeString2 entry.value)

/-- The checksum after one more entry: that of both checksums. -/
def chained (chk : UInt32) (numbered : AppendEntry × ℕ) : UInt32 :=
  crc32 (encodeFixed32 chk.toNat ++
    encodeFixed32 (entryChecksum numbered.2 numbered.1).toNat)

/-- The running checksum of a sequence of entries numbered from `1`. -/
def chain (entries : List AppendEntry) : UInt32 :=
  (entries.zipIdx 1).foldl chained 0

/-- The meta value of an entry behind others. -/
def metaAfter (before : List AppendEntry) (entry : AppendEntry) : MetaValue where
  term := entry.term
  type := entry.type
  preChkAll := chain before
  chkThs := entryChecksum (before.length + 1) entry
  chkAll := chain (before ++ [entry])

@[simp]
theorem chain_nil : chain [] = 0 := rfl

theorem chain_concat (entries : List AppendEntry) (entry : AppendEntry) :
    chain (entries ++ [entry]) = chained (chain entries) (entry, entries.length + 1) := by
  rw [chain, List.zipIdx_append, List.foldl_append, ← chain]
  simp [Nat.add_comm]

namespace History

/-- Nothing has been appended. -/
def empty : History := ⟨[], []⟩

/-- All entries, compacted or not. -/
def all (h : History) : List AppendEntry :=
  h.past ++ h.kept

/-- The last index that has been compacted away. -/
def base (h : History) : ℕ :=
  h.past.length

/-! ## Operations -/

/-- Append at index `base + length + 1`. -/
def appendOne (h : History) (entry : AppendEntry) : History :=
  ⟨h.past, h.kept ++ [entry]⟩

/-- Keep the entries below an index. -/
def deleteFrom (h : History) (from_ : ℕ) : History :=
  ⟨h.past, h.kept.take (from_ - 1 - h.base)⟩

/-- Compact the entries up to an index. -/
def deleteUtil (h : History) (to_ : ℕ) : History :=
  ⟨h.past ++ h.kept.take (to_ - h.base), h.kept.drop (to_ - h.base)⟩

/-- What one operation does. -/
def apply (h : History) : RaftLog.Op → History
  | .appendOne entry => h.appendOne entry
  | .deleteFrom from_ => h.deleteFrom from_
  | .deleteUtil to_ => h.deleteUtil to_
  | .reopen => h

/-- What several operations do. -/
def run (h : History) (ops : List RaftLog.Op) : History :=
  ops.foldl apply h

/-! ## Readings -/

/-- The first index that is kept, or zero. -/
def first (h : History) : ℕ :=
  if h.kept = [] then 0 else h.base + 1

/-- The last index that is kept, or zero. -/
def last (h : History) : ℕ :=
  if h.kept = [] then 0 else h.base + h.kept.length

/-- The index of the next entry. -/
def append (h : History) : ℕ :=
  h.base + h.kept.length + 1

/-- The indices of the stored entries. -/
def Holds (h : History) (index : ℕ) : Prop :=
  h.base < index ∧ index ≤ h.base + h.kept.length
  deriving Decidable

/-- The stored entry under an index. -/
def entryAt (h : History) (index : ℕ) : Option AppendEntry :=
  if index ≤ h.base then none else h.kept[index - h.base - 1]?

/-- Term, type and checksums of the entry at an index. -/
def getMeta (h : History) (index : ℕ) : Option MetaValue :=
  (h.entryAt index).map (metaAfter (h.all.take (index - 1)))

/-- The entry at an index with its checksums. -/
def get (h : History) (index : ℕ) : Option CheckedEntry :=
  (h.entryAt index).map fun entry =>
    let mv := metaAfter (h.all.take (index - 1)) entry
    ⟨index, mv.preChkAll, mv.chkThs, mv.chkAll, entry⟩

/-- Term, type and checksums of the last entry. -/
def lastMeta (h : History) : Option MetaValue :=
  h.getMeta h.last

/-! ## Lengths -/

@[simp]
theorem all_length (h : History) : h.all.length = h.base + h.kept.length := by
  simp [all, base]

theorem append_eq (h : History) : h.append = h.all.length + 1 := by
  simp [append]

@[simp]
theorem appendOne_all (h : History) (entry : AppendEntry) :
    (h.appendOne entry).all = h.all ++ [entry] :=
  (List.append_assoc ..).symm

@[simp]
theorem deleteUtil_all (h : History) (to_ : ℕ) : (h.deleteUtil to_).all = h.all := by
  simp [all, deleteUtil]

theorem deleteFrom_eq_self {h : History} {from_ : ℕ} (past_end : h.kept.length ≤ from_ - 1 - h.base) :
    h.deleteFrom from_ = h := by
  rw [deleteFrom, List.take_of_length_le past_end]

theorem deleteUtil_eq_self {h : History} {to_ : ℕ} (nothing : h.kept = [] ∨ to_ ≤ h.base) :
    h.deleteUtil to_ = h := by
  obtain ⟨past, kept⟩ := h
  rcases nothing with empty | before
  · obtain rfl : kept = [] := empty
    simp [deleteUtil]
  · simp [deleteUtil, Nat.sub_eq_zero_of_le before]

/-- `First` and `Last` of a log with and without entries. -/
theorem ends (h : History) :
    h.kept = [] ∧ h.kept.length = 0 ∧ h.first = 0 ∧ h.last = 0 ∨
      h.kept ≠ [] ∧ 0 < h.kept.length ∧ h.first = h.base + 1 ∧ h.last = h.base + h.kept.length := by
  by_cases none_kept : h.kept = []
  · exact Or.inl ⟨none_kept, by simp [none_kept], if_pos none_kept, if_pos none_kept⟩
  · exact Or.inr ⟨none_kept, List.length_pos_iff.mpr none_kept, if_neg none_kept, if_neg none_kept⟩

/-- Where a stored entry stands. -/
theorem entryAt_eq_some {h : History} {index : ℕ} {entry : AppendEntry}
    (found : h.entryAt index = some entry) :
    ∃ before after, h.kept = before ++ entry :: after ∧
      index = h.base + before.length + 1 ∧ h.all.take (index - 1) = h.past ++ before := by
  rw [entryAt] at found
  split at found
  · contradiction
  · rename_i above
    obtain ⟨bound, rfl⟩ := List.getElem?_eq_some_iff.mp found
    have length_eq : (h.kept.take (index - h.base - 1)).length = index - h.base - 1 := by
      rw [List.length_take]
      omega
    refine ⟨h.kept.take (index - h.base - 1), h.kept.drop (index - h.base - 1 + 1), ?_, ?_, ?_⟩
    · rw [List.getElem_cons_drop, List.take_append_drop]
    · rw [length_eq]
      omega
    · rw [all, List.take_append, List.take_of_length_le (by rw [← base]; omega), ← base]
      congr 2
      omega

/-- Up to and including a stored entry. -/
theorem take_of_entryAt {h : History} {index : ℕ} {entry : AppendEntry}
    (found : h.entryAt index = some entry) :
    h.all.take index = h.all.take (index - 1) ++ [entry] := by
  obtain ⟨before, after, kept_eq, index_eq, take_eq⟩ := entryAt_eq_some found
  have all_eq : h.all = (h.past ++ before ++ [entry]) ++ after := by
    rw [all, kept_eq]
    simp
  rw [take_eq, all_eq]
  refine List.take_left' ?_
  simp only [List.length_append, List.length_singleton]
  exact index_eq.symm

theorem exists_entryAt {h : History} {i : ℕ} (holds : h.Holds i) :
    ∃ entry, h.entryAt i = some entry := by
  obtain ⟨above, below⟩ := holds
  refine ⟨h.kept[i - h.base - 1], ?_⟩
  rw [entryAt, if_neg (by omega), List.getElem?_eq_getElem]

/-- The last stored entry carries the running checksum. -/
theorem exists_lastMeta {h : History} (nonempty : h.kept ≠ []) :
    ∃ mv, h.lastMeta = some mv ∧ mv.chkAll = chain h.all := by
  have last_eq : h.last = h.base + h.kept.length := if_neg nonempty
  have positive := List.length_pos_iff.mpr nonempty
  have holds : h.Holds h.last := ⟨by omega, by omega⟩
  obtain ⟨entry, found⟩ := exists_entryAt holds
  refine ⟨metaAfter (h.all.take (h.last - 1)) entry, ?_, ?_⟩
  · rw [lastMeta, getMeta, found]
    rfl
  · have whole : h.all.take h.last = h.all :=
      List.take_of_length_le (by rw [all_length, last_eq])
    rw [metaAfter, ← take_of_entryAt found, whole]

theorem entryAt_eq_none {h : History} {index : ℕ} (outside : h.entryAt index = none) :
    ¬h.Holds index := by
  rintro ⟨above, below⟩
  rw [entryAt, if_neg (by omega), List.getElem?_eq_none_iff] at outside
  omega

/-- Cut the kept entries in front of a stored one. -/
theorem cut_from {h : History} {from_ : ℕ} (holds : h.Holds from_) :
    ∃ front back, h.kept = front ++ back ∧ back ≠ [] ∧ from_ = h.base + front.length + 1 ∧
      h.deleteFrom from_ = ⟨h.past, front⟩ ∧ h.all.take (from_ - 1) = h.past ++ front := by
  obtain ⟨above, below⟩ := holds
  have front_length : (h.kept.take (from_ - 1 - h.base)).length = from_ - 1 - h.base := by
    rw [List.length_take]
    omega
  refine ⟨h.kept.take (from_ - 1 - h.base), h.kept.drop (from_ - 1 - h.base),
    (List.take_append_drop ..).symm, ?_, ?_, rfl, ?_⟩
  · rw [Ne, List.drop_eq_nil_iff]
    omega
  · omega
  · have past_eq : h.past.take (from_ - 1) = h.past :=
      List.take_of_length_le (by rw [← base]; omega)
    rw [all, List.take_append, past_eq]
    rfl

/-- Cut the kept entries behind a stored one. -/
theorem cut_util {h : History} {to_ : ℕ} (holds : h.Holds to_) :
    ∃ front back, h.kept = front ++ back ∧ front ≠ [] ∧ to_ = h.base + front.length ∧
      h.deleteUtil to_ = ⟨h.past ++ front, back⟩ := by
  obtain ⟨above, below⟩ := holds
  have front_length : (h.kept.take (to_ - h.base)).length = to_ - h.base := by
    rw [List.length_take]
    omega
  refine ⟨h.kept.take (to_ - h.base), h.kept.drop (to_ - h.base),
    (List.take_append_drop ..).symm, fun empty => ?_, by omega, rfl⟩
  rw [empty, List.length_nil] at front_length
  omega

end History

end Vraft
