import Vraft.Raft.Types

/-!
# The log as a node uses it

The node's view of `RaftLog`: the entries above a compacted prefix of `base`
entries, and the configurations recorded beside them.  `First` and `Last` are
`0` when no entry is left, while `Append` always names the next index.  The
stored form that this view abstracts is treated with `RaftLog` itself.
-/

namespace Vraft

/-- The part of `MetaValue` that the protocol reads. -/
structure EntryMeta where
  term : ℕ
  type : EntryType
  deriving DecidableEq, Repr

/-- Entries `base + 1, base + 2, …` and the recorded configurations, by index. -/
structure Log where
  base : ℕ
  entries : List AppendEntry
  configs : List (ℕ × RaftConfig)
  deriving DecidableEq, Repr

namespace Log

/-- Nothing appended and nothing recorded. -/
def empty : Log := ⟨0, [], []⟩

/-- `First()`: zero for a log without entries. -/
def first (log : Log) : ℕ :=
  if log.entries = [] then 0 else log.base + 1

/-- `Last()`: zero for a log without entries. -/
def last (log : Log) : ℕ :=
  if log.entries = [] then 0 else log.base + log.entries.length

/-- `Append()`: the index of the next entry. -/
def append (log : Log) : ℕ :=
  log.base + log.entries.length + 1

/-- `IndexValid`. -/
def indexValid (log : Log) (index : ℕ) : Bool :=
  index ≠ 0 && log.first ≤ index && index ≤ log.last

/-- The entry stored under an index. -/
def entryAt (log : Log) (index : ℕ) : Option AppendEntry :=
  if index ≤ log.base then none else log.entries[index - log.base - 1]?

/-- `Get`. -/
def get (log : Log) (index : ℕ) : Option LogEntry :=
  (log.entryAt index).map fun entry => ⟨index, entry⟩

/-- `GetMeta`. -/
def getMeta (log : Log) (index : ℕ) : Option EntryMeta :=
  (log.entryAt index).map fun entry => ⟨entry.term, entry.type⟩

/-- `AppendOne` without its callback: a config entry is also recorded as the
newest configuration. -/
def appendOne (log : Log) (entry : AppendEntry) : Log where
  base := log.base
  entries := log.entries ++ [entry]
  configs :=
    if entry.type = .config then
      match RaftConfig.fromString entry.value with
      | some rc => log.configs ++ [(log.append, rc)]
      | none => log.configs
    else log.configs

/-- `DeleteFrom` leaves an empty log alone, and so it does when the index is
past the end. -/
def NothingFrom (log : Log) (from_ : ℕ) : Prop :=
  log.entries = [] ∨ log.last < from_

instance (log : Log) (from_ : ℕ) : Decidable (log.NothingFrom from_) :=
  inferInstanceAs (Decidable (_ ∨ _))

/-- The configurations that `DeleteFrom` drops, in index order. -/
def configsFrom (log : Log) (from_ : ℕ) : List ℕ :=
  if log.NothingFrom from_ then []
  else (log.configs.filter fun c => max from_ log.first ≤ c.1 && c.1 ≤ log.last).map Prod.fst

/-- Drop the entries at `from_` and after. -/
def deleteFrom (log : Log) (from_ : ℕ) : Log :=
  if log.NothingFrom from_ then log
  else
    { log with
      entries := log.entries.take (max from_ log.first - log.base - 1)
      configs := log.configs.filter fun c =>
        !(max from_ log.first ≤ c.1 && c.1 ≤ log.last) }

/-- Record the configuration a node was started with. -/
def appendFirstConfig (log : Log) (rc : RaftConfig) : Log :=
  { log with configs := (0, rc) :: log.configs }

/-- The newest recorded configuration. -/
def lastConfig (log : Log) : Option RaftConfig :=
  log.configs.getLast?.map Prod.snd

@[simp]
theorem deleteFrom_base {log : Log} {from_ : ℕ} : (log.deleteFrom from_).base = log.base := by
  rw [deleteFrom]
  split <;> rfl

/-! ## Logs without compaction -/

theorem last_of_base_zero {log : Log} (base : log.base = 0) : log.last = log.entries.length := by
  rw [last, base]
  split
  · rename_i empty
    simp [empty]
  · simp

theorem entryAt_of_base_zero {log : Log} (base : log.base = 0) (index : ℕ) :
    log.entryAt index = if index = 0 then none else log.entries[index - 1]? := by
  simp [entryAt, base]

theorem first_le_one {l : Log} (base : l.base = 0) : l.first ≤ 1 := by
  rw [first, base]
  split <;> simp

theorem indexValid_of_base_zero {log : Log} (base : log.base = 0) (index : ℕ) :
    log.indexValid index = true ↔ 0 < index ∧ index ≤ log.entries.length := by
  have := first_le_one base
  simp only [indexValid, last_of_base_zero base, Bool.and_eq_true, decide_eq_true_eq]
  omega

theorem deleteFrom_of_base_zero {log : Log} (base : log.base = 0) {from_ : ℕ}
    (positive : 0 < from_) (bound : from_ ≤ log.entries.length) :
    (log.deleteFrom from_).entries = log.entries.take (from_ - 1) := by
  have nonempty : log.entries ≠ [] := by
    intro empty
    simp [empty] at bound
    omega
  have inside : ¬log.NothingFrom from_ := by
    rw [NothingFrom, last_of_base_zero base]
    simp only [nonempty, false_or]
    omega
  have from_eq : max from_ log.first = from_ := by
    have := first_le_one base
    omega
  simp only [deleteFrom, if_neg inside, from_eq, base]
  rfl

end Log

end Vraft
