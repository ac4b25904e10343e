import Vraft.Raft.Follow

/-!
# Configurations in the log

A node finds its configuration in the log: it is the one that the newest config
entry proposes, or the one it was first started with.  The configurations
recorded beside the log are these, in the order of the log, and they stay so when
entries are appended and truncated.
-/

namespace Vraft

/-- The configuration that an entry proposes. -/
def AppendEntry.proposal (entry : AppendEntry) : Option RaftConfig :=
  if entry.type = .config then RaftConfig.fromString entry.value else none

namespace Log

variable {first : RaftConfig} {log : Log}

/-- The proposed configurations, oldest first. -/
def proposals (log : Log) : List RaftConfig :=
  log.entries.filterMap AppendEntry.proposal

/-- The newest configuration of a log that began with `first`. -/
def newest (first : RaftConfig) (log : Log) : RaftConfig :=
  log.proposals.getLast?.getD first

/-- The proposals of entries that follow an index, together with their indices. -/
def records : ℕ → List AppendEntry → List (ℕ × RaftConfig)
  | _, [] => []
  | index, entry :: rest =>
      match entry.proposal with
      | some rc => (index + 1, rc) :: records (index + 1) rest
      | none => records (index + 1) rest

/-- What is on record is the first configuration and the proposals. -/
def Records (first : RaftConfig) (log : Log) : Prop :=
  log.configs = (0, first) :: records log.base log.entries

/-! ## Lists of records -/

theorem records_append (index : ℕ) (front back : List AppendEntry) :
    records index (front ++ back) = records index front ++ records (index + front.length) back := by
  induction front generalizing index with
  | nil => rfl
  | cons entry rest ih =>
      have shift : index + (entry :: rest).length = index + 1 + rest.length := by
        rw [List.length_cons]
        omega
      rw [List.cons_append, records, records, ih, shift]
      split <;> rfl

theorem records_bounds {index : ℕ} {entries : List AppendEntry} {c : ℕ × RaftConfig}
    (mem : c ∈ records index entries) : index < c.1 ∧ c.1 ≤ index + entries.length := by
  induction entries generalizing index with
  | nil => contradiction
  | cons entry rest ih =>
      rw [List.length_cons]
      rw [records] at mem
      split at mem
      · rcases List.mem_cons.mp mem with rfl | mem
        · dsimp only
          omega
        · have := ih mem
          omega
      · have := ih mem
        omega

theorem records_snd (index : ℕ) (entries : List AppendEntry) :
    (records index entries).map Prod.snd = entries.filterMap AppendEntry.proposal := by
  induction entries generalizing index with
  | nil => rfl
  | cons entry rest ih =>
      rw [records, List.filterMap_cons]
      split
      · rename_i found
        rw [found, List.map_cons, ih]
      · rename_i found
        rw [found, ih]

/-! ## Appends and truncations -/

theorem proposals_appendOne (entry : AppendEntry) :
    (log.appendOne entry).proposals = log.proposals ++ entry.proposal.toList := by
  simp only [proposals, appendOne, List.filterMap_append]
  cases found : entry.proposal <;> simp [found]

theorem proposals_appendAll (entries : List LogEntry) :
    (log.appendAll entries).proposals =
      log.proposals ++ entries.filterMap fun entry => entry.appendEntry.proposal := by
  induction entries generalizing log with
  | nil => simp
  | cons entry rest ih =>
      rw [appendAll_cons, ih, proposals_appendOne, List.append_assoc, List.filterMap_cons]
      cases entry.appendEntry.proposal <;> rfl

theorem newest_appendOne (entry : AppendEntry) :
    (log.appendOne entry).newest first = entry.proposal.getD (log.newest first) := by
  rw [newest, proposals_appendOne]
  cases entry.proposal <;> simp [newest]

theorem Records.appendOne (on_record : log.Records first) (entry : AppendEntry) :
    (log.appendOne entry).Records first := by
  have configs : (log.appendOne entry).configs =
      log.configs ++ records (log.base + log.entries.length) [entry] := by
    simp only [Log.appendOne, records, AppendEntry.proposal, append]
    split
    · split <;> simp_all
    · simp
  rw [Records, configs, on_record, List.cons_append, ← records_append]
  rfl

/-- A truncation divides the records like the entries. -/
theorem Records.divide (on_record : log.Records first) {from_ : ℕ}
    (something : ¬log.NothingFrom from_) :
    ∃ kept dropped, log.entries = kept ++ dropped ∧ (log.deleteFrom from_).entries = kept ∧
      (log.deleteFrom from_).configs = (0, first) :: records log.base kept ∧
      log.configsFrom from_ = (records (log.base + kept.length) dropped).map Prod.fst := by
  have nonempty : log.entries ≠ [] := fun empty => something (.inl empty)
  have inside : from_ ≤ log.last := Nat.le_of_not_lt fun past => something (.inr past)
  have first_eq : log.first = log.base + 1 := if_neg nonempty
  have last_eq : log.last = log.base + log.entries.length := if_neg nonempty
  have positive : 0 < log.entries.length := List.length_pos_iff.mpr nonempty
  obtain ⟨count, from_eq⟩ : ∃ count, max from_ log.first = log.base + 1 + count :=
    Nat.exists_eq_add_of_le (by omega)
  have count_eq : max from_ log.first - log.base - 1 = count := by omega
  have kept_length : (log.entries.take count).length = count := by
    rw [List.length_take]
    omega
  have dropped_length : (log.entries.drop count).length = log.entries.length - count :=
    List.length_drop
  have on_record : log.configs = (0, first) :: (records log.base (log.entries.take count) ++
      records (log.base + count) (log.entries.drop count)) := by
    have split_ := records_append log.base (log.entries.take count) (log.entries.drop count)
    rw [List.take_append_drop, kept_length] at split_
    rw [on_record, split_]
  refine ⟨log.entries.take count, log.entries.drop count,
    (List.take_append_drop count log.entries).symm, ?_, ?_, ?_⟩
  · simp only [deleteFrom, if_neg something, count_eq]
  · simp only [deleteFrom, if_neg something]
    rw [on_record, List.filter_cons_of_pos, List.filter_append, List.filter_eq_self.mpr,
      List.filter_eq_nil_iff.mpr, List.append_nil]
    · intro c mem
      have := records_bounds mem
      simp only [Bool.not_eq_true, Bool.not_eq_false', Bool.and_eq_true, decide_eq_true_eq]
      omega
    · intro c mem
      have := records_bounds mem
      simp only [Bool.not_eq_true', Bool.and_eq_false_iff, decide_eq_false_iff_not]
      omega
    · simp only [Bool.not_eq_true', Bool.and_eq_false_iff, decide_eq_false_iff_not]
      omega
  · rw [kept_length]
    simp only [configsFrom, if_neg something]
    rw [on_record, List.filter_cons_of_neg, List.filter_append, List.filter_eq_nil_iff.mpr,
      List.filter_eq_self.mpr, List.nil_append]
    · intro c mem
      have := records_bounds mem
      simp only [Bool.and_eq_true, decide_eq_true_eq]
      omega
    · intro c mem
      have := records_bounds mem
      simp only [Bool.and_eq_true, decide_eq_true_eq]
      omega
    · simp only [Bool.and_eq_true, decide_eq_true_eq]
      omega

theorem Records.deleteFrom (on_record : log.Records first) (from_ : ℕ) :
    (log.deleteFrom from_).Records first := by
  by_cases nothing : log.NothingFrom from_
  · rw [Log.deleteFrom, if_pos nothing]
    exact on_record
  · obtain ⟨kept, dropped, -, entries, configs, -⟩ := on_record.divide nothing
    rw [Records, configs, entries, deleteFrom_base]

/-- A truncation drops the newest proposals. -/
theorem Records.proposals_deleteFrom (on_record : log.Records first) (from_ : ℕ) :
    ∃ dropped, log.proposals = (log.deleteFrom from_).proposals ++ dropped ∧
      dropped.length = (log.configsFrom from_).length := by
  by_cases nothing : log.NothingFrom from_
  · refine ⟨[], ?_, ?_⟩
    · rw [Log.deleteFrom, if_pos nothing, List.append_nil]
    · rw [configsFrom, if_pos nothing, List.length_nil, List.length_nil]
  · obtain ⟨kept, dropped, entries, rest, -, indices⟩ := on_record.divide nothing
    refine ⟨dropped.filterMap AppendEntry.proposal, ?_, ?_⟩
    · rw [proposals, proposals, rest, entries, List.filterMap_append]
    · rw [indices, ← records_snd (log.base + kept.length), List.length_map, List.length_map]

/-- `LastConfig` finds the newest configuration. -/
theorem Records.lastConfig (on_record : log.Records first) :
    log.lastConfig = some (log.newest first) := by
  rw [Log.lastConfig, ← List.getLast?_map, on_record, List.map_cons, records_snd,
    List.getLast?_cons]
  rfl

end Log

end Vraft
