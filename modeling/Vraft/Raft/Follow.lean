import Vraft.Raft.Actions
import Mathlib.Data.List.MinMax

/-!
# The stages of `OnAppendEntries`

A message that is accepted divides the log and its own entries: the log is kept
below some index and truncated from there, and a tail of the entries is
appended.  Around this the handler only notes who leads, and takes over the
commit index.
-/

namespace Vraft

/-! ## The log that results -/

namespace Log

/-- The log after all entries have been appended. -/
def appendAll (log : Log) (entries : List LogEntry) : Log :=
  entries.foldl (fun log entry => log.appendOne entry.appendEntry) log

/-- The index to truncate the log from and the entries to append then, for
entries that follow `index`. -/
def divide (log : Log) (index : ℕ) : List LogEntry → ℕ × List LogEntry
  | [] => (log.append, [])
  | entry :: rest =>
      if index + 1 < log.first then log.divide (index + 1) rest
      else if index + 1 ≤ log.last then
        if (log.getMeta (index + 1)).any fun found => found.term = entry.appendEntry.term then
          log.divide (index + 1) rest
        else (index + 1, entry :: rest)
      else (log.append, entry :: rest)

/-- The log once the entries that follow `index` have been accepted. -/
def accept (log : Log) (index : ℕ) (entries : List LogEntry) : Log :=
  (log.deleteFrom (log.divide index entries).1).appendAll (log.divide index entries).2

theorem last_lt_append (log : Log) : log.last < log.append := by
  unfold last append
  split <;> omega

theorem nothingFrom_append (log : Log) : log.NothingFrom log.append :=
  .inr log.last_lt_append

@[simp]
theorem appendAll_nil (log : Log) : log.appendAll [] = log :=
  rfl

@[simp]
theorem appendAll_cons (log : Log) (entry : LogEntry) (rest : List LogEntry) :
    log.appendAll (entry :: rest) = (log.appendOne entry.appendEntry).appendAll rest :=
  rfl

theorem le_of_mem_configsFrom {log : Log} {from_ index : ℕ} (mem : index ∈ log.configsFrom from_) :
    max from_ log.first ≤ index := by
  unfold configsFrom at mem
  split at mem
  · contradiction
  · obtain ⟨c, dropped, rfl⟩ := List.mem_map.mp mem
    rw [List.mem_filter, Bool.and_eq_true, decide_eq_true_eq] at dropped
    exact dropped.2.1

/-! ## Entries by index -/

theorem entryAt_appendOne (log : Log) (entry : AppendEntry) (index : ℕ) :
    (log.appendOne entry).entryAt index =
      if index = log.append then some entry else log.entryAt index := by
  show (if index ≤ log.base then none else (log.entries ++ [entry])[index - log.base - 1]?) =
    if index = log.base + log.entries.length + 1 then some entry
    else if index ≤ log.base then none else log.entries[index - log.base - 1]?
  by_cases compacted : index ≤ log.base
  · rw [if_pos compacted, if_pos compacted, if_neg (by omega)]
  · rw [if_neg compacted, if_neg compacted, List.getElem?_append]
    split
    · rw [if_neg (by omega)]
    · split
      · rename_i position
        have offset : index - log.base - 1 - log.entries.length = 0 := by omega
        rw [offset]
        rfl
      · rw [List.getElem?_eq_none (by simp; omega), List.getElem?_eq_none (by omega)]

theorem append_appendOne (log : Log) (entry : AppendEntry) :
    (log.appendOne entry).append = log.append + 1 := by
  simp only [append, appendOne, List.length_append, List.length_singleton]
  omega

theorem entryAt_lt {log : Log} {index : ℕ} {entry : AppendEntry}
    (found : log.entryAt index = some entry) : index < log.append := by
  unfold entryAt at found
  split at found
  · contradiction
  · obtain ⟨inside, -⟩ := List.getElem?_eq_some_iff.mp found
    unfold append
    omega

theorem index_le_last (log : Log) {index : ℕ} {entry : LogEntry}
    (found : log.get index = some entry) : entry.index ≤ log.last := by
  obtain ⟨stored, at_, rfl⟩ := Option.map_eq_some_iff.mp found
  have below := entryAt_lt at_
  have nonempty : log.entries ≠ [] := by
    intro empty
    simp [entryAt, empty] at at_
  rw [append] at below
  rw [last, if_neg nonempty]
  show index ≤ _
  omega

/-- A truncation keeps what lies before its index. -/
theorem entryAt_deleteFrom {log : Log} {from_ index : ℕ} {entry : AppendEntry}
    (found : (log.deleteFrom from_).entryAt index = some entry) :
    log.entryAt index = some entry ∧ (log.NothingFrom from_ ∨ index < max from_ log.first) := by
  unfold deleteFrom at found
  split at found
  · rename_i nothing
    exact ⟨found, .inl nothing⟩
  · simp only [entryAt] at found ⊢
    split at found
    · contradiction
    · rename_i above
      rw [List.getElem?_take] at found
      split at found
      · rw [if_neg above]
        exact ⟨found, .inr (by omega)⟩
      · contradiction

/-- The entry at the index proposes a configuration. -/
def configAt (log : Log) (index : ℕ) : Bool :=
  (log.entryAt index).any fun entry => entry.type = .config

theorem configAt_iff {log : Log} {index : ℕ} :
    log.configAt index = true ↔ ∃ entry, log.entryAt index = some entry ∧ entry.type = .config := by
  simp [configAt, Option.any_eq_true]

/-- The index of the newest entry that proposes a configuration, `0` without one. -/
def newestConfigAt (log : Log) : ℕ :=
  ((List.range log.append).filter log.configAt).foldr max 0

theorem configAt_appendOne {log : Log} {entry : AppendEntry} {index : ℕ}
    (proposes : (log.appendOne entry).configAt index = true) :
    index = log.append ∧ entry.type = .config ∨ index ≠ log.append ∧ log.configAt index = true := by
  rw [configAt, entryAt_appendOne] at proposes
  split at proposes
  · rename_i new
    exact .inl ⟨new, by simpa using proposes⟩
  · rename_i old
    exact .inr ⟨old, proposes⟩

theorem configAt_appendOne_self {log : Log} {entry : AppendEntry} (config : entry.type = .config) :
    (log.appendOne entry).configAt log.append = true := by
  simp [configAt, entryAt_appendOne, config]

theorem configAt_deleteFrom {log : Log} {from_ index : ℕ}
    (proposes : (log.deleteFrom from_).configAt index = true) :
    log.configAt index = true ∧ (log.NothingFrom from_ ∨ index < max from_ log.first) := by
  obtain ⟨entry, found, config⟩ := configAt_iff.mp proposes
  obtain ⟨found, kept⟩ := entryAt_deleteFrom found
  exact ⟨configAt_iff.mpr ⟨entry, found, config⟩, kept⟩

theorem configAt_appendAll {log : Log} {entries : List LogEntry} {index : ℕ}
    (proposes : log.configAt index = true) : (log.appendAll entries).configAt index = true := by
  induction entries generalizing log with
  | nil => exact proposes
  | cons entry rest ih =>
      apply ih
      obtain ⟨stored, found, config⟩ := configAt_iff.mp proposes
      have := entryAt_lt found
      rw [configAt_iff]
      refine ⟨stored, ?_, config⟩
      rw [entryAt_appendOne, if_neg (by omega)]
      exact found

theorem configAt_lt {log : Log} {index : ℕ} (proposes : log.configAt index = true) :
    index < log.append := by
  obtain ⟨entry, found, -⟩ := configAt_iff.mp proposes
  exact entryAt_lt found

theorem le_newestConfigAt {log : Log} {index : ℕ} (proposes : log.configAt index = true) :
    index ≤ log.newestConfigAt := by
  have mem : index ∈ (List.range log.append).filter log.configAt := by
    rw [List.mem_filter, List.mem_range]
    exact ⟨configAt_lt proposes, proposes⟩
  exact List.le_max_of_le' 0 mem le_rfl

end Log

/-! ## Entries with their indices -/

/-- The entries that follow `index`, with their indices. -/
def numbered (index : ℕ) : List AppendEntry → List LogEntry
  | [] => []
  | entry :: rest => ⟨index + 1, entry⟩ :: numbered (index + 1) rest

namespace Log

/-- How a log that reaches up to numbered entries is divided: it agrees with them
below the cut in terms, differs at the cut unless that is its end, and the tail
starts at the cut. -/
structure Divided (log : Log) (pre : ℕ) (entries : List AppendEntry) (cut : ℕ)
    (tail : List LogEntry) : Prop where
  above : max pre log.base < cut
  below : cut ≤ log.append
  tail : tail = numbered (cut - 1) (entries.drop (cut - 1 - pre))
  agrees : ∀ index, max pre log.base < index → index < cut → index ≤ pre + entries.length →
    ∃ stored sent, log.entryAt index = some stored ∧ entries[index - pre - 1]? = some sent ∧
      stored.term = sent.term
  differs : cut ≤ log.last → ∃ stored sent, log.entryAt cut = some stored ∧
    entries[cut - pre - 1]? = some sent ∧ stored.term ≠ sent.term

theorem exists_entryAt (log : Log) (index : ℕ) (above : log.base < index)
    (below : index < log.append) : ∃ entry, log.entryAt index = some entry := by
  rw [append] at below
  refine ⟨log.entries[index - log.base - 1], ?_⟩
  rw [entryAt, if_neg (by omega), List.getElem?_eq_getElem (by omega)]

/-- An entry that is skipped stands before the cut. -/
theorem Divided.skip {log : Log} {pre : ℕ} {entry : AppendEntry} {rest : List AppendEntry}
    {cut : ℕ} {tail : List LogEntry} (divided : log.Divided (pre + 1) rest cut tail)
    (matched : log.base ≤ pre → ∃ stored, log.entryAt (pre + 1) = some stored ∧
      stored.term = entry.term) : log.Divided pre (entry :: rest) cut tail := by
  have above : max (pre + 1) log.base < cut := divided.above
  have shift : ∀ index, pre + 1 < index →
      (entry :: rest)[index - pre - 1]? = rest[index - (pre + 1) - 1]? := by
    clear matched
    intro index later
    rw [show index - pre - 1 = (index - (pre + 1) - 1) + 1 by omega, List.getElem?_cons_succ]
  refine ⟨by clear matched; omega, divided.below, ?_, fun index lower upper inside => ?_,
    fun le => ?_⟩
  · clear matched
    rw [divided.tail, show cut - 1 - pre = (cut - 1 - (pre + 1)) + 1 by omega,
      List.drop_succ_cons]
  · by_cases next : index = pre + 1
    · subst next
      obtain ⟨stored, found, term⟩ := matched (Nat.le_of_lt_succ (lt_of_le_of_lt (le_max_right _ _) lower))
      refine ⟨stored, entry, found, ?_, term⟩
      rw [Nat.add_sub_cancel_left, Nat.sub_self]
      rfl
    · clear matched
      rw [List.length_cons] at inside
      rw [shift index (by omega)]
      exact divided.agrees index (by omega) upper (by omega)
  · clear matched
    rw [shift cut (by omega)]
    exact divided.differs le

theorem Divided.stop {log : Log} {pre : ℕ} {entry : AppendEntry} {rest : List AppendEntry}
    (above : log.base ≤ pre) (below : pre < log.append)
    (differs : pre + 1 ≤ log.last → ∃ stored, log.entryAt (pre + 1) = some stored ∧
      stored.term ≠ entry.term) :
    log.Divided pre (entry :: rest) (pre + 1) (numbered pre (entry :: rest)) := by
  refine ⟨by omega, below, ?_, fun index lower upper => by omega, fun le => ?_⟩
  · rw [show pre + 1 - 1 - pre = 0 by omega]
    rfl
  · obtain ⟨stored, found, term⟩ := differs le
    refine ⟨stored, entry, found, ?_, term⟩
    rw [show pre + 1 - pre - 1 = 0 by omega]
    rfl

theorem divide_numbered {log : Log} (nonempty : log.entries ≠ []) {pre : ℕ}
    (entries : List AppendEntry) (reaches : pre ≤ log.last) :
    log.Divided pre entries (log.divide pre (numbered pre entries)).1
      (log.divide pre (numbered pre entries)).2 := by
  have first_eq : log.first = log.base + 1 := if_neg nonempty
  have last_eq : log.last = log.base + log.entries.length := if_neg nonempty
  have append_eq : log.append = log.last + 1 := by
    rw [append, last_eq]
  have positive : 0 < log.entries.length := List.length_pos_iff.mpr nonempty
  induction entries generalizing pre with
  | nil =>
      refine ⟨by simp only [numbered, divide]; omega, le_rfl, ?_, fun index above _ le => ?_,
        fun le => ?_⟩
      · rw [List.drop_nil]
        rfl
      · rw [List.length_nil] at le
        omega
      · simp only [numbered, divide] at le
        omega
  | cons entry rest ih =>
      rw [numbered, divide]
      split
      · exact (ih (by omega)).skip fun le => by omega
      · split
        · rename_i held
          obtain ⟨stored, found⟩ := log.exists_entryAt (pre + 1) (by omega) (by omega)
          split
          · rename_i same
            exact (ih held).skip fun _ => ⟨stored, found, by simpa [getMeta, found] using same⟩
          · rename_i other
            refine Divided.stop (by omega) (by omega) fun _ => ⟨stored, found, ?_⟩
            simpa [getMeta, found] using other
        · have append_pre : log.append = pre + 1 := by omega
          rw [append_pre]
          exact Divided.stop (by omega) (by omega) fun le => by omega

end Log

/-! ## The stages and their asserts -/

namespace AssertSite

/-- The asserts that come before the entries are looked at. -/
def OfHead (site : AssertSite) : Prop :=
  site = stepDownTerm ∨ site = leaderCache ∨ site = getTermStateMachine

/-- The asserts of the walk over the entries. -/
def OfWalk (site : AssertSite) : Prop :=
  site = entryIndex ∨ site = truncateMeta ∨ site = truncateCommitted

/-- The asserts of an application. -/
def OfApply (site : AssertSite) : Prop :=
  site = applyGet ∨ site = applyType

end AssertSite

namespace Node

variable {n n' : Node} {msg : AppendEntries} {now : ℤ}

/-- The entries of the message are taken over. -/
def Accepts (n : Node) (msg : AppendEntries) : Prop :=
  n.started = true ∧ n.solid.term ≤ msg.term ∧ msg.preLogIndex ≤ n.lastIndex ∧
    (n.log.indexValid msg.preLogIndex = true →
      n.getTerm msg.preLogIndex = some msg.preLogTerm)

instance (n : Node) (msg : AppendEntries) : Decidable (n.Accepts msg) :=
  inferInstanceAs (Decidable (_ ∧ _ ∧ _ ∧ (_ → _)))

/-! ## Truncating and appending -/

theorem deleteFrom_append : n.deleteFrom n.log.append = .ok n := by
  rw [deleteFrom, if_pos n.log.nothingFrom_append]

/-- The log is now `log`; of the rest only configurations and managers differ. -/
structure Writes (log : Log) (n n' : Node) : Prop where
  started : n'.started = n.started
  state : n'.state = n.state
  commit : n'.commit = n.commit
  lastApply : n'.lastApply = n.lastApply
  log : n'.log = log
  solid : n'.solid = n.solid
  leader : n'.leader = n.leader
  sm : n'.sm = n.sm
  hooks : n'.hooks = n.hooks
  standby : n'.standby = n.standby

theorem Writes.refl (n : Node) : Writes n.log n n := by
  constructor <;> rfl

theorem Writes.trans {log₂ log₃ : Log} {n₁ n₂ n₃ : Node} (first : Writes log₂ n₁ n₂)
    (second : Writes log₃ n₂ n₃) : Writes log₃ n₁ n₃ where
  started := second.started.trans first.started
  state := second.state.trans first.state
  commit := second.commit.trans first.commit
  lastApply := second.lastApply.trans first.lastApply
  log := second.log
  solid := second.solid.trans first.solid
  leader := second.leader.trans first.leader
  sm := second.sm.trans first.sm
  hooks := second.hooks.trans first.hooks
  standby := second.standby.trans first.standby

theorem writes_appendOne {entry : AppendEntry} (done : n.appendOne entry = .ok n') :
    Writes (n.log.appendOne entry) n n' := by
  rcases appendOne_cases done with ⟨-, rfl⟩ | ⟨rc, n₁, config, -, -, changed, rfl⟩
  · constructor <;> rfl
  · have resized : n₁ = _ := doConfigChange_resized changed
    rw [resized]
    constructor <;> rfl

theorem writes_appendAll {entries : List LogEntry} (done : n.appendAll entries = .ok n') :
    Writes (n.log.appendAll entries) n n' := by
  induction entries generalizing n with
  | nil =>
      obtain rfl := Except.ok.inj done
      exact .refl n
  | cons entry rest ih =>
      obtain ⟨n₁, one, done⟩ := ok_of_bind_ok done
      have writes := writes_appendOne one
      have more := ih done
      rw [writes.log] at more
      exact writes.trans more

theorem writes_deleteFrom {from_ : ℕ} (done : n.deleteFrom from_ = .ok n') :
    Writes (n.log.deleteFrom from_) n n' := by
  rcases deleteFrom_cases done with ⟨nothing, rfl⟩ | ⟨-, -, rfl⟩ | ⟨dropped, n₁, -, -, rolled, rfl⟩
  · rw [Log.deleteFrom, if_pos nothing]
    exact .refl n'
  · constructor <;> rfl
  · obtain ⟨_, n₂, _, -, changed, rfl⟩ := configRollback_cases rolled
    have resized : n₂ = _ := doConfigChange_resized changed
    rw [resized]
    constructor <;> rfl

/-- Unless one of its own asserts fails, the walk over the entries comes down to
one truncation and some appends. -/
theorem acceptEntries_cases (index : ℕ) (entries : List LogEntry) :
    (∃ site : AssertSite, site.OfWalk ∧ n.acceptEntries index entries = .error (site, n)) ∨
    (((n.log.divide index entries).1 ≤ n.log.last → n.commit < (n.log.divide index entries).1) ∧
      n.acceptEntries index entries = n.deleteFrom (n.log.divide index entries).1 >>=
        fun n' => n'.appendAll (n.log.divide index entries).2) := by
  have beyond := n.log.last_lt_append
  induction entries generalizing index with
  | nil =>
      right
      rw [acceptEntries, Log.divide, deleteFrom_append]
      exact ⟨fun le => by omega, rfl⟩
  | cons entry rest ih =>
      unfold acceptEntries Log.divide check
      by_cases numbered : entry.index = index + 1
      · simp only [if_pos numbered, ok_bind]
        by_cases compacted : index + 1 < n.log.first
        · simp only [if_pos compacted]
          exact ih (index + 1)
        · simp only [if_neg compacted]
          by_cases held : index + 1 ≤ n.log.last
          · simp only [if_pos held]
            cases found : n.log.getMeta (index + 1) with
            | none => exact .inl ⟨.truncateMeta, .inr (.inl rfl), rfl⟩
            | some stored =>
                by_cases same : stored.term = entry.appendEntry.term
                · simpa [same] using ih (index + 1)
                · by_cases committed : n.commit < index + 1
                  · right
                    simp only [Option.any_some, same, decide_false, if_pos committed, ok_bind]
                    exact ⟨fun _ => committed, rfl⟩
                  · left
                    refine ⟨.truncateCommitted, .inr (.inr rfl), ?_⟩
                    simp only [if_neg same, if_neg committed]
                    rfl
          · right
            simp only [if_neg held, deleteFrom_append]
            exact ⟨fun le => by omega, rfl⟩
      · left
        refine ⟨.entryIndex, .inl rfl, ?_⟩
        simp only [if_neg numbered]
        rfl

/-- Accepting entries changes the log as `accept` says. -/
theorem writes_acceptEntries {index : ℕ} {entries : List LogEntry}
    (done : n.acceptEntries index entries = .ok n') :
    Writes (n.log.accept index entries) n n' := by
  rcases acceptEntries_cases (n := n) index entries with ⟨site, -, failed⟩ | ⟨-, ran⟩
  · rw [failed] at done
    contradiction
  · rw [ran] at done
    obtain ⟨n₁, cut, done⟩ := ok_of_bind_ok done
    have first := writes_deleteFrom cut
    have second := writes_appendAll done
    rw [first.log] at second
    exact first.trans second

/-! ## Noting who leads -/

/-- Only role, term, leader, clock, armed timers and sent messages differ. -/
structure Hears (n n' : Node) : Prop where
  started : n'.started = n.started
  commit : n'.commit = n.commit
  lastApply : n'.lastApply = n.lastApply
  log : n'.log = n.log
  configMgr : n'.configMgr = n.configMgr
  voteMgr : n'.voteMgr = n.voteMgr
  indexMgr : n'.indexMgr = n.indexMgr
  sm : n'.sm = n.sm
  snapshotMgr : n'.snapshotMgr = n.snapshotMgr
  requestVotes : n'.timerMgr.requestVotes.keys = n.timerMgr.requestVotes.keys
  heartbeats : n'.timerMgr.heartbeats.keys = n.timerMgr.heartbeats.keys
  hooks : n'.hooks = n.hooks
  changingIndex : n'.changingIndex = n.changingIndex
  standby : n'.standby = n.standby

theorem Hears.refl (n : Node) : Hears n n := by
  constructor <;> rfl

theorem Hears.trans {n₁ n₂ n₃ : Node} (first : Hears n₁ n₂) (second : Hears n₂ n₃) :
    Hears n₁ n₃ where
  started := second.started.trans first.started
  commit := second.commit.trans first.commit
  lastApply := second.lastApply.trans first.lastApply
  log := second.log.trans first.log
  configMgr := second.configMgr.trans first.configMgr
  voteMgr := second.voteMgr.trans first.voteMgr
  indexMgr := second.indexMgr.trans first.indexMgr
  sm := second.sm.trans first.sm
  snapshotMgr := second.snapshotMgr.trans first.snapshotMgr
  requestVotes := second.requestVotes.trans first.requestVotes
  heartbeats := second.heartbeats.trans first.heartbeats
  hooks := second.hooks.trans first.hooks
  changingIndex := second.changingIndex.trans first.changingIndex
  standby := second.standby.trans first.standby

theorem hears_stepDown {term : ℕ} :
    Meets (n.stepDown term) (Hears n) fun failed => failed.1 = .stepDownTerm := by
  unfold stepDown check
  split
  · rw [ok_bind]
    dsimp only
    split <;> exact Meets.ok (by constructor <;> rfl)
  · exact Meets.error rfl

theorem hears_hearLeader {src : Addr} {term : ℕ} :
    Meets (n.hearLeader src term now) (Hears n) fun failed =>
      failed.1 = .stepDownTerm ∨ failed.1 = .leaderCache := by
  unfold hearLeader
  refine Meets.bind (hears_stepDown.mono (fun _ => id) fun _ => .inl) fun n₁ hears => ?_
  dsimp only
  split
  · exact Meets.ok (hears.trans (by constructor <;> rfl))
  · unfold check
    split
    · exact Meets.ok (hears.trans (by constructor <;> rfl))
    · exact Meets.error (.inr rfl)

/-! ## Taking over the commit index -/

/-- Only the state machine and what has been applied to it differ, and a change
that is committed may have been settled. -/
structure Applies (n n' : Node) : Prop where
  started : n'.started = n.started
  commit : n'.commit = n.commit
  log : n'.log = n.log
  configMgr : n'.configMgr = n.configMgr
  voteMgr : n'.voteMgr = n.voteMgr
  indexMgr : n'.indexMgr = n.indexMgr
  snapshotMgr : n'.snapshotMgr = n.snapshotMgr
  timerMgr : n'.timerMgr = n.timerMgr
  hooks : n'.hooks = n.hooks
  smLast : n'.smLast ≤ max n.smLast n.log.last
  settles : n'.changingIndex = n.changingIndex ∧ n'.standby = n.standby ∨
    n.changingIndex ≤ n.commit ∧ n'.changingIndex = 0 ∧ n'.standby = false

theorem Applies.refl (n : Node) : Applies n n := by
  constructor
  case settles => exact .inl ⟨rfl, rfl⟩
  case smLast => exact le_max_left _ _
  all_goals rfl

theorem Applies.trans {n₁ n₂ n₃ : Node} (first : Applies n₁ n₂) (second : Applies n₂ n₃) :
    Applies n₁ n₃ where
  started := second.started.trans first.started
  commit := second.commit.trans first.commit
  log := second.log.trans first.log
  configMgr := second.configMgr.trans first.configMgr
  voteMgr := second.voteMgr.trans first.voteMgr
  indexMgr := second.indexMgr.trans first.indexMgr
  snapshotMgr := second.snapshotMgr.trans first.snapshotMgr
  timerMgr := second.timerMgr.trans first.timerMgr
  hooks := second.hooks.trans first.hooks
  smLast := by
    have := first.smLast
    have := second.smLast
    rw [first.log] at this
    omega
  settles := by
    have := first.settles
    have := second.settles
    have := first.commit
    grind

theorem applies_applyOne {index : ℕ} (le : index ≤ n.commit) :
    Meets (n.applyOne index) (Applies n) fun failed => failed.1.OfApply := by
  unfold applyOne
  split
  · exact Meets.error (.inl rfl)
  · rename_i entry found
    split
    · split
      · refine Meets.ok ?_
        constructor
        case settles => exact .inl ⟨rfl, rfl⟩
        case smLast => exact (n.log.index_le_last found).trans (le_max_right _ _)
        all_goals rfl
      · exact Meets.ok (.refl n)
    · refine Meets.ok ?_
      split
      · rename_i changing
        have index_eq : entry.index = index := by
          obtain ⟨_, _, rfl⟩ := Option.map_eq_some_iff.mp found
          rfl
        constructor
        case settles => exact .inr ⟨by omega, rfl, rfl⟩
        case smLast => exact le_max_left _ _
        all_goals rfl
      · exact .refl n
    · exact Meets.ok (.refl n)
    · exact Meets.error (.inr rfl)

theorem applies_applyFrom {index count : ℕ} (le : index + count ≤ n.commit + 1) :
    Meets (n.applyFrom index count) (Applies n) fun failed => failed.1.OfApply := by
  induction count generalizing n index with
  | zero => exact Meets.ok (.refl n)
  | succ count ih =>
      refine Meets.bind (applies_applyOne (by omega)) fun n₁ applies => ?_
      have commit := applies.commit
      exact (ih (by omega)).mono (fun _ => applies.trans) fun _ => id

theorem applies_stateMachineApply :
    Meets n.stateMachineApply (Applies n) fun failed => failed.1.OfApply := by
  unfold stateMachineApply
  split
  · refine Meets.bind (applies_applyFrom (by omega)) fun n₁ applies => Meets.ok ?_
    refine applies.trans ?_
    constructor
    case settles => exact .inl ⟨rfl, rfl⟩
    case smLast => exact le_max_left _ _
    all_goals rfl
  · exact Meets.ok (.refl n)

theorem applies_learnCommit {index : ℕ} :
    Meets (n.learnCommit index) (Applies { n with commit := max n.commit index })
      fun failed => failed.1 = .commitAboveLast ∨ failed.1.OfApply := by
  unfold learnCommit
  split
  · rename_i later
    have commit : max n.commit index = index := by omega
    rw [commit]
    dsimp only
    unfold check
    split
    · rw [ok_bind]
      exact applies_stateMachineApply.mono (fun _ => id) fun _ => .inr
    · exact Meets.error (.inl rfl)
  · have commit : max n.commit index = n.commit := by omega
    rw [commit]
    exact Meets.ok (.refl n)

/-! ## The handler -/

theorem meets_preLogMismatch {n₁ : Node} (hears : Hears n n₁) (started : n.started = true)
    (current : n.solid.term ≤ msg.term) :
    Meets (n₁.preLogMismatch msg) (fun mismatch => mismatch = false → n.Accepts msg)
      fun failed => failed.1.OfHead := by
  have last : n₁.lastIndex = n.lastIndex := by
    rw [lastIndex, lastIndex, smLast, smLast, hears.log, hears.sm]
  have term : n₁.getTerm msg.preLogIndex = n.getTerm msg.preLogIndex := by
    rw [getTerm, getTerm, hears.log, hears.sm]
  unfold preLogMismatch
  rw [last, term, hears.log]
  split
  · exact Meets.ok nofun
  · rename_i reaches
    split
    · rename_i valid
      split
      · rename_i term found
        refine Meets.ok fun same => ⟨started, current, by omega, fun _ => ?_⟩
        rw [found]
        simpa using same
      · exact Meets.error (.inr (.inr rfl))
    · rename_i invalid
      exact Meets.ok fun _ => ⟨started, current, by omega, fun valid => absurd valid invalid⟩

/-- `OnAppendEntries` stage by stage: what the acceptance of the entries and the
commit index establish holds at the end, if it is blind to what the handler
notes before and after. -/
theorem meets_onAppendEntries (accepted learned : Node → Prop) {post : Node → Prop}
    {fails : AssertSite × Node → Prop}
    (head : ∀ failed : AssertSite × Node, failed.1.OfHead → fails failed)
    (refuse : ∀ n', Hears n n' → post n')
    (accept : ∀ n₁, Hears n n₁ → n.Accepts msg →
      Meets (n₁.acceptEntries msg.preLogIndex msg.entries) accepted fails)
    (learn : ∀ n₂, accepted n₂ → Meets (n₂.learnCommit msg.commitIndex) learned fails)
    (finish : ∀ n₃ n₄, learned n₃ → Hears n₃ n₄ → post n₄) :
    Meets (n.onAppendEntries msg now) post fails := by
  unfold onAppendEntries
  split
  · exact Meets.ok (refuse _ (.refl n))
  rename_i started
  dsimp only
  split
  · exact Meets.ok (refuse _ (by constructor <;> rfl))
  rename_i current
  refine Meets.bind (hears_hearLeader.mono (fun _ => id) fun failed site => head failed ?_)
    fun n₁ hears => ?_
  · rcases site with site | site
    · exact .inl site
    · exact .inr (.inl site)
  refine Meets.bind ((meets_preLogMismatch hears (by simpa using started)
    (Nat.le_of_not_lt current)).mono (fun _ => id) head) fun mismatch accepts => ?_
  split
  · exact Meets.ok (refuse _ (hears.trans (by constructor <;> rfl)))
  · rename_i matched
    refine Meets.bind (accept n₁ hears (accepts (by simpa using matched))) fun n₂ holds => ?_
    refine Meets.bind (learn n₂ holds) fun n₃ holds => ?_
    exact Meets.ok (finish n₃ _ holds (by constructor <;> rfl))

end Node

/-- What stopping and starting leave alone. -/
theorem perform_lifecycle {n n' : Node} {op : Op} (lifecycle : op.Lifecycle)
    (done : n.perform op = .ok n') :
    n'.log = n.log ∧ n'.commit = n.commit ∧ n'.changingIndex = n.changingIndex ∧
      n'.configMgr = n.configMgr := by
  cases op with
  | stop =>
      obtain rfl := Except.ok.inj done
      exact ⟨rfl, rfl, rfl, rfl⟩
  | start sm =>
      simp only [Node.perform] at done
      split at done
      · obtain rfl := Except.ok.inj done
        exact ⟨rfl, rfl, rfl, rfl⟩
      · have hears := Node.hears_stepDown.of_ok done
        exact ⟨hears.log, hears.commit, hears.changingIndex, hears.configMgr⟩
  | _ => exact lifecycle.elim

end Vraft
