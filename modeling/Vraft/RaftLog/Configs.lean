import Vraft.RaftLog.Refinement

/-!
# Configurations on record

Config entries are written to the second database after the main one.  As long
as no crash separates the two writes of an operation that adds or drops a config
entry, the second database holds the first configuration and the config entries
of the history, also those compacted away, and `LastConfig` finds the newest of
them after every restart.
-/

namespace Vraft

open OrderedStore (write put)

/-- The entry holds a configuration. -/
def AppendEntry.isConfig (entry : AppendEntry) : Bool :=
  decide (entry.type = .config)

theorem AppendEntry.isConfig_of {entry : AppendEntry} (config : entry.type = .config) :
    entry.isConfig = true :=
  decide_eq_true config

/-- The second database holds the first configuration and the config entries. -/
structure Recorded (configDb : List (Bytes × Bytes)) (rc : RaftConfig) (all : List AppendEntry) :
    Prop where
  db_eq : configDb = (zeroKey, rc.toString) :: image AppendEntry.isConfig [] all
  terms : ∀ entry ∈ all, entry.term < 2 ^ 64
  values : ∀ entry ∈ all, entry.type = .config → (RaftConfig.fromString entry.value).isSome
  bound : all.length < maxIndex

/-- The indices of the config entries, and `0` for the first configuration. -/
def ConfigAt (all : List AppendEntry) (index : ℕ) : Prop :=
  index = 0 ∨ ∃ before entry after, all = before ++ entry :: after ∧ entry.type = .config ∧
    index = before.length + 1

/-! ## Indices of config entries -/

theorem configAt_append {all : List AppendEntry} {entry : AppendEntry} {index : ℕ} :
    ConfigAt (all ++ [entry]) index ↔
      ConfigAt all index ∨ entry.type = .config ∧ index = all.length + 1 := by
  constructor
  · rintro (rfl | ⟨before, found, after, all_eq, config, rfl⟩)
    · exact Or.inl (Or.inl rfl)
    · rcases List.eq_nil_or_concat after with rfl | ⟨rest, last, rfl⟩
      · obtain ⟨rfl, isLast⟩ := List.append_inj' all_eq rfl
        obtain rfl := List.singleton_inj.mp isLast
        exact Or.inr ⟨config, rfl⟩
      · rw [List.concat_eq_append, ← List.cons_append, ← List.append_assoc] at all_eq
        obtain ⟨rfl, -⟩ := List.append_inj' all_eq rfl
        exact Or.inl (Or.inr ⟨before, found, rest, rfl, config, rfl⟩)
  · rintro ((rfl | ⟨before, found, after, rfl, config, rfl⟩) | ⟨config, rfl⟩)
    · exact Or.inl rfl
    · exact Or.inr ⟨before, found, after ++ [entry], by simp, config, rfl⟩
    · exact Or.inr ⟨all, entry, [], rfl, config, rfl⟩

theorem configAt_iff {all : List AppendEntry} {index : ℕ} :
    ConfigAt all index ↔
      index = 0 ∨ 0 < index ∧ ∃ entry, all[index - 1]? = some entry ∧ entry.type = .config := by
  refine or_congr Iff.rfl ⟨?_, ?_⟩
  · rintro ⟨before, entry, after, rfl, config, rfl⟩
    exact ⟨Nat.succ_pos _, entry, by simp, config⟩
  · rintro ⟨positive, entry, found, config⟩
    obtain ⟨bound, rfl⟩ := List.getElem?_eq_some_iff.mp found
    refine ⟨all.take (index - 1), all[index - 1], all.drop (index - 1 + 1), ?_, config, ?_⟩
    · rw [List.getElem_cons_drop, List.take_append_drop]
    · rw [List.length_take]
      omega

/-- The config entries of a front part. -/
theorem configAt_front (front back : List AppendEntry) {index : ℕ} :
    ConfigAt front index ↔ ConfigAt (front ++ back) index ∧ index ≤ front.length := by
  rw [configAt_iff, configAt_iff]
  constructor
  · rintro (rfl | ⟨positive, entry, found, config⟩)
    · exact ⟨Or.inl rfl, Nat.zero_le _⟩
    · obtain ⟨bound, -⟩ := List.getElem?_eq_some_iff.mp found
      refine ⟨Or.inr ⟨positive, entry, ?_, config⟩, by omega⟩
      rw [List.getElem?_append_left bound, found]
  · rintro ⟨rfl | ⟨positive, entry, found, config⟩, below⟩
    · exact Or.inl rfl
    · rw [List.getElem?_append_left (by omega)] at found
      exact Or.inr ⟨positive, entry, found, config⟩

theorem ConfigAt.le {all : List AppendEntry} {index : ℕ} (at_ : ConfigAt all index) :
    index ≤ all.length := by
  rcases at_ with rfl | ⟨before, entry, after, rfl, -, rfl⟩
  · exact Nat.zero_le _
  · simp

/-! ## The second database -/

section Databases

variable {configDb : List (Bytes × Bytes)} {rc : RaftConfig} {all : List AppendEntry}

theorem configIndex_metaKey {index : ℕ} (positive : 0 < index) (bound : index < maxIndex) :
    RaftLog.configIndex (encodeMetaKey index) = index := by
  rw [RaftLog.configIndex, encodeMetaKey, decode_key (metaIndex_lt index),
    metaIndex_eq positive bound]
  rw [maxIndex] at bound
  split_ifs <;> omega

theorem configIndex_dataKey {index : ℕ} (bound : index < maxIndex) :
    RaftLog.configIndex (encodeDataKey index) = index := by
  rw [RaftLog.configIndex, encodeDataKey, decode_key (dataIndex_lt index), dataIndex_eq bound]
  split_ifs <;> omega

theorem configIndex_zeroKey : RaftLog.configIndex zeroKey = 0 := by
  decide

/-- `Init` finds the indices of the config entries. -/
theorem Recorded.mem_indices (recorded : Recorded configDb rc all) (index : ℕ) :
    index ∈ RaftLog.configIndicesOf configDb ↔ ConfigAt all index := by
  have bound := recorded.bound
  simp only [RaftLog.configIndicesOf, List.mem_toFinset, List.mem_map, recorded.db_eq]
  constructor
  · rintro ⟨binding, mem, rfl⟩
    rcases List.mem_cons.mp mem with rfl | mem
    · exact Or.inl configIndex_zeroKey
    · obtain ⟨before, entry, after, rfl, config, which⟩ := mem_image mem
      simp only [List.length_append, List.length_cons] at bound
      refine Or.inr ⟨before, entry, after, rfl, of_decide_eq_true config, ?_⟩
      rw [List.length_nil, Nat.zero_add] at which
      rcases which with rfl | rfl
      · exact configIndex_metaKey (by omega) (by omega)
      · exact configIndex_dataKey (by omega)
  · rintro (rfl | ⟨before, entry, after, rfl, config, rfl⟩)
    · exact ⟨_, List.mem_cons_self, configIndex_zeroKey⟩
    · simp only [List.length_append, List.length_cons] at bound
      refine ⟨(encodeDataKey (before.length + 1), entry.value), List.mem_cons_of_mem _ ?_,
        configIndex_dataKey (by omega)⟩
      rw [image_append, image, if_pos (AppendEntry.isConfig_of config), List.nil_append]
      simp

/-- All keys are below the next index. -/
theorem Recorded.below (recorded : Recorded configDb rc all) :
    ∀ binding ∈ configDb, KeyBelow (all.length + 1) binding.1 := by
  intro binding mem
  rw [recorded.db_eq] at mem
  rcases List.mem_cons.mp mem with rfl | mem
  · exact ⟨0, zeroKey_eq, by omega⟩
  · have bound : ([] : List AppendEntry).length + all.length < maxIndex := by
      rw [List.length_nil, Nat.zero_add]
      exact recorded.bound
    have below := image_below bound binding mem
    rwa [List.length_nil, Nat.zero_add] at below

theorem Recorded.append (recorded : Recorded configDb rc all) {entry : AppendEntry}
    (term_lt : entry.term < 2 ^ 64) (index_lt : all.length + 1 < maxIndex)
    (value : entry.type = .config → (RaftConfig.fromString entry.value).isSome) :
    Recorded (if entry.type = .config then write u32Compare configDb
      [.put (encodeMetaKey (all.length + 1)) (encodeMetaValue (metaAfter all entry)),
        .put (encodeDataKey (all.length + 1)) entry.value] else configDb) rc (all ++ [entry]) := by
  refine ⟨?_, ?_, ?_, by simpa using index_lt⟩
  · rw [image_append, List.nil_append]
    split_ifs with config
    · rw [write_above (Nat.succ_pos _) index_lt recorded.below,
        image_singleton _ (AppendEntry.isConfig_of config), recorded.db_eq, List.cons_append]
    · rw [image_skip _ (decide_eq_false config), List.append_nil, recorded.db_eq]
  · intro other mem
    rcases List.mem_append.mp mem with mem | mem
    · exact recorded.terms other mem
    · exact List.mem_singleton.mp mem ▸ term_lt
  · intro other mem
    rcases List.mem_append.mp mem with mem | mem
    · exact recorded.values other mem
    · exact List.mem_singleton.mp mem ▸ value

theorem Recorded.truncate {front back : List AppendEntry}
    (recorded : Recorded configDb rc (front ++ back)) (indices : List ℕ)
    (range : ∀ index ∈ indices, front.length < index ∧ index ≤ front.length + back.length)
    (covers : ∀ before entry after, back = before ++ entry :: after → entry.type = .config →
      front.length + before.length + 1 ∈ indices) :
    Recorded (write u32Compare configDb (RaftLog.deletes indices)) rc front := by
  have bound := recorded.bound
  rw [List.length_append] at bound
  have total : ([] : List AppendEntry).length + front.length + back.length < maxIndex := by
    simpa using bound
  refine ⟨?_, fun entry mem => recorded.terms entry (List.mem_append_left _ mem),
    fun entry mem => recorded.values entry (List.mem_append_left _ mem), by omega⟩
  rw [recorded.db_eq]
  refine write_deletes_back total ?_ fun before entry after back_eq config => ?_
  · simpa using range
  · simpa using covers before entry after back_eq (of_decide_eq_true config)

/-- Without config entries behind `front` there is nothing to delete. -/
theorem Recorded.shorten {front back : List AppendEntry}
    (recorded : Recorded configDb rc (front ++ back))
    (plain : ∀ entry ∈ back, entry.type ≠ .config) : Recorded configDb rc front := by
  have covers : ∀ before entry after, back = before ++ entry :: after → entry.type = .config →
      front.length + before.length + 1 ∈ ([] : List ℕ) := by
    rintro before entry after rfl config
    exact absurd config (plain entry (by simp))
  exact recorded.truncate [] (by simp) covers

end Databases

/-! ## Reading the newest configuration -/

/-- `LastConfig` returns the newest config entry, or the first configuration if
there is none. -/
structure ConfigsShown (log : RaftLog) (rc : RaftConfig) (all : List AppendEntry) : Prop where
  first : (∀ entry ∈ all, entry.type ≠ .config) →
    log.lastConfig = .ok (some (0, rc, ⟨0, .config, 0, 0, 0⟩))
  newest : ∀ before entry after, all = before ++ entry :: after → entry.type = .config →
    (∀ other ∈ after, other.type ≠ .config) →
    ∃ config, RaftConfig.fromString entry.value = some config ∧
      log.lastConfig = .ok (some (1, config, metaAfter before entry))

theorem image_plain {before all : List AppendEntry} (plain : ∀ entry ∈ all, entry.type ≠ .config) :
    image AppendEntry.isConfig before all = [] := by
  induction all generalizing before with
  | nil => rfl
  | cons entry rest ih =>
      rw [List.forall_mem_cons] at plain
      rw [image, if_neg (by simpa [AppendEntry.isConfig] using plain.1), ih plain.2]
      rfl

theorem configsShown_of_recorded {log : RaftLog} {rc : RaftConfig} (encodes : rc.Encodes)
    {all : List AppendEntry} (recorded : Recorded log.configDb rc all) : ConfigsShown log rc all := by
  constructor
  · intro plain
    have last_eq : log.configDb.getLast? = some (zeroKey, rc.toString) := by
      rw [recorded.db_eq, image_plain plain]
      rfl
    have zero : ¬(0 < decodeFixed32 zeroKey ∧ decodeFixed32 zeroKey < 2 ^ 31) := by decide
    simp only [RaftLog.lastConfig, last_eq, RaftConfig.fromString_toString encodes, if_neg zero]
  · rintro before entry after rfl config plain
    obtain ⟨found, decoded⟩ := Option.isSome_iff_exists.mp
      (recorded.values entry (by simp) config)
    have bound := recorded.bound
    rw [List.length_append, List.length_cons] at bound
    have db_eq : log.configDb = ((zeroKey, rc.toString) :: image AppendEntry.isConfig [] before) ++
        [(encodeMetaKey (before.length + 1), encodeMetaValue (metaAfter before entry)),
          (encodeDataKey (before.length + 1), entry.value)] := by
      rw [recorded.db_eq, image_append, image, if_pos (AppendEntry.isConfig_of config), image_plain plain]
      rfl
    have last_eq : log.configDb.getLast? = some (encodeDataKey (before.length + 1), entry.value) := by
      rw [db_eq, List.getLast?_append]
      rfl
    have prev_eq : log.configDb.dropLast.getLast? =
        some (encodeMetaKey (before.length + 1), encodeMetaValue (metaAfter before entry)) := by
      rw [db_eq, List.dropLast_append_of_ne_nil (by simp), List.getLast?_append]
      rfl
    have positive : 0 < decodeFixed32 (encodeDataKey (before.length + 1)) ∧
        decodeFixed32 (encodeDataKey (before.length + 1)) < 2 ^ 31 := by
      rw [encodeDataKey, decode_key (dataIndex_lt _), dataIndex_eq (by omega)]
      rw [maxIndex] at bound
      omega
    have term_lt : (metaAfter before entry).term < 2 ^ 64 := recorded.terms entry (by simp)
    refine ⟨found, decoded, ?_⟩
    simp only [RaftLog.lastConfig, last_eq, decoded, if_pos positive, prev_eq,
      decodeMetaValue_encodeMetaValue term_lt]
    rfl

namespace RaftLog

/-! ## Runs with crashes -/

/-- The first start of a node: open empty databases and record its
configuration. -/
def create (rc : RaftConfig) : Except LogAssert RaftLog := do
  let done ← init Stores.empty
  return (done.log.appendFirstConfig rc).log

/-- Carry out an operation, or only its first writes before a crash and a
restart. -/
inductive Move
  | finish (op : Op)
  | crash (op : Op) (count : ℕ)
  deriving DecidableEq, Repr

/-- A move of a log: an operation, or the part of its writes before a crash and the next
start. -/
def move (log : RaftLog) : Move → Except LogAssert RaftLog
  | .finish op => do
      let done ← log.apply op
      return done.log
  | .crash op count => do
      let done ← log.apply op
      let opened ← init (log.toStores.performAll (done.writes.take count))
      return opened.log

/-- All moves one after another. -/
def play (log : RaftLog) : List Move → Except LogAssert RaftLog
  | [] => .ok log
  | move :: moves => do
      let next ← log.move move
      play next moves

/-- The first write of an operation, if it makes any, is that of the main
database. -/
def Move.after (h : History) : Move → History
  | .finish op => h.apply op
  | .crash op count => if count = 0 then h else h.apply op

/-- The history after some moves. -/
def historyOf (h : History) (moves : List Move) : History :=
  moves.foldl Move.after h

/-- Entries fit, their values are short, and config entries hold a configuration. -/
def Op.Proper (h : History) : Op → Prop
  | .appendOne entry => entry.term < 2 ^ 64 ∧ h.append < maxIndex ∧
      entry.value.length < 2 ^ 28 ∧
        (entry.type = .config → (RaftConfig.fromString entry.value).isSome)
  | _ => True

/-- The operation appends or drops a config entry. -/
def Op.TouchesConfig (h : History) : Op → Prop
  | .appendOne entry => entry.type = .config
  | .deleteFrom from_ => ∃ entry ∈ h.kept.drop (from_ - 1 - h.base), entry.type = .config
  | _ => False

/-- The operation of the move is proper. -/
def Move.Proper (h : History) : Move → Prop
  | .finish op => op.Proper h
  | .crash op _ => op.Proper h

/-- No crash separates the two writes of a config entry. -/
def Move.Whole (h : History) : Move → Prop
  | .finish _ => True
  | .crash op count => count = 1 → ¬op.TouchesConfig h

/-- Every move of a run satisfies a condition on the history it finds. -/
def Along (condition : History → Move → Prop) (h : History) : List Move → Prop
  | [] => True
  | move :: moves => condition h move ∧ Along condition (move.after h) moves

/-- Both databases and the fields stand for one history. -/
structure Consistent (log : RaftLog) (rc : RaftConfig) (h : History) : Prop where
  represents : Represents log h
  recorded : Recorded log.configDb rc h.all
  indices : ∀ index, index ∈ log.configIndices ↔ ConfigAt h.all index

/-- What an operation leaves, and what a crash between two writes leaves. -/
structure Survives (log : RaftLog) (rc : RaftConfig) (h : History) (op : Op) (done : Done) :
    Prop where
  done_eq : log.apply op = .ok done
  stores_eq : done.log.toStores = log.toStores.performAll done.writes
  consistent : Consistent done.log rc (h.apply op)
  length_le : done.writes.length ≤ 2
  between : ¬op.TouchesConfig h →
    Persisted (log.toStores.performAll (done.writes.take 1)).db (h.apply op) ∧
      Recorded (log.toStores.performAll (done.writes.take 1)).configDb rc (h.apply op).all

section Operations

variable {log : RaftLog} {rc : RaftConfig} {h : History}

theorem appendOne_survives (consistent : Consistent log rc h) {entry : AppendEntry}
    (proper : (Op.appendOne entry).Proper h) :
    Survives log rc h (.appendOne entry) ⟨log.appendWrites entry (metaAfter h.all entry),
      log.appended entry (metaAfter h.all entry)⟩ := by
  obtain ⟨term_lt, append_lt, short, value⟩ := proper
  have represents := consistent.represents
  have recorded := consistent.recorded.append term_lt (h.append_eq ▸ append_lt) value
  have represents' := appended_represents represents term_lt append_lt
  have index_eq : log.nextIndex = h.all.length + 1 := by
    rw [nextIndex_eq represents.toCached, History.append_eq]
  generalize mv_eq : metaAfter h.all entry = mv at *
  have batch_eq : log.appendBatch entry mv =
      [.put (encodeMetaKey (h.all.length + 1)) (encodeMetaValue mv),
        .put (encodeDataKey (h.all.length + 1)) entry.value] := by
    rw [appendBatch, index_eq]
  have configDb_eq : (log.appended entry mv).configDb = if entry.type = .config then
      write u32Compare log.configDb (log.appendBatch entry mv) else log.configDb := by
    rw [appended, appendWrites]
    split <;> rfl
  have db_eq : (log.appended entry mv).db =
      (log.toStores.performAll ((log.appendWrites entry mv).take 1)).db := by
    rw [appended, appendWrites]
    split <;> rfl
  have first_only : (log.toStores.performAll ((log.appendWrites entry mv).take 1)).configDb =
      log.configDb := rfl
  refine ⟨mv_eq ▸ appendOne_eq represents term_lt append_lt short, rfl,
    ⟨represents', ?_, fun index => ?_⟩, ?_, fun plain => ⟨db_eq ▸ represents'.toPersisted, ?_⟩⟩
  · rw [configDb_eq, batch_eq]
    exact (h.appendOne_all entry).symm ▸ recorded
  · have indices_eq : (log.appended entry mv).configIndices = if entry.type = .config then
        insert (h.all.length + 1) log.configIndices else log.configIndices := by
      rw [← index_eq]
      rfl
    rw [indices_eq]
    show _ ↔ ConfigAt (h.appendOne entry).all index
    rw [History.appendOne_all, configAt_append, ← consistent.indices]
    split_ifs with config
    · rw [Finset.mem_insert]
      tauto
    · tauto
  · rw [appendWrites]
    split <;> simp
  · rw [first_only]
    rw [if_neg (show ¬entry.type = .config from plain)] at recorded
    exact (h.appendOne_all entry).symm ▸ recorded

theorem deleteFrom_survives (consistent : Consistent log rc h) {from_ at_ : ℕ}
    (holds : h.Holds at_) (same : h.deleteFrom from_ = h.deleteFrom at_)
    (done_eq : log.deleteFrom from_ = .ok ⟨log.truncateWrites at_ (chain (h.all.take (at_ - 1))),
      log.truncated at_ (chain (h.all.take (at_ - 1)))⟩) :
    Survives log rc h (.deleteFrom from_)
      ⟨log.truncateWrites at_ (chain (h.all.take (at_ - 1))),
        log.truncated at_ (chain (h.all.take (at_ - 1)))⟩ := by
  obtain ⟨front, back, kept_eq, back_ne, at_eq, truncated_eq, -⟩ := History.cut_from holds
  have represents' := truncated_represents consistent.represents holds
  have all_eq : h.all = (h.past ++ front) ++ back := by
    rw [History.all, kept_eq, List.append_assoc]
  have front_length : (h.past ++ front).length + 1 = at_ := by
    rw [List.length_append, at_eq, History.base]
  have last_eq : log.last = (h.past ++ front).length + back.length := by
    rw [consistent.represents.last, History.last, if_neg (by simp [kept_eq, back_ne]), kept_eq,
      List.length_append, List.length_append, History.base, Nat.add_assoc]
  have apply_eq : h.apply (.deleteFrom from_) = ⟨h.past, front⟩ := same.trans truncated_eq
  have recorded := consistent.recorded
  rw [all_eq] at recorded
  have mem_gone : ∀ index, index ∈ log.configsFrom at_ ↔
      (at_ ≤ index ∧ index ≤ log.last) ∧ ConfigAt h.all index := by
    intro index
    rw [configsFrom, List.mem_filter, mem_span, decide_eq_true_eq, consistent.indices]
  have cut : Recorded (write u32Compare log.configDb (deletes (log.configsFrom at_))) rc
      (h.past ++ front) := by
    refine recorded.truncate _ (fun index mem => ?_) fun before entry after back_eq config => ?_
    · have := ((mem_gone index).mp mem).1
      omega
    · refine (mem_gone _).mpr ⟨?_, Or.inr ⟨h.past ++ front ++ before, entry, after, ?_, config, ?_⟩⟩
      · have := congrArg List.length back_eq
        rw [List.length_append, List.length_cons] at this
        omega
      · rw [all_eq, back_eq, List.append_assoc, List.append_assoc, List.append_assoc]
      · simp only [List.length_append]
  refine ⟨done_eq, rfl, ⟨?_, ?_, fun index => ?_⟩, le_rfl, fun plain => ⟨?_, ?_⟩⟩
  · rw [apply_eq, ← truncated_eq]
    exact represents'
  · rw [apply_eq]
    exact cut
  · rw [apply_eq]
    show index ∈ log.configIndices \ (log.configsFrom at_).toFinset ↔ ConfigAt (h.past ++ front) index
    rw [Finset.mem_sdiff, List.mem_toFinset, mem_gone, consistent.indices,
      configAt_front (h.past ++ front) back, ← all_eq]
    constructor
    · rintro ⟨configAt, stays⟩
      have below := configAt.le
      rw [all_eq, List.length_append] at below
      refine ⟨configAt, ?_⟩
      by_contra above
      exact stays ⟨by omega, configAt⟩
    · rintro ⟨configAt, below⟩
      exact ⟨configAt, fun gone => by omega⟩
  · rw [apply_eq, ← truncated_eq]
    exact represents'.toPersisted
  · rw [apply_eq]
    refine recorded.shorten fun entry mem config => plain ⟨entry, ?_, config⟩
    have taken : h.kept.take (from_ - 1 - h.base) = front :=
      congrArg History.kept (same.trans truncated_eq)
    have dropped : h.kept.drop (from_ - 1 - h.base) = back := by
      have whole := List.take_append_drop (from_ - 1 - h.base) h.kept
      rw [taken, kept_eq] at whole
      rw [kept_eq]
      exact List.append_cancel_left whole
    rwa [dropped]

theorem deleteUtil_survives (consistent : Consistent log rc h) {to_ at_ : ℕ}
    (holds : h.Holds at_) (same : h.deleteUtil to_ = h.deleteUtil at_)
    (done_eq : log.deleteUtil to_ =
      .ok ⟨log.compactWrites at_ (chain h.all), log.compacted at_ (chain h.all)⟩) :
    Survives log rc h (.deleteUtil to_)
      ⟨log.compactWrites at_ (chain h.all), log.compacted at_ (chain h.all)⟩ := by
  have represents' := compacted_represents consistent.represents holds
  have apply_eq : h.apply (.deleteUtil to_) = h.deleteUtil at_ := same
  have all_eq : (h.apply (.deleteUtil to_)).all = h.all := History.deleteUtil_all h to_
  refine ⟨done_eq, rfl, ⟨apply_eq ▸ represents', ?_, fun index => ?_⟩, Nat.le_succ 1, fun _ => ⟨?_, ?_⟩⟩
  · rw [all_eq]
    exact consistent.recorded
  · rw [all_eq]
    exact consistent.indices index
  · rw [apply_eq]
    exact represents'.toPersisted
  · rw [all_eq]
    exact consistent.recorded

/-- An operation that writes nothing and changes nothing. -/
theorem Survives.idle (consistent : Consistent log rc h) {op : Op}
    (done_eq : log.apply op = .ok ⟨[], log⟩) (same : h.apply op = h) :
    Survives log rc h op ⟨[], log⟩ :=
  ⟨done_eq, rfl, by rwa [same], Nat.zero_le 2,
    fun _ => by rw [same]; exact ⟨consistent.represents.toPersisted, consistent.recorded⟩⟩

/-- A log that is opened on consistent databases. -/
theorem init_consistent {stores : Stores} (persisted : Persisted stores.db h)
    (recorded : Recorded stores.configDb rc h.all) :
    ∃ next, init stores = .ok ⟨[], next⟩ ∧ next.toStores = stores ∧ Consistent next rc h := by
  obtain ⟨next, done_eq, rfl, cached, indices_eq⟩ := init_eq persisted
  refine ⟨next, done_eq, rfl, ⟨persisted, cached⟩, recorded, fun index => ?_⟩
  rw [indices_eq]
  exact recorded.mem_indices index

theorem apply_survives (consistent : Consistent log rc h) {op : Op} (proper : op.Proper h) :
    ∃ done, Survives log rc h op done := by
  cases op with
  | appendOne entry => exact ⟨_, appendOne_survives consistent proper⟩
  | deleteFrom from_ =>
      rcases deleteFrom_cases consistent.represents from_ with
        ⟨done_eq, same⟩ | ⟨at_, holds, same, done_eq⟩
      · exact ⟨_, Survives.idle consistent done_eq same⟩
      · exact ⟨_, deleteFrom_survives consistent holds same done_eq⟩
  | deleteUtil to_ =>
      rcases deleteUtil_cases consistent.represents to_ with
        ⟨done_eq, same⟩ | ⟨at_, holds, same, done_eq⟩
      · exact ⟨_, Survives.idle consistent done_eq same⟩
      · exact ⟨_, deleteUtil_survives consistent holds same done_eq⟩
  | reopen =>
      obtain ⟨next, done_eq, stores_eq, consistent'⟩ :=
        init_consistent consistent.represents.toPersisted consistent.recorded
      exact ⟨⟨[], next⟩, done_eq, stores_eq, consistent', Nat.zero_le 2,
        fun _ => ⟨consistent.represents.toPersisted, consistent.recorded⟩⟩

/-- A move that keeps the writes of a config entry together. -/
theorem move_consistent (consistent : Consistent log rc h) {move : Move} (proper : move.Proper h)
    (whole : move.Whole h) :
    ∃ next, log.move move = .ok next ∧ Consistent next rc (move.after h) := by
  cases move with
  | finish op =>
      obtain ⟨done, survives⟩ := apply_survives consistent proper
      refine ⟨done.log, ?_, survives.consistent⟩
      rw [RaftLog.move, survives.done_eq]
      rfl
  | crash op count =>
      obtain ⟨done, survives⟩ := apply_survives consistent proper
      have left : Persisted (log.toStores.performAll (done.writes.take count)).db
            ((Move.crash op count).after h) ∧
          Recorded (log.toStores.performAll (done.writes.take count)).configDb rc
            ((Move.crash op count).after h).all := by
        rw [Move.after]
        split_ifs with zero
        · subst zero
          exact ⟨consistent.represents.toPersisted, consistent.recorded⟩
        · by_cases one : count = 1
          · subst one
            exact survives.between (whole rfl)
          · have length_le := survives.length_le
            rw [List.take_of_length_le (by omega), ← survives.stores_eq]
            exact ⟨survives.consistent.represents.toPersisted, survives.consistent.recorded⟩
      obtain ⟨next, opened, -, consistent'⟩ := init_consistent left.1 left.2
      refine ⟨next, ?_, consistent'⟩
      rw [RaftLog.move, survives.done_eq, ok_bind, opened]
      rfl

theorem play_consistent {moves : List Move} (consistent : Consistent log rc h)
    (proper : Along (fun h move => move.Proper h) h moves)
    (whole : Along (fun h move => move.Whole h) h moves) :
    ∃ last, log.play moves = .ok last ∧ Consistent last rc (historyOf h moves) := by
  induction moves generalizing log h with
  | nil => exact ⟨log, rfl, consistent⟩
  | cons move moves ih =>
      obtain ⟨next, moved, consistent'⟩ := move_consistent consistent proper.1 whole.1
      obtain ⟨last, played, final⟩ := ih consistent' proper.2 whole.2
      refine ⟨last, ?_, final⟩
      rw [play, moved, ok_bind, played]

end Operations

/-- The first configuration on record. -/
theorem create_consistent (rc : RaftConfig) :
    ∃ log, create rc = .ok log ∧ Consistent log rc History.empty := by
  obtain ⟨done, done_eq, represents, configDb_eq, indices_eq⟩ := init_empty
  refine ⟨(done.log.appendFirstConfig rc).log, ?_, ⟨represents.toPersisted, ?_⟩,
    ⟨?_, ?_, ?_, maxIndex_pos⟩, fun index => ?_⟩
  · rw [create, done_eq]
    rfl
  · exact ⟨⟨represents.first, represents.last, represents.append⟩, represents.checksum,
      represents.lastChecksum⟩
  · show write u32Compare done.log.configDb [.put (encodeFixed32 0) rc.toString] = _
    rw [configDb_eq, ← zeroKey_eq]
    rfl
  · simp [History.empty, History.all]
  · simp [History.empty, History.all]
  · show index ∈ insert 0 done.log.configIndices ↔ _
    rw [indices_eq, configAt_iff]
    simp [History.empty, History.all]

/-! ## Membership across restarts -/

/-- Run a new log, close it and start again. -/
def restart (rc : RaftConfig) (moves : List Move) : Except LogAssert RaftLog := do
  let created ← create rc
  let log ← created.play moves
  let opened ← init log.toStores
  return opened.log

/-- In every run in which no crash separates the writes of a config entry, the
next start finds the newest config entry, or the first configuration if there is
none, and no config index at or above the next index. -/
theorem lastConfig_after_restart {rc : RaftConfig} (encodes : rc.Encodes) (moves : List Move)
    (proper : Along (fun h move => move.Proper h) History.empty moves)
    (whole : Along (fun h move => move.Whole h) History.empty moves) :
    ∃ log, restart rc moves = .ok log ∧
      ConfigsShown log rc (historyOf History.empty moves).all ∧
      ∀ index ∈ log.configIndices, index < log.append := by
  obtain ⟨first, created, consistent⟩ := create_consistent rc
  obtain ⟨log, played, final⟩ := play_consistent consistent proper whole
  obtain ⟨next, opened, -, restarted⟩ :=
    init_consistent final.represents.toPersisted final.recorded
  refine ⟨next, ?_, configsShown_of_recorded encodes restarted.recorded, fun index mem => ?_⟩
  · rw [restart, created, ok_bind, played, ok_bind, opened]
    rfl
  · have below := ((restarted.indices index).mp mem).le
    rw [restarted.represents.append, History.append_eq]
    exact Nat.lt_succ_of_le below

/-- A member of three, and the entry by which a fourth is added. -/
def three : RaftConfig := ⟨2, [1, 3]⟩

/-- The entry that adds a fourth member. -/
def addFourth : AppendEntry := ⟨1, .config, RaftConfig.toString ⟨1, [2, 3, 4]⟩⟩

theorem three_encodes : three.Encodes := by
  constructor <;> decide

/-- A config entry that is compacted away and one that is truncated, with crashes
beside the writes. -/
theorem lastConfig_after_restart_three :
    ∃ log, restart three [.finish (.appendOne addFourth), .crash (.deleteUtil 1) 1,
        .crash (.appendOne addFourth) 2, .crash (.deleteFrom 2) 0, .finish (.deleteFrom 2)] = .ok log ∧
      log.lastConfig = .ok (some (1, ⟨1, [2, 3, 4]⟩, metaAfter [] addFourth)) ∧
      ∀ index ∈ log.configIndices, index < log.append := by
  have decoded : RaftConfig.fromString addFourth.value = some ⟨1, [2, 3, 4]⟩ := by decide
  obtain ⟨log, restarted, shown, below⟩ := lastConfig_after_restart three_encodes
    [.finish (.appendOne addFourth), .crash (.deleteUtil 1) 1,
      .crash (.appendOne addFourth) 2, .crash (.deleteFrom 2) 0, .finish (.deleteFrom 2)]
    ⟨⟨by decide, by decide +kernel, by decide, fun _ => by decide⟩, trivial,
      ⟨by decide, by decide +kernel, by decide, fun _ => by decide⟩, trivial, trivial, trivial⟩
    ⟨trivial, fun _ touches => touches, fun one => by contradiction, fun one => by contradiction,
      trivial, trivial⟩
  obtain ⟨config, found, read⟩ := shown.newest [] addFourth [] rfl rfl (by simp)
  obtain rfl := Option.some.inj (decoded.symm.trans found)
  exact ⟨log, restarted, read, below⟩

/-- A crash between the two writes of a config entry loses it for the next start;
and a log whose config entry has been compacted away with all others keeps a
config index above its last index, which is then `0`. -/
theorem not_lastConfig_after_restart :
    (¬∀ (rc : RaftConfig) (moves : List Move), rc.Encodes →
      Along (fun h move => move.Proper h) History.empty moves →
      ∃ log, restart rc moves = .ok log ∧
        ConfigsShown log rc (historyOf History.empty moves).all) ∧
    ¬∀ (rc : RaftConfig) (moves : List Move), rc.Encodes →
      Along (fun h move => move.Proper h) History.empty moves →
      Along (fun h move => move.Whole h) History.empty moves →
      ∃ log, restart rc moves = .ok log ∧ ∀ index ∈ log.configIndices, index ≤ log.last := by
  have proper : (Op.appendOne addFourth).Proper History.empty :=
    ⟨by decide, by decide +kernel, by decide, fun _ => by decide⟩
  constructor
  · intro all
    obtain ⟨log, restarted, shown⟩ :=
      all three [.crash (.appendOne addFourth) 1] three_encodes ⟨proper, trivial⟩
    obtain ⟨config, -, read⟩ := shown.newest [] addFourth [] rfl rfl (by simp)
    have lost : (restart three [.crash (.appendOne addFourth) 1]).toOption.any
        (fun log => decide (log.lastConfig.toOption = some (some (0, three, ⟨0, .config, 0, 0, 0⟩)))) =
          true := by decide +kernel
    simp [restarted, read, Except.toOption] at lost
  · intro all
    obtain ⟨log, restarted, below⟩ :=
      all three [.finish (.appendOne addFourth), .finish (.deleteUtil 1)] three_encodes
        ⟨proper, trivial, trivial⟩ ⟨trivial, trivial, trivial⟩
    have stays : (restart three [.finish (.appendOne addFourth), .finish (.deleteUtil 1)]).toOption.any
        (fun log => decide (1 ∈ log.configIndices ∧ log.last = 0)) = true := by decide +kernel
    rw [restarted] at stays
    obtain ⟨mem, last_eq⟩ := of_decide_eq_true stays
    have := below 1 mem
    omega

end RaftLog

end Vraft
