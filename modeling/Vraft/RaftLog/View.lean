import Vraft.RaftLog.Configs
import Vraft.Raft.Compaction

/-!
# The stored log behind the log of a node

A node is modelled over a log of entries and of configurations; what is stored are
two databases and a few cached fields.  The history of a stored log has a view as a
log of a node.  Every operation does to the view what it does to the history, and
all that a node reads from a stored log is what its view says, after any run of
operations, crashes and restarts.
-/

namespace Vraft

/-! ## Configurations by index -/

/-- The configuration that an entry at `index` brings. -/
def AppendEntry.configAs (entry : AppendEntry) (index : ℕ) : Option (ℕ × RaftConfig) :=
  if entry.type = .config then (RaftConfig.fromString entry.value).map fun rc => (index, rc)
  else none

/-- The configurations among entries that follow `before` others. -/
def configsOf (before : ℕ) : List AppendEntry → List (ℕ × RaftConfig)
  | [] => []
  | entry :: rest => (entry.configAs (before + 1)).toList ++ configsOf (before + 1) rest

section Configs

variable {before : ℕ} {entry : AppendEntry} {entries : List AppendEntry}

theorem AppendEntry.configAs_plain (plain : entry.type ≠ .config) (index : ℕ) :
    entry.configAs index = none :=
  if_neg plain

theorem AppendEntry.configAs_config (config : entry.type = .config) {rc : RaftConfig}
    (value : RaftConfig.fromString entry.value = some rc) (index : ℕ) :
    entry.configAs index = some (index, rc) := by
  rw [configAs, if_pos config, value]
  rfl

theorem AppendEntry.index_of_configAs {index : ℕ} {found : ℕ × RaftConfig}
    (brings : entry.configAs index = some found) : found.1 = index := by
  unfold configAs at brings
  split at brings
  · obtain ⟨rc, -, rfl⟩ := Option.map_eq_some_iff.mp brings
    rfl
  · contradiction

theorem configsOf_append (before : ℕ) (first second : List AppendEntry) :
    configsOf before (first ++ second) =
      configsOf before first ++ configsOf (before + first.length) second := by
  induction first generalizing before with
  | nil => rfl
  | cons entry first ih =>
      rw [List.cons_append, configsOf, configsOf, ih, List.append_assoc, List.length_cons,
        Nat.add_right_comm, Nat.add_assoc before]

theorem configsOf_singleton (before : ℕ) (entry : AppendEntry) :
    configsOf before [entry] = (entry.configAs (before + 1)).toList :=
  List.append_nil _

theorem configsOf_plain (plain : ∀ entry ∈ entries, entry.type ≠ .config) (before : ℕ) :
    configsOf before entries = [] := by
  induction entries generalizing before with
  | nil => rfl
  | cons entry rest ih =>
      rw [List.forall_mem_cons] at plain
      rw [configsOf, AppendEntry.configAs_plain plain.1, ih plain.2]
      rfl

theorem index_of_mem_configsOf {found : ℕ × RaftConfig} (mem : found ∈ configsOf before entries) :
    before < found.1 ∧ found.1 ≤ before + entries.length := by
  induction entries generalizing before with
  | nil => contradiction
  | cons entry rest ih =>
      rw [List.length_cons]
      rcases List.mem_append.mp mem with here | later
      · have index := AppendEntry.index_of_configAs (Option.mem_toList.mp here)
        omega
      · have bounds := ih later
        omega

/-- Up to an index, and behind it. -/
theorem filter_configsOf_front (before cut : ℕ) (front back : List AppendEntry)
    (cut_eq : cut = before + front.length) :
    (configsOf before (front ++ back)).filter (fun found => !decide (cut < found.1)) =
      configsOf before front := by
  subst cut_eq
  rw [configsOf_append, List.filter_append, List.filter_eq_self.mpr, List.filter_eq_nil_iff.mpr,
    List.append_nil]
  · intro found mem
    have := (index_of_mem_configsOf mem).1
    simpa using this
  · intro found mem
    have := (index_of_mem_configsOf mem).2
    simpa using this

theorem filter_configsOf_back (before cut : ℕ) (front back : List AppendEntry)
    (cut_eq : cut = before + front.length) :
    (configsOf before (front ++ back)).filter (fun found => decide (cut < found.1)) =
      configsOf cut back := by
  subst cut_eq
  rw [configsOf_append, List.filter_append, List.filter_eq_nil_iff.mpr, List.filter_eq_self.mpr,
    List.nil_append]
  · intro found mem
    have := (index_of_mem_configsOf mem).1
    simpa using this
  · intro found mem
    have := (index_of_mem_configsOf mem).2
    simpa using this

/-- Either there is no config entry, or one of them is the newest. -/
theorem newest_config (entries : List AppendEntry) :
    (∀ entry ∈ entries, entry.type ≠ .config) ∨
      ∃ front entry back, entries = front ++ entry :: back ∧ entry.type = .config ∧
        ∀ other ∈ back, other.type ≠ .config := by
  induction entries with
  | nil => exact .inl nofun
  | cons entry rest ih =>
      rcases ih with plain | ⟨front, newest, back, rfl, config, plain⟩
      · by_cases config : entry.type = .config
        · exact .inr ⟨[], entry, rest, rfl, config, plain⟩
        · exact .inl (List.forall_mem_cons.mpr ⟨config, plain⟩)
      · exact .inr ⟨entry :: front, newest, back, rfl, config, plain⟩

/-- The indices of the configurations. -/
theorem indices_configsOf
    (values : ∀ entry ∈ entries, entry.type = .config →
      (RaftConfig.fromString entry.value).isSome) (before : ℕ) :
    (configsOf before entries).map Prod.fst =
      (List.range' (before + 1) entries.length).filter fun index =>
        (entries[index - before - 1]?).any AppendEntry.isConfig := by
  induction entries generalizing before with
  | nil => rfl
  | cons entry rest ih =>
      rw [List.forall_mem_cons] at values
      have later : (List.range' (before + 1 + 1) rest.length).filter (fun index =>
            ((entry :: rest)[index - before - 1]?).any AppendEntry.isConfig) =
          (List.range' (before + 1 + 1) rest.length).filter fun index =>
            (rest[index - (before + 1) - 1]?).any AppendEntry.isConfig := by
        refine List.filter_congr fun index mem => ?_
        have bounds := List.mem_range'_1.mp mem
        rw [show index - before - 1 = index - (before + 1) - 1 + 1 by omega,
          List.getElem?_cons_succ]
      rw [configsOf, List.map_append, ih values.2, List.length_cons, List.range'_succ,
        List.filter_cons, later]
      have head : (entry :: rest)[before + 1 - before - 1]? = some entry := by
        rw [show before + 1 - before - 1 = 0 by omega]
        rfl
      rw [head, Option.any_some]
      by_cases config : entry.type = .config
      · obtain ⟨rc, value⟩ := Option.isSome_iff_exists.mp (values.1 config)
        rw [AppendEntry.configAs_config config value, if_pos (AppendEntry.isConfig_of config)]
        rfl
      · rw [AppendEntry.configAs_plain config, if_neg (by simpa [AppendEntry.isConfig] using config)]
        rfl

end Configs

/-! ## Views -/

/-- The log of a node that a history stands for. -/
def History.view (h : History) (rc : RaftConfig) : Log where
  base := h.base
  entries := h.kept
  configs := (0, rc) :: configsOf 0 h.all

/-- What an operation does to the log of a node. -/
def Log.apply (log : Log) : RaftLog.Op → Log
  | .appendOne entry => log.appendOne entry
  | .deleteFrom from_ => log.deleteFrom from_
  | .deleteUtil to_ => log.deleteUtil to_
  | .reopen => log

/-- The writes of an operation start with the one that counts. -/
def Log.after (log : Log) : RaftLog.Move → Log
  | .finish op => log.apply op
  | .crash op count => if count = 0 then log else log.apply op

/-- The plain log after some moves. -/
def Log.replay (log : Log) (moves : List RaftLog.Move) : Log :=
  moves.foldl Log.after log

namespace History

variable {h : History} {rc : RaftConfig}

theorem view_appendOne (h : History) (rc : RaftConfig) (entry : AppendEntry) :
    (h.appendOne entry).view rc = (h.view rc).appendOne entry := by
  have append : Log.append ⟨h.base, h.kept, (0, rc) :: configsOf 0 h.all⟩ = h.all.length + 1 :=
    h.append_eq
  have configs : configsOf 0 (h.appendOne entry).all =
      configsOf 0 h.all ++ (entry.configAs (h.all.length + 1)).toList := by
    rw [appendOne_all, configsOf_append, configsOf_singleton, Nat.zero_add]
  unfold view Log.appendOne
  rw [configs]
  congr 1
  by_cases config : entry.type = .config
  · rw [if_pos config]
    cases value : RaftConfig.fromString entry.value with
    | some found =>
        rw [AppendEntry.configAs_config config value]
        dsimp only
        rw [append]
        rfl
    | none =>
        rw [AppendEntry.configAs, if_pos config, value]
        exact congrArg _ (List.append_nil _)
  · rw [if_neg config, AppendEntry.configAs_plain config]
    exact congrArg _ (List.append_nil _)

/-- The entries to be dropped, cut off behind those that stay. -/
theorem view_nothingFrom (h : History) (rc : RaftConfig) (from_ : ℕ) :
    (h.view rc).NothingFrom from_ ↔ h.kept = [] ∨ h.last < from_ :=
  Iff.rfl

theorem split_all (h : History) {from_ : ℕ} (inside : ¬(h.view rc).NothingFrom from_) :
    h.all = (h.deleteFrom from_).all ++ h.kept.drop (from_ - 1 - h.base) ∧
      max from_ h.first = (h.deleteFrom from_).all.length + 1 ∧ h.last = h.all.length := by
  rw [view_nothingFrom, not_or] at inside
  obtain ⟨nonempty, bound⟩ := inside
  have positive := List.length_pos_iff.mpr nonempty
  have first : h.first = h.base + 1 := if_neg nonempty
  have last : h.last = h.base + h.kept.length := if_neg nonempty
  refine ⟨?_, ?_, ?_⟩
  · rw [all, all, deleteFrom, List.append_assoc, List.take_append_drop]
  · have base_eq : (h.deleteFrom from_).base = h.base := rfl
    rw [all_length, base_eq, deleteFrom, List.length_take]
    omega
  · rw [all_length, last]

theorem view_deleteFrom (h : History) (rc : RaftConfig) (from_ : ℕ) :
    (h.deleteFrom from_).view rc = (h.view rc).deleteFrom from_ := by
  unfold Log.deleteFrom
  split
  · rename_i nothing
    rw [deleteFrom_eq_self]
    rcases (view_nothingFrom h rc from_).mp nothing with empty | beyond
    · rw [empty]
      exact Nat.zero_le _
    · rcases h.ends with ⟨-, length, -⟩ | ⟨-, -, -, last⟩
      · omega
      · omega
  · rename_i inside
    obtain ⟨all_eq, from_eq, last_eq⟩ := h.split_all inside
    have first : (h.view rc).first = h.first := rfl
    have last : (h.view rc).last = h.last := rfl
    have configs : (configsOf 0 h.all).filter (fun found =>
          !(decide (max from_ h.first ≤ found.1) && decide (found.1 ≤ h.last))) =
        configsOf 0 (h.deleteFrom from_).all := by
      have front := filter_configsOf_front 0 _ (h.deleteFrom from_).all
        (h.kept.drop (from_ - 1 - h.base)) (Nat.zero_add _).symm
      rw [← all_eq] at front
      rw [← front]
      refine List.filter_congr fun found mem => ?_
      have bounds := (index_of_mem_configsOf mem).2
      rw [Bool.eq_iff_iff]
      simp only [Bool.not_eq_true', Bool.and_eq_false_iff, decide_eq_false_iff_not]
      omega
    rw [first, last]
    unfold view
    dsimp only
    have nonempty : ¬h.kept = [] := fun empty => inside (.inl empty)
    have first_eq : h.first = h.base + 1 := if_neg nonempty
    congr 1
    · show h.kept.take (from_ - 1 - h.base) = h.kept.take (max from_ h.first - h.base - 1)
      congr 1
      omega
    · rw [List.filter_cons, configs]
      rw [if_pos (by simp [first_eq])]

theorem view_deleteUtil (h : History) (rc : RaftConfig) (to_ : ℕ) :
    (h.deleteUtil to_).view rc = (h.view rc).deleteUtil to_ := by
  unfold Log.deleteUtil
  split
  · rename_i empty
    rw [deleteUtil_eq_self (.inl empty)]
  · rename_i nonempty
    have nonempty : ¬h.kept = [] := nonempty
    have first : (h.view rc).first = h.base + 1 := if_neg nonempty
    have last : (h.view rc).last = h.base + h.kept.length := if_neg nonempty
    split
    · rename_i before
      rw [deleteUtil_eq_self (.inr (by omega))]
    · rename_i reaches
      unfold view
      dsimp only
      have all := congrArg (configsOf 0) (h.deleteUtil_all to_)
      rw [all]
      congr 1
      · show (h.past ++ h.kept.take (to_ - h.base)).length = min to_ (h.view rc).last
        rw [List.length_append, List.length_take, last, base]
        rw [base] at first
        omega
      · show h.kept.drop (to_ - h.base) = h.kept.drop (min to_ (h.view rc).last - h.base)
        rw [last]
        by_cases inside : to_ ≤ h.base + h.kept.length
        · rw [min_eq_left inside]
        · rw [List.drop_of_length_le (by omega), List.drop_of_length_le (by omega)]

theorem view_apply (h : History) (rc : RaftConfig) (op : RaftLog.Op) :
    (h.apply op).view rc = (h.view rc).apply op := by
  cases op with
  | appendOne entry => exact h.view_appendOne rc entry
  | deleteFrom from_ => exact h.view_deleteFrom rc from_
  | deleteUtil to_ => exact h.view_deleteUtil rc to_
  | reopen => rfl

theorem view_historyOf (h : History) (rc : RaftConfig) (moves : List RaftLog.Move) :
    (RaftLog.historyOf h moves).view rc = (h.view rc).replay moves := by
  induction moves generalizing h with
  | nil => rfl
  | cons move moves ih =>
      have next : (move.after h).view rc = (h.view rc).after move := by
        cases move with
        | finish op => exact h.view_apply rc op
        | crash op count =>
            rw [RaftLog.Move.after, Log.after]
            split
            · rfl
            · exact h.view_apply rc op
      exact (ih (move.after h)).trans (congrArg (Log.replay · moves) next)

end History

/-! ## What a node reads -/

/-- All that a node reads from a stored log is what its own log says. -/
structure Shows (log : RaftLog) (l : Log) : Prop where
  first : log.first = l.first
  last : log.last = l.last
  append : log.append = l.append
  indexValid : ∀ index, log.indexValid index = l.indexValid index
  get : ∀ index < maxIndex, ∃ found, log.get index = .ok found ∧
    found.map (fun entry => ⟨entry.index, entry.appendEntry⟩) = l.get index
  getMeta : ∀ index < maxIndex, ∃ found, log.getMeta index = .ok found ∧
    found.map (fun mv => ⟨mv.term, mv.type⟩) = l.getMeta index
  lastConfig : ∃ code rc mv, log.lastConfig = .ok (some (code, rc, mv)) ∧ l.lastConfig = some rc
  /-- The callbacks of `DeleteFrom`. -/
  configsFrom : ∀ from_, ¬l.NothingFrom from_ →
    log.configsFrom (max from_ log.first) = l.configsFrom from_

section Reads

variable {log : RaftLog} {rc : RaftConfig} {h : History}

/-- `LastConfig` finds the last configuration of the view. -/
theorem lastConfig_shown (encodes : rc.Encodes) (consistent : RaftLog.Consistent log rc h) :
    ∃ code found mv, log.lastConfig = .ok (some (code, found, mv)) ∧
      (h.view rc).lastConfig = some found := by
  have shown := configsShown_of_recorded encodes consistent.recorded
  rcases newest_config h.all with plain | ⟨front, newest, back, all_eq, config, plain⟩
  · refine ⟨0, rc, _, shown.first plain, ?_⟩
    rw [Log.lastConfig, History.view, configsOf_plain plain]
    rfl
  · obtain ⟨found, value, read⟩ := shown.newest front newest back all_eq config plain
    refine ⟨1, found, _, read, ?_⟩
    have newest_last : (h.view rc).configs =
        ((0, rc) :: configsOf 0 front) ++ [(front.length + 1, found)] := by
      rw [History.view, all_eq, configsOf_append, configsOf, configsOf_plain plain,
        AppendEntry.configAs_config config value, Nat.zero_add]
      rfl
    rw [Log.lastConfig, newest_last, List.getLast?_append]
    rfl

/-- The indices of the config entries to be dropped. -/
theorem configsFrom_shown (consistent : RaftLog.Consistent log rc h) {from_ : ℕ}
    (inside : ¬(h.view rc).NothingFrom from_) :
    log.configsFrom (max from_ log.first) = (h.view rc).configsFrom from_ := by
  obtain ⟨all_eq, from_eq, last_eq⟩ := h.split_all inside
  have spans := consistent.represents.toSpans
  have first : (h.view rc).first = h.first := rfl
  have last : (h.view rc).last = h.last := rfl
  have length : h.all.length = (h.deleteFrom from_).all.length +
      (h.kept.drop (from_ - 1 - h.base)).length := by
    rw [← List.length_append, ← all_eq]
  have values := consistent.recorded.values
  have dropped : (h.view rc).configsFrom from_ =
      (configsOf (h.deleteFrom from_).all.length (h.kept.drop (from_ - 1 - h.base))).map Prod.fst := by
    have back := filter_configsOf_back 0 _ (h.deleteFrom from_).all
      (h.kept.drop (from_ - 1 - h.base)) (Nat.zero_add _).symm
    rw [← all_eq] at back
    rw [Log.configsFrom, if_neg inside, first, last, ← back]
    congr 1
    rw [History.view, List.filter_cons, if_neg (by simp; omega)]
    refine List.filter_congr fun found mem => ?_
    have bounds := (index_of_mem_configsOf mem).2
    rw [Bool.eq_iff_iff]
    simp only [Bool.and_eq_true, decide_eq_true_eq]
    omega
  have range : RaftLog.span (max from_ log.first) log.last =
      List.range' ((h.deleteFrom from_).all.length + 1) (h.kept.drop (from_ - 1 - h.base)).length := by
    rw [RaftLog.span, spans.first, spans.last, from_eq, last_eq]
    congr 1
    omega
  rw [dropped, indices_configsOf, RaftLog.configsFrom, range]
  · refine List.filter_congr fun index mem => ?_
    have bounds := List.mem_range'_1.mp mem
    have here : h.all[index - 1]? =
        (h.kept.drop (from_ - 1 - h.base))[index - (h.deleteFrom from_).all.length - 1]? := by
      have above : (h.deleteFrom from_).all.length ≤ index - 1 := by omega
      have split := congrArg (fun entries => entries[index - 1]?) all_eq
      rw [split, List.getElem?_append_right above]
      congr 1
      omega
    rw [Bool.eq_iff_iff, decide_eq_true_eq, consistent.indices, configAt_iff, here]
    constructor
    · rintro (zero | ⟨-, entry, found, config⟩)
      · omega
      · rw [found]
        exact AppendEntry.isConfig_of config
    · intro config
      obtain ⟨entry, found, config⟩ := (Option.any_eq_true ..).mp config
      exact .inr ⟨by omega, entry, found, of_decide_eq_true config⟩
  · intro entry mem
    exact values entry (all_eq ▸ List.mem_append_right _ mem)

/-- A stored log shows the view of its history. -/
theorem shows_view (encodes : rc.Encodes) (consistent : RaftLog.Consistent log rc h) :
    Shows log (h.view rc) := by
  have represents := consistent.represents
  have agrees := RaftLog.agrees_of_represents represents
  exact {
    first := agrees.first
    last := agrees.last
    append := agrees.append
    indexValid := by
      intro index
      rw [agrees.indexValid, Bool.eq_iff_iff, decide_eq_true_eq, Log.indexValid]
      have ends := h.ends
      have first : (h.view rc).first = h.first := rfl
      have last : (h.view rc).last = h.last := rfl
      simp only [first, last, Bool.and_eq_true, decide_eq_true_eq, History.Holds]
      rcases ends with ⟨-, length, first, last⟩ | ⟨-, positive, first, last⟩
      · omega
      · omega
    get := by
      intro index bound
      refine ⟨_, agrees.get index bound, ?_⟩
      rw [History.get, Option.map_map]
      rfl
    getMeta := by
      intro index bound
      refine ⟨_, agrees.getMeta index bound, ?_⟩
      rw [History.getMeta, Option.map_map]
      rfl
    lastConfig := lastConfig_shown encodes consistent
    configsFrom := fun from_ inside => configsFrom_shown consistent inside }

end Reads

namespace RaftLog

/-- After any run of proper operations, of crashes between the writes of one but not
between those of a config entry, and of restarts, the node reads from its stored log what
the same run makes of its own. -/
theorem shows_of_play {rc : RaftConfig} (encodes : rc.Encodes) (moves : List Move)
    (proper : Along (fun h move => move.Proper h) History.empty moves)
    (whole : Along (fun h move => move.Whole h) History.empty moves) :
    ∃ created log, create rc = .ok created ∧ created.play moves = .ok log ∧
      Shows log ((Log.empty.appendFirstConfig rc).replay moves) := by
  obtain ⟨created, opened, consistent⟩ := create_consistent rc
  obtain ⟨log, played, final⟩ := play_consistent consistent proper whole
  have shows := shows_view encodes final
  rw [History.view_historyOf] at shows
  exact ⟨created, log, opened, played, shows⟩

/-- A config entry and two others; one is truncated, and a crash comes in between. -/
theorem shows_of_play_three :
    ∃ created log, create three = .ok created ∧
      created.play [.finish (.appendOne addFourth), .finish (.appendOne ⟨1, .noop, []⟩),
        .crash (.deleteUtil 1) 1, .crash (.appendOne ⟨2, .data, [7]⟩) 1, .finish (.deleteFrom 3)] =
          .ok log ∧
      Shows log ⟨1, [⟨1, .noop, []⟩], [(0, three), (1, ⟨1, [2, 3, 4]⟩)]⟩ := by
  have shown := shows_of_play three_encodes
    [.finish (.appendOne addFourth), .finish (.appendOne ⟨1, .noop, []⟩),
      .crash (.deleteUtil 1) 1, .crash (.appendOne ⟨2, .data, [7]⟩) 1, .finish (.deleteFrom 3)]
    ⟨⟨by decide, by decide +kernel, by decide, fun _ => by decide⟩,
      ⟨by decide, by decide +kernel, by decide, nofun⟩, trivial,
      ⟨by decide, by decide +kernel, by decide, nofun⟩, trivial, trivial⟩
    ⟨trivial, trivial, fun _ touches => touches, nofun, trivial, trivial⟩
  have replayed : (Log.empty.appendFirstConfig three).replay
      [.finish (.appendOne addFourth), .finish (.appendOne ⟨1, .noop, []⟩),
        .crash (.deleteUtil 1) 1, .crash (.appendOne ⟨2, .data, [7]⟩) 1, .finish (.deleteFrom 3)] =
      ⟨1, [⟨1, .noop, []⟩], [(0, three), (1, ⟨1, [2, 3, 4]⟩)]⟩ := by decide
  rwa [replayed] at shown

end RaftLog

end Vraft
