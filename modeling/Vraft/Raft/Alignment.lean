import Vraft.Raft.Compaction
import Vraft.Raft.Overwrite
import Vraft.Raft.Snapshots

/-!
# Logs below a compacted prefix or a snapshot

Entries are accepted by the last index, which may be that of the state machine,
they are placed by the append index of the log, and they are applied from the
last one applied on.  The three counters go together as long as no message that
is accepted leaves a gap behind the log and none commits what the log does not
hold.
-/

namespace Vraft

/-! ## The log of a leader -/

/-- A log agrees with the full log of a leader up to every entry in which both
have the same term. -/
def Log.Matches (log : Log) (full : List AppendEntry) : Prop :=
  ∀ index stored sent, log.entryAt index = some stored → full[index - 1]? = some sent →
    stored.term = sent.term →
    ∀ earlier ≤ index, ∀ held, log.entryAt earlier = some held → full[earlier - 1]? = some held

/-- No entry up to `s` that the leader does not have lies below an entry above `s`. -/
def Log.Clean (log : Log) (full : List AppendEntry) (s : ℕ) : Prop :=
  ∀ above upper, s < above → log.entryAt above = some upper →
    ∀ index ≤ s, ∀ stored, log.entryAt index = some stored → full[index - 1]? = some stored

/-- The entries are in the new log at their own indices, unless these are compacted,
and the new log has nothing else that was not there before. -/
structure Log.Stores (log log' : Log) (entries : List LogEntry) : Prop where
  placed : ∀ entry ∈ entries, log.base < entry.index →
    log'.entryAt entry.index = some entry.appendEntry
  origin : ∀ index stored, log'.entryAt index = some stored →
    log.entryAt index = some stored ∨ ⟨index, stored⟩ ∈ entries

/-- A message of the leader that has the log `full`. -/
structure AppendEntries.Quotes (msg : AppendEntries) (full : List AppendEntry) : Prop where
  entries : msg.entries =
    numbered msg.preLogIndex ((full.drop msg.preLogIndex).take msg.entries.length)
  preLogTerm : 0 < msg.preLogIndex →
    ∃ preceding, full[msg.preLogIndex - 1]? = some preceding ∧ preceding.term = msg.preLogTerm
  commitIndex : msg.commitIndex ≤ msg.preLogIndex + msg.entries.length

/-- A piece of a snapshot of the leader that has the log `full`. -/
def InstallSnapshot.Quotes (msg : InstallSnapshot) (full : List AppendEntry) : Prop :=
  0 < msg.lastIndex →
    ∃ final, full[msg.lastIndex - 1]? = some final ∧ final.term = msg.lastTerm

/-! ## Compaction -/

namespace Log

variable {log log' : Log} {full : List AppendEntry} {s : ℕ}

/-- A compacted log holds nothing new. -/
theorem entryAt_of_deleteUtil {to_ index : ℕ} {stored : AppendEntry}
    (found : (log.deleteUtil to_).entryAt index = some stored) :
    log.entryAt index = some stored := by
  unfold deleteUtil at found
  split at found
  · exact found
  split at found
  · exact found
  rename_i nonempty reaches
  have first : log.first = log.base + 1 := if_neg nonempty
  have last : log.last = log.base + log.entries.length := if_neg nonempty
  simp only [entryAt, List.getElem?_drop] at found ⊢
  split at found
  · contradiction
  · rw [if_neg (by omega)]
    rw [show min to_ log.last - log.base + (index - min to_ log.last - 1) =
      index - log.base - 1 by omega] at found
    exact found

theorem Matches.of_le (matches_ : log.Matches full)
    (le : ∀ index stored, log'.entryAt index = some stored → log.entryAt index = some stored) :
    log'.Matches full := by
  intro index stored sent found position same earlier before held found'
  exact matches_ index stored sent (le _ _ found) position same earlier before held (le _ _ found')

theorem Clean.of_le (clean : log.Clean full s)
    (le : ∀ index stored, log'.entryAt index = some stored → log.entryAt index = some stored) :
    log'.Clean full s := by
  intro above upper higher found index before stored found'
  exact clean above upper higher (le _ _ found) index before stored (le _ _ found')

/-! ## Accepting entries -/

theorem mem_numbered {pre : ℕ} {entries : List AppendEntry} {entry : LogEntry} :
    entry ∈ numbered pre entries ↔
      pre < entry.index ∧ entries[entry.index - pre - 1]? = some entry.appendEntry := by
  induction entries generalizing pre with
  | nil => simp [numbered]
  | cons first rest ih =>
      rw [numbered, List.mem_cons, ih]
      obtain ⟨index, appended⟩ := entry
      dsimp only
      by_cases next : index = pre + 1
      · subst next
        simp [eq_comm]
      · constructor
        · rintro (same | ⟨above, position⟩)
          · exact absurd (congrArg LogEntry.index same) next
          · refine ⟨by omega, ?_⟩
            rw [show index - pre - 1 = index - (pre + 1) - 1 + 1 by omega]
            exact position
        · rintro ⟨above, position⟩
          refine .inr ⟨by omega, ?_⟩
          rw [show index - pre - 1 = index - (pre + 1) - 1 + 1 by omega] at position
          exact position

section Accept

variable {pre cut : ℕ} {entries : List AppendEntry} {tail : List LogEntry}

/-- The entries are those of the leader's log behind `pre`. -/
def Continue (full : List AppendEntry) (pre : ℕ) (entries : List AppendEntry) : Prop :=
  ∀ position entry, entries[position]? = some entry → full[pre + position]? = some entry

theorem Continue.at_ (sent : Continue full pre entries) {index : ℕ} {entry : AppendEntry}
    (above : pre < index) (position : entries[index - pre - 1]? = some entry) :
    full[index - 1]? = some entry := by
  have found := sent _ _ position
  rwa [show pre + (index - pre - 1) = index - 1 by omega] at found

theorem continue_slice (full : List AppendEntry) (pre count : ℕ) :
    Continue full pre ((full.drop pre).take count) := by
  intro position entry found
  rw [List.getElem?_take] at found
  split at found
  · rwa [List.getElem?_drop] at found
  · contradiction

theorem Divided.stores (divided : log.Divided pre entries cut tail) (matches_ : log.Matches full)
    (sent : Continue full pre entries) :
    log.Stores ((log.deleteFrom cut).appendAll tail) (numbered pre entries) := by
  constructor
  · intro entry mem uncompacted
    obtain ⟨above, position⟩ := mem_numbered.mp mem
    rw [divided.entryAt]
    split
    · rename_i before
      have inside := (List.getElem?_eq_some_iff.mp position).1
      obtain ⟨stored, sent', found, position', same⟩ :=
        divided.agrees entry.index (by omega) before (by omega)
      rw [position] at position'
      obtain rfl := Option.some.inj position'
      have at_full := sent.at_ above position
      have held := matches_ _ _ _ found at_full same _ le_rfl _ found
      rw [at_full] at held
      obtain rfl := Option.some.inj held
      exact found
    · exact position
  · intro index stored found
    rw [divided.entryAt] at found
    split at found
    · exact .inl found
    · rename_i after
      have := divided.above
      exact .inr (mem_numbered.mpr ⟨by show pre < index; omega, found⟩)

/-- Either nothing changes, or the new log is all the leader's. -/
theorem Divided.same_or_full (divided : log.Divided pre entries cut tail)
    (matches_ : log.Matches full) (sent : Continue full pre entries)
    (anchored : ∀ index ≤ pre, ∀ held, log.entryAt index = some held →
      full[index - 1]? = some held) :
    (∀ index, ((log.deleteFrom cut).appendAll tail).entryAt index = log.entryAt index) ∨
    ∀ index stored, ((log.deleteFrom cut).appendAll tail).entryAt index = some stored →
      full[index - 1]? = some stored := by
  have above := divided.above
  have below := divided.below
  by_cases inside : cut = log.append ∧ pre + entries.length < log.append
  · left
    intro index
    rw [divided.entryAt]
    split
    · rfl
    · rw [List.getElem?_eq_none (by omega), entryAt_of_append_le (by omega)]
  · right
    have covered : cut ≤ pre + entries.length + 1 := by
      by_cases at_end : cut = log.append
      · omega
      · have held : cut ≤ log.last := by
          rw [append] at below at_end
          rw [last]
          split
          · rename_i empty
            rw [empty, List.length_nil] at below at_end
            omega
          · omega
        obtain ⟨_, _, -, position, -⟩ := divided.differs held
        have := (List.getElem?_eq_some_iff.mp position).1
        omega
    intro index stored found
    rw [divided.entryAt] at found
    split at found
    · rename_i before
      by_cases early : index ≤ pre
      · exact anchored index early stored found
      · have uncompacted : log.base < index := by
          by_contra compacted
          rw [Log.entryAt, if_pos (not_lt.mp compacted)] at found
          contradiction
        obtain ⟨stored', sent', found', position, same⟩ :=
          divided.agrees index (by omega) before (by omega)
        rw [found] at found'
        obtain rfl := Option.some.inj found'
        exact matches_ _ _ _ found (sent.at_ (by omega) position) same _ le_rfl _ found
    · exact sent.at_ (by omega) found

end Accept

theorem Matches.of_full (all : ∀ index stored, log'.entryAt index = some stored →
    full[index - 1]? = some stored) : log'.Matches full :=
  fun _ _ _ _ _ _ earlier _ held found => all earlier held found

theorem Clean.of_full (all : ∀ index stored, log'.entryAt index = some stored →
    full[index - 1]? = some stored) : log'.Clean full s :=
  fun _ _ _ _ index _ stored found => all index stored found

@[simp]
theorem accept_nil (log : Log) (pre : ℕ) : log.accept pre [] = log := by
  rw [accept, divide, deleteFrom, if_pos log.nothingFrom_append, appendAll_nil]

theorem append_appendAll (log : Log) (entries : List LogEntry) :
    (log.appendAll entries).append = log.append + entries.length := by
  induction entries generalizing log with
  | nil => rfl
  | cons entry rest ih =>
      rw [appendAll_cons, ih, append_appendOne, List.length_cons]
      omega

theorem length_numbered (pre : ℕ) (entries : List AppendEntry) :
    (numbered pre entries).length = entries.length := by
  induction entries generalizing pre with
  | nil => rfl
  | cons entry rest ih => rw [numbered, List.length_cons, List.length_cons, ih]

theorem Divided.lt_append {pre cut : ℕ} {entries : List AppendEntry} {tail : List LogEntry}
    (divided : log.Divided pre entries cut tail) :
    pre + entries.length < ((log.deleteFrom cut).appendAll tail).append := by
  have above := divided.above
  rw [append_appendAll, append_truncate (by omega) divided.below, divided.tail, length_numbered,
    List.length_drop]
  omega

end Log

/-! ## Handling a message -/

namespace Node

variable {n n' : Node} {msg : AppendEntries} {now : ℤ} {full : List AppendEntry} {s : ℕ}

/-- Where the message is accepted, its entries continue the log, at its own end if it
is empty, and what is newly applied is in the log. -/
def Seamless (n : Node) (msg : AppendEntries) : Prop :=
  n.Accepts msg →
    (msg.entries ≠ [] → msg.preLogIndex < n.log.append ∧
      (n.log.entries = [] → msg.preLogIndex = n.log.base)) ∧
    (max n.commit n.lastApply < msg.commitIndex → n.log.base ≤ n.lastApply ∧
      (msg.entries = [] → msg.commitIndex < n.log.append))

/-- The log does not reach past the snapshot, or it has the last entry of it. -/
def Clear (n : Node) (msg : InstallSnapshot) : Prop :=
  ∀ stored, msg.lastIndex + 1 < n.log.append → n.log.entryAt msg.lastIndex = some stored →
    stored.term = msg.lastTerm

/-- The log after a message has been handled. -/
theorem onAppendEntries_log (done : n.onAppendEntries msg now = .ok n') :
    n'.log = if n.Accepts msg then n.log.accept msg.preLogIndex msg.entries else n.log := by
  by_cases started : n.started = true
  · by_cases current : n.solid.term ≤ msg.term
    · obtain ⟨n₁, _, hears, -, -, -, outcome⟩ := onAppendEntries_ok started current done
      rcases outcome with ⟨-, refused, rest, -⟩ | ⟨-, accepts, n₂, n₃, took, learned, rest, -⟩
      · rw [if_neg refused, rest.log, hears.log]
      · rw [if_pos accepts, rest.log, (applies_learnCommit.of_ok learned).log,
          (writes_acceptEntries took).log, hears.log]
    · rw [if_neg fun accepts => current accepts.2.1]
      unfold onAppendEntries at done
      dsimp only at done
      rw [if_neg (by simp [started]), if_pos (not_le.mp current)] at done
      obtain rfl := Except.ok.inj done
      rfl
  · rw [if_neg fun accepts => started accepts.1]
    unfold onAppendEntries at done
    rw [if_pos (by simpa using started)] at done
    obtain rfl := Except.ok.inj done
    rfl

/-- Below the preceding index an accepted message finds what the leader has. -/
theorem Accepts.anchored (accepts : n.Accepts msg) (quotes : msg.Quotes full)
    (matches_ : n.log.Matches full) (reaches : msg.preLogIndex < n.log.append) :
    ∀ index ≤ msg.preLogIndex, ∀ held, n.log.entryAt index = some held →
      full[index - 1]? = some held := by
  intro index le held found
  have uncompacted : n.log.base < index := by
    by_contra compacted
    rw [Log.entryAt, if_pos (not_lt.mp compacted)] at found
    contradiction
  obtain ⟨stored, at_pre⟩ := n.log.exists_entryAt msg.preLogIndex (by omega) reaches
  have nonempty : n.log.entries ≠ [] := by
    intro empty
    simp [Log.entryAt, empty] at at_pre
  have first : n.log.first = n.log.base + 1 := if_neg nonempty
  have last : n.log.last + 1 = n.log.append := congrArg (· + 1) (if_neg nonempty)
  have valid : n.log.indexValid msg.preLogIndex = true := by
    simp only [Log.indexValid, Bool.and_eq_true, decide_eq_true_eq]
    omega
  have term := accepts.2.2.2 valid
  have stored_term : n.getTerm msg.preLogIndex = some stored.term := by
    rw [getTerm, if_neg (by omega), Log.getMeta, at_pre]
    rfl
  rw [stored_term] at term
  obtain ⟨preceding, position, same⟩ := quotes.preLogTerm (by omega)
  exact matches_ _ _ _ at_pre position ((Option.some.inj term).trans same.symm) index le held found

/-- What a message that is accepted without a gap makes of a log. -/
structure Extends (full : List AppendEntry) (msg : AppendEntries) (log log' : Log) : Prop where
  stores : log.Stores log' msg.entries
  same_or_full : (∀ index, log'.entryAt index = log.entryAt index) ∨
    ∀ index stored, log'.entryAt index = some stored → full[index - 1]? = some stored
  base : log'.base = log.base
  reaches : msg.entries ≠ [] → msg.preLogIndex + msg.entries.length < log'.append

theorem extends_of_seamless (accepts : n.Accepts msg) (seamless : n.Seamless msg)
    (quotes : msg.Quotes full) (matches_ : n.log.Matches full) :
    Extends full msg n.log (n.log.accept msg.preLogIndex msg.entries) := by
  by_cases nothing : msg.entries = []
  · rw [nothing, Log.accept_nil]
    refine ⟨?_, .inl fun _ => rfl, rfl, fun something => absurd nothing something⟩
    rw [nothing]
    exact ⟨fun _ mem => absurd mem List.not_mem_nil, fun _ _ found => .inl found⟩
  · obtain ⟨reaches, joins⟩ := (seamless accepts).1 nothing
    set entries := (full.drop msg.preLogIndex).take msg.entries.length
    have entries_eq : msg.entries = numbered msg.preLogIndex entries := quotes.entries
    have sent : Log.Continue full msg.preLogIndex entries := Log.continue_slice _ _ _
    have divided := Log.divide_reached reaches joins entries
    have length : msg.entries.length = entries.length := by
      rw [entries_eq, Log.length_numbered]
    constructor
    case stores =>
      rw [entries_eq]
      exact divided.stores matches_ sent
    case same_or_full =>
      rw [entries_eq]
      exact divided.same_or_full matches_ sent (accepts.anchored quotes matches_ reaches)
    case base => rw [Log.accept, Log.base_appendAll, Log.deleteFrom_base]
    case reaches =>
      intro _
      rw [length, entries_eq]
      exact divided.lt_append

/-- Handling a message keeps the log in line with the leader's. -/
theorem onAppendEntries_trails (seamless : n.Seamless msg) (quotes : msg.Quotes full)
    (matches_ : n.log.Matches full) (clean : n.log.Clean full s)
    (done : n.onAppendEntries msg now = .ok n') :
    n'.log.Matches full ∧ n'.log.Clean full s := by
  rw [onAppendEntries_log done]
  split
  · rename_i accepts
    rcases (extends_of_seamless accepts seamless quotes matches_).same_or_full with same | all
    · have le : ∀ index stored,
          (n.log.accept msg.preLogIndex msg.entries).entryAt index = some stored →
          n.log.entryAt index = some stored := by
        intro index stored found
        rwa [same] at found
      exact ⟨matches_.of_le le, clean.of_le le⟩
    · exact ⟨.of_full all, .of_full all⟩
  · exact ⟨matches_, clean⟩

/-! ## Asserts on what is applied -/

/-- The assert on the entry to apply does not fail. -/
def Reads {α : Type} (out : Except (AssertSite × Node) α) : Prop :=
  Meets out (fun _ => True) fun failed => failed.1 ≠ .applyGet

theorem Reads.ok {α : Type} (value : α) : Reads (.ok value) :=
  trivial

theorem Reads.bind {α β : Type} {out : Except (AssertSite × Node) α}
    {next : α → Except (AssertSite × Node) β} (first : Reads out)
    (rest : ∀ value, Reads (next value)) : Reads (out >>= next) :=
  Meets.bind first fun value _ => rest value

theorem reads_check {site : AssertSite} {c : Prop} [Decidable c] (other : site ≠ .applyGet) :
    Reads (n.check site c) := by
  unfold check
  split
  · exact .ok n
  · exact other

theorem reads_addPeers {rc : RaftConfig} {addrs : List Addr} : Reads (n.addPeers rc addrs) := by
  induction addrs generalizing n rc with
  | nil => exact .ok _
  | cons addr rest ih =>
      refine Reads.bind ?_ fun _ => ih
      unfold addPeer
      exact (reads_check (by decide)).bind fun _ => (reads_check (by decide)).bind fun _ => .ok _

theorem reads_doConfigChange {rc : RaftConfig} : Reads (n.doConfigChange rc) := by
  unfold doConfigChange
  dsimp only
  split
  · refine (reads_check (by decide)).bind fun _ => ?_
    split
    · exact (reads_check (by decide)).bind fun _ => reads_addPeers
    · exact (reads_check (by decide)).bind fun _ => .ok _
  · exact (reads_check (by decide)).bind fun _ => (reads_check (by decide)).bind fun _ =>
      reads_addPeers

theorem reads_appendAll {entries : List LogEntry} : Reads (n.appendAll entries) := by
  induction entries generalizing n with
  | nil => exact .ok n
  | cons entry rest ih =>
      refine Reads.bind ?_ fun _ => ih
      unfold appendOne
      refine Reads.bind ?_ fun _ => .ok _
      unfold configWritten
      split
      · split
        · exact reads_doConfigChange.bind fun _ => .ok _
        · show AssertSite.configDecode ≠ .applyGet
          decide
      · exact .ok _

theorem reads_configRollbacks {indices : List ℕ} : Reads (n.configRollbacks indices) := by
  induction indices generalizing n with
  | nil => exact .ok n
  | cons index rest ih =>
      refine Reads.bind ?_ fun _ => ih
      unfold configRollback
      split
      · show AssertSite.configPrevious ≠ .applyGet
        decide
      · exact reads_doConfigChange.bind fun _ => .ok _

theorem reads_acceptEntries {index : ℕ} {entries : List LogEntry} :
    Reads (n.acceptEntries index entries) := by
  rcases acceptEntries_cases (n := n) index entries with ⟨site, walk, failed⟩ | ⟨-, ran⟩
  · rw [failed]
    rcases walk with rfl | rfl | rfl <;> exact nofun
  · rw [ran]
    refine Reads.bind ?_ fun _ => reads_appendAll
    unfold deleteFrom
    split
    · exact .ok n
    · exact reads_configRollbacks.bind fun _ => .ok _

/-- All that is to be applied is in the log. -/
theorem reads_applyFrom {index count : ℕ} (above : n.log.base < index)
    (below : index + count ≤ n.log.append) (committed : index + count ≤ n.commit + 1) :
    Reads (n.applyFrom index count) := by
  induction count generalizing n index with
  | zero => exact .ok n
  | succ count ih =>
      have one : Meets (n.applyOne index) (Applies n) fun failed => failed.1 ≠ .applyGet := by
        refine Meets.intro_ (fun _ done => (applies_applyOne (by omega)).of_ok done)
          fun failed stopped missing => ?_
        obtain ⟨stored, found⟩ := n.log.exists_entryAt index above (by omega)
        have get : n.log.get index = some ⟨index, stored⟩ := by rw [Log.get, found]; rfl
        unfold applyOne at stopped
        rw [get] at stopped
        dsimp only at stopped
        split at stopped
        · split at stopped <;> contradiction
        · contradiction
        · contradiction
        · obtain rfl := Except.error.inj stopped
          contradiction
      refine Meets.bind one fun n₁ applies => ih ?_ ?_ ?_
      · rw [applies.log]
        omega
      · rw [applies.log]
        omega
      · rw [applies.commit]
        omega

theorem reads_learnCommit {index : ℕ} (held : max n.commit n.lastApply < index →
    n.log.base ≤ n.lastApply ∧ index < n.log.append) : Reads (n.learnCommit index) := by
  unfold learnCommit
  split
  · rename_i later
    dsimp only
    unfold check
    split
    · rw [ok_bind]
      unfold stateMachineApply
      split
      · rename_i behind
        have lower : n.lastApply < index := behind
        obtain ⟨rooted, below⟩ := held (by omega)
        refine Reads.bind (reads_applyFrom ?_ ?_ ?_) fun _ => .ok _
        · show n.log.base < n.lastApply + 1
          omega
        · show n.lastApply + 1 + (index - n.lastApply) ≤ n.log.append
          omega
        · show n.lastApply + 1 + (index - n.lastApply) ≤ index + 1
          omega
      · exact .ok _
    · show AssertSite.commitAboveLast ≠ .applyGet
      decide
  · exact .ok n

theorem reads_onAppendEntries (seamless : n.Seamless msg) (quotes : msg.Quotes full)
    (matches_ : n.log.Matches full) : Reads (n.onAppendEntries msg now) := by
  refine meets_onAppendEntries
    (fun n₂ => n.Accepts msg ∧ n₂.log = n.log.accept msg.preLogIndex msg.entries ∧
      n₂.commit = n.commit ∧ n₂.lastApply = n.lastApply)
    (fun _ => True) ?_ (fun _ _ => trivial) ?_ ?_ (fun _ _ _ _ => trivial)
  · rintro ⟨site, _⟩ (rfl | rfl | rfl) <;> exact nofun
  · intro n₁ hears accepts
    refine Meets.intro_ (fun n₂ done => ?_) fun failed => reads_acceptEntries.of_error
    have writes := writes_acceptEntries done
    refine ⟨accepts, ?_, writes.commit.trans hears.commit, writes.lastApply.trans hears.lastApply⟩
    rw [writes.log, hears.log]
  · rintro n₂ ⟨accepts, log, commit, lastApply⟩
    refine reads_learnCommit fun later => ?_
    have extends_ := extends_of_seamless accepts seamless quotes matches_
    rw [commit, lastApply] at later
    rw [log, lastApply, extends_.base]
    obtain ⟨rooted, below⟩ := (seamless accepts).2 later
    refine ⟨rooted, ?_⟩
    by_cases nothing : msg.entries = []
    · rw [nothing, Log.accept_nil]
      exact below nothing
    · exact quotes.commitIndex.trans_lt (extends_.reaches nothing)

/-! ## Along runs -/

/-- The piece is the last one of a snapshot that is put in the place of the state
machine. -/
def Replaces (n : Node) (msg : InstallSnapshot) : Prop :=
  n.started = true ∧ n.solid.term ≤ msg.term ∧ n.Swaps msg ∧
    ∃ writer, n.writerFor msg = some writer ∧ writer.stored < msg.offset

/-- What becomes of a node under messages of the leader that has the log `full`, if its
log may be compacted and it may restart.  The last snapshot that has taken the place of
the state machine goes up to `s`.  `takes` and `installs` say which messages there are. -/
inductive Trails (full : List AppendEntry) (takes : Node → AppendEntries → Prop)
    (installs : Node → InstallSnapshot → Prop) : ℕ → Node → Prop
  | start (n : Node) (matches_ : n.log.Matches full) : Trails full takes installs 0 n
  | compact {s : ℕ} {n : Node} (before : Trails full takes installs s n) (to_ : ℕ) :
      Trails full takes installs s (n.deleteUtil to_)
  | restart {s : ℕ} {n : Node} (before : Trails full takes installs s n) (rc : RaftConfig)
      (flags : Flags) : Trails full takes installs s (Node.boot rc flags n.disk)
  | piece {s : ℕ} {n : Node} (before : Trails full takes installs s n) (msg : InstallSnapshot)
      (now : ℤ) (stays : ¬n.Replaces msg) (n' : Node)
      (done : n.onInstallSnapshot msg now = .ok n') : Trails full takes installs s n'
  | install {s : ℕ} {n : Node} (before : Trails full takes installs s n) (msg : InstallSnapshot)
      (now : ℤ) (quotes : msg.Quotes full) (replaces : n.Replaces msg) (permitted : installs n msg)
      (n' : Node) (done : n.onInstallSnapshot msg now = .ok n') :
      Trails full takes installs msg.lastIndex n'
  | append {s : ℕ} {n : Node} (before : Trails full takes installs s n) (msg : AppendEntries)
      (now : ℤ) (quotes : msg.Quotes full) (permitted : takes n msg) (n' : Node)
      (done : n.onAppendEntries msg now = .ok n') : Trails full takes installs s n'

theorem boot_entryAt (rc : RaftConfig) (flags : Flags) (disk : Disk) (index : ℕ) :
    (Node.boot rc flags disk).log.entryAt index = disk.log.entryAt index := by
  unfold boot
  dsimp only
  split <;> rfl

theorem onInstallSnapshot_log {msg : InstallSnapshot}
    (done : n.onInstallSnapshot msg now = .ok n') : n'.log = n.log := by
  cases onInstallSnapshot_installs done with
  | off stopped => rfl
  | stale late => rfl
  | again n₁ heard writer found held => exact (hears_hearLeader.of_ok heard).log
  | next n₁ heard writer found beyond =>
      have log : (n₁.receive msg writer).log = n₁.log := by
        by_cases swaps : n₁.Swaps msg
        · rw [receive_of_swaps swaps]
        · rw [receive_of_not_swaps swaps]
      exact log.trans (hears_hearLeader.of_ok heard).log

/-- The last entry of a snapshot shows that the log below it is the leader's. -/
theorem Clear.clean {msg : InstallSnapshot} (clear : n.Clear msg) (quotes : msg.Quotes full)
    (matches_ : n.log.Matches full) : n.log.Clean full msg.lastIndex := by
  intro above upper higher found index le stored found'
  have uncompacted : n.log.base < index := by
    by_contra compacted
    rw [Log.entryAt, if_pos (not_lt.mp compacted)] at found'
    contradiction
  have below := Log.entryAt_lt found
  obtain ⟨last, at_last⟩ := n.log.exists_entryAt msg.lastIndex (by omega) (by omega)
  obtain ⟨final, position, same⟩ := quotes (by omega)
  have term := clear last (by omega) at_last
  exact matches_ _ _ _ at_last position (term.trans same.symm) index le stored found'

theorem Trails.in_line (trails : n.Trails full Seamless Clear s) :
    n.log.Matches full ∧ n.log.Clean full s := by
  induction trails with
  | start n matches_ =>
      refine ⟨matches_, fun _ _ _ _ index le stored found => ?_⟩
      rw [Log.entryAt, if_pos (by omega)] at found
      contradiction
  | compact before to_ ih =>
      exact ⟨ih.1.of_le fun _ _ => Log.entryAt_of_deleteUtil,
        ih.2.of_le fun _ _ => Log.entryAt_of_deleteUtil⟩
  | @restart s n before rc flags ih =>
      have le : ∀ index stored, (Node.boot rc flags n.disk).log.entryAt index = some stored →
          n.log.entryAt index = some stored := by
        intro index stored found
        rwa [boot_entryAt] at found
      exact ⟨ih.1.of_le le, ih.2.of_le le⟩
  | piece before msg now stays n' done ih =>
      rw [onInstallSnapshot_log done]
      exact ih
  | install before msg now quotes replaces clear n' done ih =>
      rw [onInstallSnapshot_log done]
      exact ⟨ih.1, clear.clean quotes ih.1⟩
  | append before msg now quotes seamless n' done ih =>
      exact onAppendEntries_trails seamless quotes ih.1 ih.2 done

/-- In every run in which each message that is accepted continues the log without a gap
and commits only what is there then, and each snapshot that comes to its end leaves no
conflict behind, entries are stored at their own indices, no conflicting entry lies below
one above the snapshot, and what is to be applied is in the log. -/
theorem stays_aligned (trails : n.Trails full Seamless Clear s) :
    n.log.Clean full s ∧
    ∀ msg now, msg.Quotes full → n.Seamless msg →
      Meets (n.onAppendEntries msg now)
        (fun n' => n.Accepts msg → n.log.Stores n'.log msg.entries)
        fun failed => failed.1 ≠ .applyGet := by
  obtain ⟨matches_, clean⟩ := trails.in_line
  refine ⟨clean, fun msg now quotes seamless => Meets.intro_ (fun n' done accepts => ?_)
    fun failed => (reads_onAppendEntries seamless quotes matches_).of_error⟩
  rw [onAppendEntries_log done, if_pos accepts]
  exact (extends_of_seamless accepts seamless quotes matches_).stores

/-- The log of a leader of term 2. -/
def led : List AppendEntry := [⟨2, .data, [7]⟩, ⟨2, .data, [8]⟩]

/-- A member of three at its first start. -/
def beginner : Node :=
  Node.boot ⟨2, [1, 3]⟩ ⟨false, false, false, { createWriter := true }⟩ (Disk.fresh true)

/-- The leader sends its entry at `pre + 1`. -/
def sends (pre commit : ℕ) : AppendEntries where
  src := 1
  dest := 2
  term := 2
  preLogIndex := pre
  preLogTerm := if pre = 0 then 0 else 2
  commitIndex := commit
  entries := numbered pre ((led.drop pre).take 1)

theorem quotes_sends_zero : (sends 0 1).Quotes led where
  entries := rfl
  preLogTerm := nofun
  commitIndex := le_rfl

theorem quotes_sends_one {commit : ℕ} (le : commit ≤ 2) : (sends 1 commit).Quotes led where
  entries := rfl
  preLogTerm := fun _ => ⟨⟨2, .data, [7]⟩, rfl, rfl⟩
  commitIndex := le

theorem matches_beginner : beginner.log.Matches led := by
  intro index stored sent found
  have none_ : beginner.log.entryAt index = none := by
    unfold Log.entryAt
    split
    · rfl
    · rfl
  rw [none_] at found
  contradiction

/-- A follower that has compacted its whole log stores the next entry behind it. -/
theorem stays_aligned_emptied : ∃ n n' : Node, n.Trails led Seamless Clear 0 ∧ n.log.entries = [] ∧
    n.onAppendEntries (sends 1 2) 0 = .ok n' ∧ n'.log.entryAt 2 = some ⟨2, .data, [8]⟩ ∧
      n'.lastApply = 2 := by
  have first := @ok_node (beginner.onAppendEntries (sends 0 1) 0) (by decide +kernel)
  have second := @ok_node
    ((((beginner.onAppendEntries (sends 0 1) 0).node).deleteUtil 1).onAppendEntries (sends 1 2) 0)
    (by decide +kernel)
  have begins : Seamless beginner (sends 0 1) := by
    intro _
    exact ⟨fun _ => ⟨by decide +kernel, fun _ => by decide +kernel⟩,
      fun _ => ⟨by decide +kernel, nofun⟩⟩
  have start : beginner.Trails led Seamless Clear 0 := .start beginner matches_beginner
  have trails := (start.append (sends 0 1) 0 quotes_sends_zero begins _ first).compact 1
  have seamless : Seamless (((beginner.onAppendEntries (sends 0 1) 0).node).deleteUtil 1)
      (sends 1 2) := by
    intro _
    exact ⟨fun _ => ⟨by decide +kernel, fun _ => by decide +kernel⟩,
      fun _ => ⟨by decide +kernel, nofun⟩⟩
  have stores := ((stays_aligned trails).2 (sends 1 2) 0 (quotes_sends_one le_rfl) seamless).of_ok
    second (by decide +kernel)
  exact ⟨_, _, trails, by decide +kernel, second,
    stores.placed ⟨2, ⟨2, .data, [8]⟩⟩ (by decide) (by decide +kernel), by decide +kernel⟩

/-- The pieces of a snapshot up to the first entry. -/
def snapshotPiece (offset : ℤ) (data : Bytes) (done : Bool) : InstallSnapshot where
  src := 1
  dest := 2
  term := 2
  lastIndex := 1
  lastTerm := 2
  offset := offset
  data := data
  done := done

/-- The entry that follows a snapshot up to index 1 is stored at index 1 of the empty
log. -/
theorem not_stays_aligned : ¬∀ (full : List AppendEntry) (s : ℕ) (n : Node),
    n.Trails full (fun _ _ => True) (fun _ _ => True) s →
    n.log.Clean full s ∧
    ∀ msg now, msg.Quotes full →
      Meets (n.onAppendEntries msg now)
        (fun n' => n.Accepts msg → n.log.Stores n'.log msg.entries)
        fun failed => failed.1 ≠ .applyGet := by
  intro aligned
  set first := (beginner.onInstallSnapshot (snapshotPiece 0 [1] false) 0).node with first_eq
  set second := (first.onInstallSnapshot (snapshotPiece 1 [] true) 0).node with second_eq
  have trails : second.Trails led (fun _ _ => True) (fun _ _ => True) 1 := by
    have begun := @ok_node (beginner.onInstallSnapshot (snapshotPiece 0 [1] false) 0)
      (by decide +kernel)
    have ended := @ok_node (first.onInstallSnapshot (snapshotPiece 1 [] true) 0) (by decide +kernel)
    refine .install ((Trails.start beginner matches_beginner).piece _ 0 ?_ _ begun)
      (snapshotPiece 1 [] true) 0 ?_ ?_ trivial _ ended
    · intro replaces
      exact absurd replaces.2.2.1.1 (by decide)
    · exact fun _ => ⟨⟨2, .data, [7]⟩, rfl, rfl⟩
    · exact ⟨by decide +kernel, by decide +kernel, by decide +kernel,
        ⟨⟨1, 2, [1]⟩, by decide +kernel, by decide⟩⟩
  obtain ⟨-, each⟩ := aligned led 1 second trails
  have uncommitted := @ok_node (second.onAppendEntries (sends 1 0) 0) (by decide +kernel)
  have placed := ((each (sends 1 0) 0 (quotes_sends_one (by decide))).of_ok uncommitted
    (by decide +kernel)).placed ⟨2, ⟨2, .data, [8]⟩⟩ (by decide) (by decide +kernel)
  exact absurd placed (by decide +kernel)

end Node

end Vraft
