import Vraft.Raft.Follow

/-!
# What accepting entries leaves in the log

An index of the resulting log holds what it held before as long as the log has
had the sent terms up to there, and the sent entry from the first other index on.
The handler replies with success exactly to the messages it takes over, and a
message that has been taken over changes nothing when it comes again.
-/

namespace Vraft

theorem getElem?_numbered (index position : ℕ) (entries : List AppendEntry) :
    ((numbered index entries)[position]?).map LogEntry.appendEntry = entries[position]? := by
  induction entries generalizing index position with
  | nil => rfl
  | cons entry rest ih =>
      cases position with
      | zero => rfl
      | succ position => exact ih (index + 1) position

namespace Log

theorem entryAt_of_append_le {log : Log} {index : ℕ} (le : log.append ≤ index) :
    log.entryAt index = none := by
  cases found : log.entryAt index with
  | none => rfl
  | some entry => exact absurd (entryAt_lt found) (not_lt.mpr le)

theorem entryAt_appendAll (log : Log) (entries : List LogEntry) (index : ℕ) :
    (log.appendAll entries).entryAt index =
      if index < log.append then log.entryAt index
      else (entries[index - log.append]?).map LogEntry.appendEntry := by
  induction entries generalizing log with
  | nil =>
      split
      · rfl
      · rename_i beyond
        exact entryAt_of_append_le (not_lt.mp beyond)
  | cons entry rest ih =>
      rw [appendAll_cons, ih, append_appendOne, entryAt_appendOne]
      by_cases next : index = log.append
      · subst next
        simp
      · by_cases before : index < log.append
        · rw [if_pos (by omega), if_neg next, if_pos before]
        · rw [if_neg (by omega), if_neg before,
            show index - log.append = index - (log.append + 1) + 1 by omega,
            List.getElem?_cons_succ]

theorem NothingFrom.eq_append {log : Log} {cut : ℕ} (nothing : log.NothingFrom cut)
    (above : log.base < cut) (below : cut ≤ log.append) : cut = log.append := by
  rw [append] at below ⊢
  rcases nothing with empty | past
  · simp only [empty, List.length_nil] at below ⊢
    omega
  · rw [last] at past
    split at past
    · rename_i empty
      simp only [empty, List.length_nil] at below ⊢
      omega
    · omega

/-- A truncation inside the log, or at its end, keeps exactly what lies before. -/
theorem entryAt_truncate {log : Log} {cut : ℕ} (above : log.base < cut) (below : cut ≤ log.append)
    (index : ℕ) :
    (log.deleteFrom cut).entryAt index = if index < cut then log.entryAt index else none := by
  unfold deleteFrom
  split
  · rename_i nothing
    have at_end := nothing.eq_append above below
    split
    · rfl
    · exact entryAt_of_append_le (by omega)
  · rename_i something
    have first : log.first = log.base + 1 := if_neg fun empty => something (.inl empty)
    simp only [entryAt]
    rw [List.getElem?_take]
    by_cases compacted : index ≤ log.base
    · rw [if_pos compacted, if_pos (by omega), if_pos compacted]
    · by_cases before : index < cut
      · rw [if_neg compacted, if_pos (by omega), if_pos before, if_neg compacted]
      · rw [if_neg compacted, if_neg (by omega), if_neg before]

theorem append_truncate {log : Log} {cut : ℕ} (above : log.base < cut) (below : cut ≤ log.append) :
    (log.deleteFrom cut).append = cut := by
  unfold deleteFrom
  split
  · rename_i nothing
    exact (nothing.eq_append above below).symm
  · rename_i something
    have first : log.first = log.base + 1 := if_neg fun empty => something (.inl empty)
    rw [append] at below ⊢
    simp only [List.length_take]
    omega

variable {log : Log} {pre cut : ℕ} {entries : List AppendEntry} {tail : List LogEntry}

/-- Below the cut the log is what it was; from there on it is what was sent. -/
theorem Divided.entryAt (divided : log.Divided pre entries cut tail) (index : ℕ) :
    ((log.deleteFrom cut).appendAll tail).entryAt index =
      if index < cut then log.entryAt index else entries[index - pre - 1]? := by
  have above := divided.above
  rw [entryAt_appendAll, append_truncate (by omega) divided.below,
    entryAt_truncate (by omega) divided.below]
  by_cases before : index < cut
  · simp only [if_pos before]
  · rw [if_neg before, if_neg before, divided.tail, getElem?_numbered, List.getElem?_drop]
    congr 1
    omega

@[simp]
theorem base_appendAll (log : Log) (entries : List LogEntry) :
    (log.appendAll entries).base = log.base := by
  induction entries generalizing log with
  | nil => rfl
  | cons entry rest ih => exact ih _

/-- The log and the entries that follow `pre` have the same term at an index. -/
def Held (log : Log) (pre : ℕ) (entries : List AppendEntry) (index : ℕ) : Prop :=
  ∃ stored sent, log.entryAt index = some stored ∧ entries[index - pre - 1]? = some sent ∧
    stored.term = sent.term

/-- Some index that both have has two terms. -/
def Conflicts (log : Log) (pre : ℕ) (entries : List AppendEntry) : Prop :=
  ∃ index stored sent, pre < index ∧ log.entryAt index = some stored ∧
    entries[index - pre - 1]? = some sent ∧ stored.term ≠ sent.term

/-- What an uncompacted log becomes when the entries that follow `pre` are accepted. -/
structure Overwrites (log : Log) (pre : ℕ) (entries : List AppendEntry) (log' : Log) : Prop where
  before : ∀ index, index ≤ pre → log'.entryAt index = log.entryAt index
  agrees : ∀ index, pre < index → index ≤ pre + entries.length → log'.Held pre entries index
  retained : ∀ index, pre < index →
    (∀ earlier, pre < earlier → earlier ≤ index → log.Held pre entries earlier) →
    log'.entryAt index = log.entryAt index
  written : ∀ index, pre < index → index ≤ pre + entries.length →
    ¬(∀ earlier, pre < earlier → earlier ≤ index → log.Held pre entries earlier) →
    log'.entryAt index = entries[index - pre - 1]?
  kept : ¬log.Conflicts pre entries → ∀ index, pre + entries.length < index →
    log'.entryAt index = log.entryAt index
  dropped : log.Conflicts pre entries → ∀ index, pre + entries.length < index →
    log'.entryAt index = none

/-- A log that reaches up to the entries is divided, an empty one if they come at
its end. -/
theorem divide_reached (reaches : pre < log.append) (joins : log.entries = [] → pre = log.base)
    (entries : List AppendEntry) :
    log.Divided pre entries (log.divide pre (numbered pre entries)).1
      (log.divide pre (numbered pre entries)).2 := by
  by_cases nonempty : log.entries = []
  · have last : log.last = 0 := if_pos nonempty
    have first : log.first = 0 := if_pos nonempty
    have append : log.append = log.base + 1 := by simp [Log.append, nonempty]
    obtain rfl := joins nonempty
    cases entries with
    | nil =>
        rw [numbered, divide, append]
        exact ⟨by simp, append.ge, by simp [numbered], fun index above below => by omega,
          fun le => by omega⟩
    | cons entry rest =>
        rw [numbered, divide, if_neg (by omega), if_neg (by omega), append]
        exact Divided.stop le_rfl reaches fun le => by omega
  · have last : log.last + 1 = log.append := congrArg (· + 1) (if_neg nonempty)
    exact divide_numbered nonempty entries (by omega)

/-- An uncompacted log is divided as soon as it reaches up to the entries. -/
theorem divide_uncompacted (base : log.base = 0) (entries : List AppendEntry)
    (reaches : pre ≤ log.last) :
    log.Divided pre entries (log.divide pre (numbered pre entries)).1
      (log.divide pre (numbered pre entries)).2 := by
  refine divide_reached (Nat.lt_of_le_of_lt reaches log.last_lt_append) (fun empty => ?_) entries
  have last : log.last = 0 := if_pos empty
  omega

theorem Divided.held (base : log.base = 0) (divided : log.Divided pre entries cut tail)
    {index : ℕ} (after : pre < index) (before : index < cut)
    (inside : index ≤ pre + entries.length) : log.Held pre entries index :=
  divided.agrees index (by omega) before inside

/-- At the cut the log does not have what was sent. -/
theorem Divided.not_held (divided : log.Divided pre entries cut tail) :
    ¬log.Held pre entries cut := by
  rintro ⟨stored, sent, found, position, same⟩
  have inside : cut ≤ log.last := by
    have := entryAt_lt found
    have below := divided.below
    have above := divided.above
    rw [append] at this
    rw [last]
    split
    · rename_i empty
      simp only [empty, List.length_nil] at this
      omega
    · omega
  obtain ⟨stored', sent', found', position', differ⟩ := divided.differs inside
  rw [found'] at found
  rw [position'] at position
  obtain rfl := Option.some.inj found
  obtain rfl := Option.some.inj position
  exact differ same

theorem Divided.cut_eq_append (divided : log.Divided pre entries cut tail)
    (agreed : ¬log.Conflicts pre entries) : cut = log.append := by
  have above := divided.above
  have below := divided.below
  by_contra inside
  have le : cut ≤ log.last := by
    rw [append] at below inside
    rw [last]
    split
    · rename_i empty
      simp only [empty, List.length_nil] at below inside
      omega
    · omega
  obtain ⟨stored, sent, found, position, differ⟩ := divided.differs le
  exact agreed ⟨cut, stored, sent, by omega, found, position, differ⟩

theorem Divided.overwrites (base : log.base = 0) (divided : log.Divided pre entries cut tail) :
    log.Overwrites pre entries ((log.deleteFrom cut).appendAll tail) := by
  have above : pre < cut := lt_of_le_of_lt (le_max_left _ _) divided.above
  refine ⟨fun index le => ?_, fun index after inside => ?_, fun index after held => ?_,
    fun index after inside other => ?_, fun agreed index beyond => ?_,
    fun conflicts index beyond => ?_⟩
  · rw [divided.entryAt, if_pos (by omega)]
  · by_cases before : index < cut
    · have held := divided.held base after before inside
      rwa [Held, divided.entryAt, if_pos before]
    · rw [Held, divided.entryAt, if_neg before, List.getElem?_eq_getElem (by omega)]
      exact ⟨_, _, rfl, rfl, rfl⟩
  · rw [divided.entryAt, if_pos]
    by_contra reached
    exact divided.not_held (held cut above (not_lt.mp reached))
  · rw [divided.entryAt, if_neg]
    intro before
    exact other fun earlier later le => divided.held base later (by omega) (by omega)
  · have at_end := divided.cut_eq_append agreed
    rw [divided.entryAt]
    split
    · rfl
    · rw [List.getElem?_eq_none (by omega), entryAt_of_append_le (by omega)]
  · obtain ⟨found_at, stored, sent, after, found, position, differ⟩ := conflicts
    have inside : found_at - pre - 1 < entries.length := (List.getElem?_eq_some_iff.mp position).1
    have cut_le : cut ≤ found_at := by
      by_contra before
      obtain ⟨stored', sent', found', position', same⟩ :=
        divided.held base after (not_le.mp before) (by omega)
      rw [found'] at found
      rw [position'] at position
      obtain rfl := Option.some.inj found
      obtain rfl := Option.some.inj position
      exact differ same
    rw [divided.entryAt, if_neg (by omega), List.getElem?_eq_none (by omega)]

theorem accept_overwrites (base : log.base = 0) (entries : List AppendEntry)
    (reaches : pre ≤ log.last) :
    log.Overwrites pre entries (log.accept pre (numbered pre entries)) :=
  (divide_uncompacted base entries reaches).overwrites base

end Log

/-! ## Handling a message -/

namespace Node

variable {n n' : Node} {msg : AppendEntries} {now : ℤ}

/-- Entries that are held already are skipped. -/
theorem acceptEntries_held (base : n.log.base = 0) {pre : ℕ} (entries : List AppendEntry)
    (held : ∀ index, pre < index → index ≤ pre + entries.length →
      n.log.Held pre entries index) :
    n.acceptEntries pre (numbered pre entries) = .ok n := by
  induction entries generalizing pre with
  | nil => rfl
  | cons entry rest ih =>
      obtain ⟨stored, sent, found, position, same⟩ := held (pre + 1) (by omega) (by simp)
      have sent_eq : sent = entry := by simpa using position.symm
      subst sent_eq
      have rest_held : n.acceptEntries (pre + 1) (numbered (pre + 1) rest) = .ok n := by
        refine ih fun index after inside => ?_
        obtain ⟨stored, sent, found, position, same⟩ := held index (by omega) (by
          rw [List.length_cons]
          omega)
        refine ⟨stored, sent, found, ?_, same⟩
        rwa [show index - pre - 1 = index - (pre + 1) - 1 + 1 by omega,
          List.getElem?_cons_succ] at position
      have inside : pre + 1 ≤ n.log.last := by
        have := Log.entryAt_lt found
        rw [Log.append, base] at this
        rw [Log.last_of_base_zero base]
        omega
      rw [numbered, acceptEntries, check, if_pos rfl, ok_bind,
        if_neg (not_lt.mpr ((Log.first_le_one base).trans (by omega))), if_pos inside]
      simp only [Log.getMeta, found, Option.map_some, same, if_true]
      exact rest_held

/-- Term and leader are not touched. -/
def Heeds (n n' : Node) : Prop :=
  n'.solid = n.solid ∧ n'.leader = n.leader

theorem heeds_applyOne {index : ℕ} : Meets (n.applyOne index) (Heeds n) fun _ => True := by
  unfold applyOne
  split
  · exact Meets.error trivial
  · split
    · split <;> exact Meets.ok ⟨rfl, rfl⟩
    · refine Meets.ok ?_
      split <;> exact ⟨rfl, rfl⟩
    · exact Meets.ok ⟨rfl, rfl⟩
    · exact Meets.error trivial

theorem heeds_applyFrom {index count : ℕ} :
    Meets (n.applyFrom index count) (Heeds n) fun _ => True := by
  induction count generalizing n index with
  | zero => exact Meets.ok ⟨rfl, rfl⟩
  | succ count ih =>
      refine Meets.bind heeds_applyOne fun n₁ first => ih.mono (fun n₂ second => ?_) fun _ => id
      exact ⟨second.1.trans first.1, second.2.trans first.2⟩

theorem heeds_learnCommit {index : ℕ} :
    Meets (n.learnCommit index) (Heeds n) fun _ => True := by
  unfold learnCommit
  split
  · dsimp only
    unfold check
    split
    · rw [ok_bind]
      unfold stateMachineApply
      split
      · exact Meets.bind heeds_applyFrom fun _ heeds => Meets.ok heeds
      · exact Meets.ok ⟨rfl, rfl⟩
    · exact Meets.error trivial
  · exact Meets.ok ⟨rfl, rfl⟩

/-- Once the sender has been heard in its term it is the known leader of that term. -/
theorem hearLeader_ok {src : Addr} {term : ℕ} (done : n.hearLeader src term now = .ok n') :
    n'.solid.term = term ∧ n'.leader = src := by
  obtain ⟨n₁, down, done⟩ := ok_of_bind_ok done
  have reached : n₁.solid.term = term := by
    obtain ⟨n₂, checked, down⟩ := ok_of_bind_ok down
    unfold check at checked
    split at checked
    · obtain rfl := Except.ok.inj checked
      obtain rfl := Except.ok.inj down
      split
      · rfl
      · show n.solid.term = term
        omega
    · contradiction
  dsimp only at done
  split at done
  · obtain rfl := Except.ok.inj done
    exact ⟨reached, rfl⟩
  · unfold check at done
    split at done
    · rename_i known
      obtain rfl := Except.ok.inj done
      exact ⟨reached, known⟩
    · contradiction

theorem hearLeader_again {src : Addr} {term : ℕ} (same : n.solid.term = term)
    (known : n.leader = src) : ∃ n₁, n.hearLeader src term now = .ok n₁ := by
  unfold hearLeader stepDown check
  simp only [same, le_refl, lt_irrefl, if_true, if_false, ok_bind, known]
  split <;> exact ⟨_, rfl⟩

/-- The log and the state machine decide what is taken over. -/
theorem preLogMismatch_iff {n₁ : Node} (hears : Hears n n₁) (started : n.started = true)
    (current : n.solid.term ≤ msg.term) {mismatch : Bool}
    (done : n₁.preLogMismatch msg = .ok mismatch) : mismatch = false ↔ n.Accepts msg := by
  refine ⟨(meets_preLogMismatch hears started current).of_ok done, fun accepts => ?_⟩
  obtain ⟨-, -, reaches, matched⟩ := accepts
  have last : n₁.lastIndex = n.lastIndex := by
    rw [lastIndex, lastIndex, smLast, smLast, hears.log, hears.sm]
  have term : n₁.getTerm msg.preLogIndex = n.getTerm msg.preLogIndex := by
    rw [getTerm, getTerm, hears.log, hears.sm]
  rw [preLogMismatch, last, term, hears.log, if_neg (by omega)] at done
  split at done
  · rename_i valid
    rw [matched valid] at done
    simpa using (Except.ok.inj done).symm
  · exact (Except.ok.inj done).symm

/-- A handled message ends with a reply, after a refusal or after the entries and the
commit index have been taken over. -/
theorem onAppendEntries_ok (started : n.started = true) (current : n.solid.term ≤ msg.term)
    (done : n.onAppendEntries msg now = .ok n') :
    ∃ n₁ reply, Hears n n₁ ∧ n₁.solid.term = msg.term ∧ n₁.leader = msg.src ∧
      n'.effects.getLast? = some (.send (.appendEntriesReply reply)) ∧
      (reply.success = false ∧ ¬n.Accepts msg ∧ Hears n₁ n' ∧ Heeds n₁ n' ∨
        reply.success = true ∧ n.Accepts msg ∧
          ∃ n₂ n₃, n₁.acceptEntries msg.preLogIndex msg.entries = .ok n₂ ∧
            n₂.learnCommit msg.commitIndex = .ok n₃ ∧ Hears n₃ n' ∧ Heeds n₃ n') := by
  unfold onAppendEntries at done
  rw [if_neg (by simp [started])] at done
  dsimp only at done
  rw [if_neg (not_lt.mpr current)] at done
  obtain ⟨n₁, heard, done⟩ := ok_of_bind_ok done
  have hears := hears_hearLeader.of_ok heard
  obtain ⟨term, leader⟩ := hearLeader_ok heard
  obtain ⟨mismatch, looked, done⟩ := ok_of_bind_ok done
  have decides := preLogMismatch_iff hears started current looked
  cases mismatch with
  | true =>
      obtain rfl := Except.ok.inj done
      refine ⟨n₁, _, hears, term, leader, List.getLast?_concat, .inl ⟨rfl, ?_, ?_, rfl, rfl⟩⟩
      · exact fun accepts => absurd (decides.mpr accepts) nofun
      · constructor <;> rfl
  | false =>
      obtain ⟨n₂, accepted, done⟩ := ok_of_bind_ok done
      obtain ⟨n₃, learned, done⟩ := ok_of_bind_ok done
      obtain rfl := Except.ok.inj done
      refine ⟨n₁, _, hears, term, leader, List.getLast?_concat,
        .inr ⟨rfl, decides.mp rfl, n₂, n₃, accepted, learned, ?_, rfl, rfl⟩⟩
      constructor <;> rfl

/-- The message fits a node with an uncompacted log: it starts at the beginning, or
behind an index that the node has reached, whose term is the sent one if it is in
the log. -/
def Fits (n : Node) (msg : AppendEntries) : Prop :=
  msg.preLogIndex = 0 ∨ msg.preLogIndex ≤ n.lastIndex ∧ (msg.preLogIndex ≤ n.log.last →
    ∃ stored, n.log.entryAt msg.preLogIndex = some stored ∧ stored.term = msg.preLogTerm)

/-- The entry at an index of an uncompacted log gives its term. -/
theorem getTerm_uncompacted (base : n.log.base = 0) {index : ℕ}
    (valid : n.log.indexValid index = true) :
    ∃ stored, n.log.entryAt index = some stored ∧ n.getTerm index = some stored.term := by
  obtain ⟨positive, inside⟩ := (Log.indexValid_of_base_zero base index).mp valid
  obtain ⟨stored, found⟩ := n.log.exists_entryAt index (by omega) (by
    rw [Log.append]
    omega)
  refine ⟨stored, found, ?_⟩
  rw [getTerm, if_neg (by omega), Log.getMeta, found]
  rfl

theorem accepts_iff_fits (started : n.started = true) (base : n.log.base = 0)
    (current : n.solid.term ≤ msg.term) : n.Accepts msg ↔ n.Fits msg := by
  have valid_iff := Log.indexValid_of_base_zero base msg.preLogIndex
  have last := Log.last_of_base_zero base
  constructor
  · rintro ⟨-, -, reaches, matched⟩
    by_cases first : msg.preLogIndex = 0
    · exact .inl first
    · refine .inr ⟨reaches, fun inside => ?_⟩
      have valid := valid_iff.mpr ⟨by omega, by omega⟩
      obtain ⟨stored, found, term⟩ := getTerm_uncompacted base valid
      rw [matched valid] at term
      exact ⟨stored, found, (Option.some.inj term).symm⟩
  · rintro (first | ⟨reaches, matched⟩)
    · refine ⟨started, current, by omega, fun valid => ?_⟩
      rw [valid_iff] at valid
      omega
    · refine ⟨started, current, reaches, fun valid => ?_⟩
      obtain ⟨stored, found, term⟩ := getTerm_uncompacted base valid
      obtain ⟨stored', found', same⟩ := matched (by
        have := valid_iff.mp valid
        omega)
      rw [found] at found'
      obtain rfl := Option.some.inj found'
      rw [term, same]

theorem preLogMismatch_uncompacted (base : n.log.base = 0) :
    ∃ mismatch, n.preLogMismatch msg = .ok mismatch := by
  unfold preLogMismatch
  split
  · exact ⟨_, rfl⟩
  · split
    · rename_i valid
      obtain ⟨stored, -, term⟩ := getTerm_uncompacted base valid
      rw [term]
      exact ⟨_, rfl⟩
    · exact ⟨_, rfl⟩

/-- A message from the known leader whose entries are held and whose commit index has
been reached changes neither log nor commit index. -/
theorem onAppendEntries_settled (started : n.started = true) (base : n.log.base = 0)
    (term : n.solid.term = msg.term) (known : n.leader = msg.src) (entries : List AppendEntry)
    (consecutive : msg.entries = numbered msg.preLogIndex entries)
    (settled : n.Accepts msg → msg.commitIndex ≤ n.commit ∧
      ∀ index, msg.preLogIndex < index → index ≤ msg.preLogIndex + entries.length →
        n.log.Held msg.preLogIndex entries index) :
    ∃ n', n.onAppendEntries msg now = .ok n' ∧ n'.log = n.log ∧ n'.commit = n.commit := by
  unfold onAppendEntries
  rw [if_neg (by simp [started])]
  dsimp only
  rw [if_neg (by omega)]
  obtain ⟨n₁, heard⟩ := @hearLeader_again _ now _ _ term known
  have hears := hears_hearLeader.of_ok heard
  have base₁ : n₁.log.base = 0 := by rw [hears.log, base]
  rw [followLeader, heard, ok_bind]
  obtain ⟨mismatch, looked⟩ := @preLogMismatch_uncompacted _ msg base₁
  rw [looked, ok_bind]
  cases mismatch with
  | true => exact ⟨_, rfl, hears.log, hears.commit⟩
  | false =>
      obtain ⟨reached, held⟩ :=
        settled ((preLogMismatch_iff hears started term.le looked).mp rfl)
      rw [← hears.log] at held
      rw [← hears.commit] at reached
      rw [if_neg Bool.false_ne_true, consecutive, acceptEntries_held base₁ entries held, ok_bind,
        learnCommit, if_neg (by omega), ok_bind]
      exact ⟨_, rfl, hears.log, hears.commit⟩

/-- What one message does to a started node with an uncompacted log.  It is answered with
success exactly if it fits; if not, nothing changes; if so, the commit index is taken
over and a log that reaches up to the entries is overwritten; and the same message
changes nothing when it comes again. -/
theorem onAppendEntries_overwrites (started : n.started = true) (base : n.log.base = 0)
    (current : n.solid.term ≤ msg.term) (entries : List AppendEntry)
    (consecutive : msg.entries = numbered msg.preLogIndex entries)
    (done : n.onAppendEntries msg now = .ok n') :
    (∃ reply, n'.effects.getLast? = some (.send (.appendEntriesReply reply)) ∧
      (reply.success = true ↔ n.Fits msg)) ∧
    (¬n.Fits msg → n'.log = n.log ∧ n'.commit = n.commit ∧ n'.lastApply = n.lastApply) ∧
    (n.Fits msg → n'.commit = max n.commit msg.commitIndex) ∧
    (n.Fits msg → msg.preLogIndex ≤ n.log.last →
      n.log.Overwrites msg.preLogIndex entries n'.log) ∧
    (¬n.Fits msg ∨ msg.preLogIndex ≤ n.log.last → ∀ again, ∃ n'',
      n'.onAppendEntries msg again = .ok n'' ∧ n''.log = n'.log ∧ n''.commit = n'.commit) := by
  obtain ⟨n₁, reply, hears, term, leader, replied, outcome⟩ :=
    onAppendEntries_ok started current done
  rw [accepts_iff_fits started base current] at outcome
  rcases outcome with ⟨refused, unfit, rest, heeds⟩ |
    ⟨accepted, fit, n₂, n₃, took, learned, rest, heeds⟩
  · have whole := hears.trans rest
    refine ⟨⟨reply, replied, by simp [refused, unfit]⟩,
      fun _ => ⟨whole.log, whole.commit, whole.lastApply⟩, fun fit => absurd fit unfit,
      fun fit => absurd fit unfit, fun _ again => ?_⟩
    have started' : n'.started = true := whole.started.trans started
    have base' : n'.log.base = 0 := by rw [whole.log, base]
    have term' : n'.solid.term = msg.term := by rw [heeds.1, term]
    refine onAppendEntries_settled started' base' term' (heeds.2.trans leader) entries consecutive
      fun accepts => absurd ?_ unfit
    rw [accepts_iff_fits started' base' term'.le] at accepts
    rwa [Fits, lastIndex, smLast, whole.log, whole.sm] at accepts
  · have writes := writes_acceptEntries took
    have applies := applies_learnCommit.of_ok learned
    have heeds₃ := heeds_learnCommit.of_ok learned
    have log : n'.log = n.log.accept msg.preLogIndex (numbered msg.preLogIndex entries) := by
      rw [rest.log, applies.log, ← consecutive, ← hears.log]
      exact writes.log
    have commit : n'.commit = max n.commit msg.commitIndex := by
      rw [rest.commit, applies.commit, ← hears.commit, ← writes.commit]
    have overwrites (reaches : msg.preLogIndex ≤ n.log.last) :
        n.log.Overwrites msg.preLogIndex entries n'.log := by
      rw [log]
      exact Log.accept_overwrites base entries reaches
    refine ⟨⟨reply, replied, by simp [accepted, fit]⟩, fun unfit => absurd fit unfit,
      fun _ => commit, fun _ => overwrites, fun reaches again => ?_⟩
    have started' : n'.started = true := by
      rw [rest.started, applies.started, writes.started, hears.started, started]
    have base' : n'.log.base = 0 := by
      rw [log, Log.accept, Log.base_appendAll, Log.deleteFrom_base, base]
    have term' : n'.solid.term = msg.term := by
      rw [heeds.1, heeds₃.1, writes.solid, term]
    have known' : n'.leader = msg.src := by
      rw [heeds.2, heeds₃.2, writes.leader, leader]
    refine onAppendEntries_settled started' base' term' known' entries consecutive
      fun _ => ⟨by omega, ?_⟩
    exact (overwrites (reaches.resolve_left (not_not.mpr fit))).agrees

/-- A node whose state machine has been put in place by a snapshot up to index 5. -/
def restored : Node :=
  Node.boot ⟨2, [1, 3]⟩ ⟨false, false, false, {}⟩ { Disk.fresh true with sm := some ⟨5, 1⟩ }

/-- The leader of term 2 sends what follows the snapshot. -/
def afterSnapshot : AppendEntries where
  src := 1
  dest := 2
  term := 2
  preLogIndex := 5
  preLogTerm := 1
  commitIndex := 0
  entries := numbered 5 [⟨2, .data, []⟩]

/-- The answer to it. -/
def afterSnapshotReply : AppendEntriesReply where
  src := 2
  dest := 1
  term := 2
  success := true
  lastLogIndex := 5
  reqPreIndex := 5
  reqNumEntries := 1
  reqTerm := 2

/-- An index beyond the log is accepted where a snapshot has taken the node there. -/
theorem accepts_beyond_log :
    ¬∀ (n n' : Node) (msg : AppendEntries) (now : ℤ) (entries : List AppendEntry)
        (reply : AppendEntriesReply),
      n.started = true → n.log.base = 0 → n.solid.term ≤ msg.term →
      msg.entries = numbered msg.preLogIndex entries → n.onAppendEntries msg now = .ok n' →
      n'.effects.getLast? = some (.send (.appendEntriesReply reply)) →
      (reply.success = true ↔ msg.preLogIndex = 0 ∨ msg.preLogIndex ≤ n.log.last ∧
        ∃ stored, n.log.entryAt msg.preLogIndex = some stored ∧
          stored.term = msg.preLogTerm) := by
  intro exact_
  have ends := @ok_node (restored.onAppendEntries afterSnapshot 0) (by decide +kernel)
  have accepted := exact_ restored _ afterSnapshot 0 [⟨2, .data, []⟩] afterSnapshotReply rfl rfl
    (by decide +kernel) rfl ends (by decide +kernel)
  rcases accepted.mp rfl with first | ⟨inside, -⟩
  · exact absurd first (by decide)
  · exact absurd inside (by decide +kernel)

/-- A node with two entries of term 1 whose leader replaces the second. -/
def replaced : Node :=
  Node.boot ⟨2, [1, 3]⟩ ⟨false, false, false, {}⟩
    { Disk.fresh true with
      log := ((Log.empty.appendFirstConfig ⟨2, [1, 3]⟩).appendOne ⟨1, .data, [1]⟩).appendOne
        ⟨1, .data, [2]⟩ }

/-- A message by which the second entry is replaced. -/
def replacement : AppendEntries where
  src := 1
  dest := 2
  term := 2
  preLogIndex := 1
  preLogTerm := 1
  commitIndex := 1
  entries := numbered 1 [⟨2, .data, [3]⟩]

/-- The second entry is overwritten, and stays so when the message comes again. -/
theorem onAppendEntries_overwrites_replacement :
    ∃ n' n'', replaced.onAppendEntries replacement 0 = .ok n' ∧
      n'.log.entryAt 2 = some ⟨2, .data, [3]⟩ ∧ n'.commit = 1 ∧
      n'.onAppendEntries replacement 0 = .ok n'' ∧ n''.log = n'.log := by
  have ends := @ok_node (replaced.onAppendEntries replacement 0) (by decide +kernel)
  obtain ⟨-, -, commit, overwrites, again⟩ := onAppendEntries_overwrites (n := replaced)
    rfl rfl (by decide +kernel) [⟨2, .data, [3]⟩] rfl ends
  have fits : replaced.Fits replacement := by
    refine .inr ⟨by decide +kernel, fun _ => ⟨⟨1, .data, [1]⟩, by decide +kernel, rfl⟩⟩
  obtain ⟨n'', twice, same, -⟩ := again (.inr (by decide +kernel)) 0
  refine ⟨_, n'', ends, ?_, (commit fits).trans (by decide +kernel), twice, same⟩
  refine ((overwrites fits (by decide +kernel)).written 2 (by decide) (by decide) ?_).trans rfl
  intro held
  obtain ⟨stored, sent, found, position, same⟩ := held 2 (by decide) le_rfl
  have stored_eq : replaced.log.entryAt 2 = some ⟨1, .data, [2]⟩ := by decide +kernel
  rw [stored_eq] at found
  obtain rfl := Option.some.inj found
  obtain rfl := Option.some.inj position
  exact absurd same (by decide)

end Node

end Vraft
