import Vraft.Raft.Follow
import Vraft.Roles.Timers

/-!
# One change at a time

A leader refuses a membership request while `changing_index_` is set.  The index
is set when a change is appended and cleared when the change is applied or rolled
back, but a restart forgets it.  As long as no node leads before its commit index
has reached the changes that its log held at its last restart, and leaders send a
change only together with the commitment of all earlier ones, the refusal keeps
two changes from being open at the same time.
-/

namespace Vraft

/-! ## The guard -/

/-- A change above the commit index, or above `bound`, is the one that is guarded,
unless it was in the log at the last restart: those are not above `owed`. -/
def Guarded (bound owed : ℕ) (n : Node) : Prop :=
  ∀ index, n.log.configAt index = true → max n.commit bound < index →
    index = n.changingIndex ∨ index ≤ owed

section Guarded

variable {bound owed : ℕ} {n n' : Node} {heard : Addr → Prop}

theorem Guarded.appendOne (guarded : Guarded bound owed n) {entry : AppendEntry}
    (free : entry.type = .config → n.changingIndex = 0) (done : n.appendOne entry = .ok n') :
    Guarded bound owed n' := by
  rcases appendOne_cases done with ⟨plain, rfl⟩ | ⟨rc, n₁, config, proposes, -, changed, rfl⟩
  · intro index found above
    rcases Log.configAt_appendOne found with ⟨-, proposes⟩ | ⟨-, found⟩
    · exact absurd proposes plain
    · exact guarded index found above
  · have resized : n₁ = _ := doConfigChange_resized changed
    intro index found above
    rcases Log.configAt_appendOne found with ⟨new, -⟩ | ⟨-, found⟩
    · exact .inl new
    · have commit : n₁.commit = n.commit := by
        rw [resized]
        rfl
      rw [commit] at above
      rcases guarded index found above with open_ | settled
      · have := free proposes
        omega
      · exact .inr settled

theorem Guarded.deleteFrom (guarded : Guarded bound owed n) {from_ : ℕ}
    (done : n.deleteFrom from_ = .ok n') : Guarded bound owed n' := by
  rcases deleteFrom_cases done with ⟨-, rfl⟩ | ⟨-, -, rfl⟩ |
    ⟨dropped, n₁, something, only, rolled, rfl⟩
  · exact guarded
  · exact fun index found above => guarded index (Log.configAt_deleteFrom found).1 above
  · obtain ⟨_, n₂, _, -, changed, rfl⟩ := configRollback_cases rolled
    have resized : n₂ = _ := doConfigChange_resized changed
    have commit : n₂.commit = n.commit := by
      rw [resized]
      rfl
    intro index found above
    obtain ⟨found, kept⟩ := Log.configAt_deleteFrom found
    have below : index < dropped := by
      have := Log.le_of_mem_configsFrom (only ▸ List.mem_singleton_self dropped)
      have := kept.resolve_left something
      omega
    dsimp only at above ⊢
    rw [commit] at above
    rcases guarded index found above with open_ | settled
    · left
      rw [if_neg]
      · exact open_
      · show ¬n.changingIndex = dropped
        omega
    · exact .inr settled

/-- Every action but those of a follower keeps the guard. -/
theorem Guarded.act (guarded : Guarded bound owed n) (act : Act heard False n n') :
    Guarded bound owed n' := by
  cases act with
  | aside n' same =>
      intro index found above
      rw [same.log] at found
      rw [same.commit] at above
      rw [same.changingIndex]
      exact guarded index found above
  | stream dest peer n' done =>
      have same := sendInstallSnapshot_same done
      rw [same]
      exact guarded
  | commit later le =>
      intro index found above
      dsimp only at above
      exact guarded index found (by omega)
  | settle le =>
      intro index found above
      dsimp only at above
      rcases guarded index found above with open_ | settled
      · omega
      · exact .inr settled
  | append entry n' done quiet free =>
      exact guarded.appendOne (fun config => (free config).resolve_left id) done
  | truncate from_ n' done quiet open_ comes => exact comes.elim
  | _ => exact guarded

/-- After some appends the newest change is guarded, if there was one. -/
theorem appendAll_changing {entries : List LogEntry} (done : n.appendAll entries = .ok n') :
    (n'.changingIndex = n.changingIndex ∧
      ∀ index, n'.log.configAt index = true → n.log.configAt index = true) ∨
    (∃ entry ∈ entries, entry.appendEntry.type = .config) ∧
      n'.log.configAt n'.changingIndex = true ∧
      ∀ index, n'.log.configAt index = true → index ≤ n'.changingIndex := by
  induction entries generalizing n with
  | nil =>
      obtain rfl := Except.ok.inj done
      exact .inl ⟨rfl, fun _ => id⟩
  | cons entry rest ih =>
      obtain ⟨n₁, one, done⟩ := ok_of_bind_ok done
      rcases ih done with ⟨changing, old⟩ | ⟨⟨later, mem, config⟩, newest, bound⟩
      · rcases appendOne_cases one with ⟨plain, rfl⟩ | ⟨_, n₂, _, config, -, -, rfl⟩
        · refine .inl ⟨changing, fun index found => ?_⟩
          rcases Log.configAt_appendOne (old index found) with ⟨-, config⟩ | ⟨-, found⟩
          · exact absurd config plain
          · exact found
        · right
          dsimp only at changing old
          refine ⟨⟨entry, List.mem_cons_self, config⟩, ?_, fun index found => ?_⟩
          · rw [(Node.writes_appendAll done).log, changing]
            exact Log.configAt_appendAll (Log.configAt_appendOne_self config)
          · rw [changing]
            rcases Log.configAt_appendOne (old index found) with ⟨new, -⟩ | ⟨-, found⟩
            · exact new.le
            · exact (Log.configAt_lt found).le
      · exact .inr ⟨⟨later, List.mem_cons_of_mem _ mem, config⟩, newest, bound⟩

end Guarded

/-! ## Messages of a leader -/

/-- A message that brings a change covers with its commit index every change but
the last one of the resulting log. -/
def AppendEntries.Covers (msg : AppendEntries) (n : Node) : Prop :=
  n.Accepts msg →
    (∃ entry ∈ (n.log.divide msg.preLogIndex msg.entries).2, entry.appendEntry.type = .config) →
    ∀ i j, (n.log.accept msg.preLogIndex msg.entries).configAt i = true →
      (n.log.accept msg.preLogIndex msg.entries).configAt j = true → i < j →
      i ≤ max n.commit msg.commitIndex

section Follow

variable {owed : ℕ} {n n' : Node} {msg : AppendEntries} {now : ℤ}

/-- The guard looks at the log, the commit index and the guarded index. -/
theorem Guarded.congr {bound : ℕ} (guarded : Guarded bound owed n) (log : n'.log = n.log)
    (commit : n'.commit = n.commit) (changing : n'.changingIndex = n.changingIndex) :
    Guarded bound owed n' := by
  intro index found above
  rw [log] at found
  rw [commit] at above
  rw [changing]
  exact guarded index found above

theorem Guarded.acceptEntries (guarded : Guarded 0 owed n)
    (covers : (∃ entry ∈ (n.log.divide msg.preLogIndex msg.entries).2,
        entry.appendEntry.type = .config) →
      ∀ i j, (n.log.accept msg.preLogIndex msg.entries).configAt i = true →
        (n.log.accept msg.preLogIndex msg.entries).configAt j = true → i < j →
        i ≤ max n.commit msg.commitIndex)
    (done : n.acceptEntries msg.preLogIndex msg.entries = .ok n') :
    Guarded msg.commitIndex owed n' := by
  rcases Node.acceptEntries_cases (n := n) msg.preLogIndex msg.entries with
    ⟨site, -, failed⟩ | ⟨-, ran⟩
  · rw [failed] at done
    contradiction
  rw [ran] at done
  obtain ⟨n₁, cut, done⟩ := ok_of_bind_ok done
  have log₁ := (Node.writes_deleteFrom cut).log
  have log := (Node.writes_appendAll done).log
  have commit₁ := (Node.writes_deleteFrom cut).commit
  have commit := (Node.writes_appendAll done).commit
  have guarded₁ := guarded.deleteFrom cut
  rcases appendAll_changing done with ⟨changing, old⟩ | ⟨proposes, newest, bound⟩
  · intro index found above
    rw [changing]
    exact guarded₁ index (old index found) (by omega)
  · intro index found above
    left
    have le := bound index found
    by_contra other
    rw [log, log₁] at newest found
    have := covers proposes index n'.changingIndex found newest (by omega)
    omega

/-- A message that covers all earlier changes keeps the guard. -/
theorem Guarded.onAppendEntries (guarded : Guarded 0 owed n) (covers : msg.Covers n)
    (done : n.onAppendEntries msg now = .ok n') : Guarded 0 owed n' := by
  have meets : Meets (n.onAppendEntries msg now) (Guarded 0 owed) fun _ => True := by
    refine Node.meets_onAppendEntries (Guarded msg.commitIndex owed) (Guarded 0 owed)
      (fun _ _ => trivial) ?_ ?_ ?_ ?_
    · exact fun n₁ hears => guarded.congr hears.log hears.commit hears.changingIndex
    · intro n₁ hears accepts
      refine Meets.intro_ (fun n₂ done => ?_) fun _ _ => trivial
      refine Guarded.acceptEntries
        (guarded.congr hears.log hears.commit hears.changingIndex) ?_ done
      rw [hears.log, hears.commit]
      exact covers accepts
    · intro n₂ guarded
      refine Node.applies_learnCommit.mono (fun n₃ applies => ?_) fun _ _ => trivial
      have commit := applies.commit
      intro index found above
      rw [applies.log] at found
      have open_ := guarded index found (by dsimp only at commit; omega)
      rcases applies.settles with ⟨changing, -⟩ | ⟨settled, -, -⟩
      · rw [changing]
        exact open_
      · dsimp only at commit settled
        exact open_.imp_left (fun same => by omega)
    · exact fun n₃ n₄ guarded hears => guarded.congr hears.log hears.commit hears.changingIndex
  exact meets.of_ok done

end Follow

/-! ## Along runs -/

section Perform

variable {bound owed : ℕ} {n n' : Node} {op : Op}

theorem Act.commit_le {heard : Addr → Prop} {follows : Prop} (act : Act heard follows n n') :
    n.commit ≤ n'.commit := by
  cases act with
  | aside n' same => exact same.commit.ge
  | stream dest peer n' done =>
      rw [sendInstallSnapshot_same done]
  | commit later le => exact le
  | append entry n' done quiet free => exact (Node.writes_appendOne done).commit.ge
  | truncate from_ n' done quiet open_ comes => exact (Node.writes_deleteFrom done).commit.ge
  | _ => exact le_rfl

theorem perform_commit_le (done : n.perform op = .ok n') : n.commit ≤ n'.commit := by
  by_cases lifecycle : op.Lifecycle
  · exact (perform_lifecycle lifecycle done).2.1.ge
  · exact Acts.keep (P := fun m => n.commit ≤ m.commit)
      (fun _ _ le act => le.trans act.commit_le) le_rfl (perform_acts lifecycle done)

/-- A received change comes with the commitment of all earlier ones. -/
def Op.Covers (n : Node) : Op → Prop
  | .input (.recv (.appendEntries msg) _) => msg.Covers n
  | _ => True

theorem Guarded.perform (guarded : Guarded 0 owed n) (covers : op.Covers n)
    (done : n.perform op = .ok n') : Guarded 0 owed n' := by
  by_cases lifecycle : op.Lifecycle
  · obtain ⟨log, commit, changing, -⟩ := perform_lifecycle lifecycle done
    exact guarded.congr log commit changing
  by_cases follows : op.Follows
  · unfold Op.Follows at follows
    split at follows
    · exact guarded.onAppendEntries covers done
    · exact follows.elim
  · have acts := perform_acts lifecycle done
    rw [eq_false follows] at acts
    exact acts.keep (fun _ _ => Guarded.act) guarded

end Perform

/-- One step of a node, together with the index of the newest change that its log
held at the last restart.  Messages cover earlier changes, and the node does not
win an election before it knows the changes of its restart to be committed. -/
inductive Node.GuardedStep (rc : RaftConfig) : Node × ℕ → Node × ℕ → Prop
  | perform (n : Node) (owed : ℕ) (op : Op) (armed : n.Armed op) (covers : op.Covers n) (n' : Node)
      (done : n.perform op = .ok n')
      (wins : n.state ≠ .leader → n'.state = .leader → owed ≤ n.commit) :
      GuardedStep rc (n, owed) (n', owed)
  | restart (n : Node) (owed : ℕ) (flags : Flags) (disk : Disk) :
      GuardedStep rc (n, owed) (Node.boot rc flags disk, disk.log.newestConfigAt)

theorem boot_configAt (rc : RaftConfig) (flags : Flags) (disk : Disk) (index : ℕ) :
    (Node.boot rc flags disk).log.configAt index = disk.log.configAt index := by
  unfold Node.boot
  dsimp only
  split <;> rfl

/-- What holds along a run: the guard, and leaders owe nothing. -/
theorem Node.GuardedStep.guarded {rc : RaftConfig} {flags : Flags} {disk : Disk} {n : Node}
    {owed : ℕ}
    (run : Relation.ReflTransGen (Node.GuardedStep rc)
      (Node.boot rc flags disk, disk.log.newestConfigAt) (n, owed)) :
    Guarded 0 owed n ∧ (n.state = .leader → owed ≤ n.commit) := by
  have boots : ∀ flags disk, Guarded 0 disk.log.newestConfigAt (Node.boot rc flags disk) ∧
      ((Node.boot rc flags disk).state = .leader →
        disk.log.newestConfigAt ≤ (Node.boot rc flags disk).commit) := by
    intro flags disk
    refine ⟨fun index found above => .inr ?_, nofun⟩
    rw [boot_configAt] at found
    exact Log.le_newestConfigAt found
  generalize final : (n, owed) = s at run
  induction run generalizing n owed with
  | refl =>
      cases final
      exact boots flags disk
  | tail _ step ih =>
      cases step with
      | perform n₁ owed₁ op armed covers n₂ done wins =>
          cases final
          obtain ⟨guarded, leads⟩ := ih rfl
          refine ⟨guarded.perform covers done, fun leader => ?_⟩
          by_cases led : n₁.state = .leader
          · exact (leads led).trans (perform_commit_le done)
          · exact (wins led leader).trans (perform_commit_le done)
      | restart n₁ owed₁ flags disk =>
          cases final
          exact boots flags disk

/-- A membership request is accepted: it appends a configuration. -/
def Node.AcceptsChange (n : Node) (op : Op) : Prop :=
  ∃ entry more, entry.type = .config ∧ (n.perform op).node.effects = n.effects ++ more ∧
    .appendLog entry ∈ more

/-- Only a leader without a change in progress accepts one. -/
theorem Node.AcceptsChange.unguarded {n : Node} {op : Op} (accepts : n.AcceptsChange op)
    (request : ∃ addr, op = .addServer addr ∨ op = .removeServer addr) :
    n.state = .leader ∧ n.changingIndex = 0 := by
  obtain ⟨entry, more, config, effects, mem⟩ := accepts
  have busy : n.perform op ≠ .ok n := by
    intro idle
    rw [idle, Outcome.node, List.self_eq_append_right] at effects
    rw [effects] at mem
    contradiction
  obtain ⟨addr, rfl | rfl⟩ := request
  · refine ⟨?_, ?_⟩
    · by_contra idle
      apply busy
      simp [Node.perform, Node.addServer, Node.proposeConfig, idle]
    · by_contra changing
      apply busy
      simp [Node.perform, Node.addServer, Nat.pos_of_ne_zero changing]
  · refine ⟨?_, ?_⟩
    · by_contra idle
      apply busy
      simp [Node.perform, Node.removeServer, Node.proposeConfig, idle]
    · by_contra changing
      apply busy
      simp [Node.perform, Node.removeServer, Nat.pos_of_ne_zero changing]

/-- In every run whose messages cover earlier changes and whose elections wait for
the changes of the last restart, a leader accepts a change only when all changes
in its log are committed, and its log never holds two changes above its commit
index. -/
theorem one_change_in_flight {rc : RaftConfig} {flags : Flags} {disk : Disk} {n : Node}
    {owed : ℕ}
    (run : Relation.ReflTransGen (Node.GuardedStep rc)
      (Node.boot rc flags disk, disk.log.newestConfigAt) (n, owed)) :
    (∀ op, (∃ addr, op = .addServer addr ∨ op = .removeServer addr) → n.AcceptsChange op →
      ∀ index, n.log.configAt index = true → index ≤ n.commit) ∧
    (n.state = .leader → ∀ i j, n.log.configAt i = true → n.log.configAt j = true →
      n.commit < i → n.commit < j → i = j) := by
  obtain ⟨guarded, leads⟩ := Node.GuardedStep.guarded run
  constructor
  · intro op request accepts index found
    obtain ⟨leader, changing⟩ := accepts.unguarded request
    have owes := leads leader
    by_contra open_
    rcases guarded index found (by omega) with same | settled
    · omega
    · omega
  · intro leader i j found_i found_j open_i open_j
    have owes := leads leader
    have same_i := guarded i found_i (by omega)
    have same_j := guarded j found_j (by omega)
    omega

instance (op : Op) : Decidable op.Follows := by
  unfold Op.Follows
  split <;> infer_instance

/-- `1` is elected by `2` in the given term. -/
def elected (term : ℕ) : List Op :=
  [.input .electionTimer,
    .input (.recv (.requestVoteReply ⟨2, 1, term, true, true, false, true, term⟩) 0)]

/-- While a server is being added, a leader refuses to add another one. -/
theorem one_change_in_flight_refusal :
    ∃ n owed, Relation.ReflTransGen (Node.GuardedStep ⟨1, [2, 3]⟩)
        (trio, (Disk.fresh true).log.newestConfigAt) (n, owed) ∧
      n.state = .leader ∧ n.log.configAt 2 = true ∧ n.commit = 0 ∧
      ¬n.AcceptsChange (.addServer 5) := by
  obtain ⟨n, steps, seen⟩ := Node.operates_of_observed
    (fun n op => n.Armed op ∧ ¬op.Follows) trio (elected 2 ++ [.addServer 4])
    (fun n => n.state = .leader && n.log.configAt 2 && n.commit = 0) (by decide +kernel)
  simp only [Bool.and_eq_true, decide_eq_true_eq] at seen
  obtain ⟨⟨leader, found⟩, commit⟩ := seen
  have run : Relation.ReflTransGen (Node.GuardedStep ⟨1, [2, 3]⟩)
      (trio, (Disk.fresh true).log.newestConfigAt) (n, 0) := by
    refine Relation.ReflTransGen.lift (fun n => (n, 0)) ?_ _ _ steps
    rintro n n' ⟨op, ⟨armed, plain⟩, done⟩
    refine .perform n 0 op armed ?_ n' done fun _ _ => Nat.zero_le _
    unfold Op.Covers
    split
    · exact absurd trivial plain
    · trivial
  refine ⟨n, 0, run, leader, found, commit, fun accepts => ?_⟩
  have committed := (one_change_in_flight run).1 (.addServer 5) ⟨5, .inl rfl⟩ accepts 2 found
  omega

/-- A leader adds a server, restarts and is elected again: it then accepts a
second change while the first one is still open. -/
theorem second_change_after_restart :
    ∃ n₁, Relation.ReflTransGen (Node.Operates Node.Armed) trio n₁ ∧
    ∃ n₂, Relation.ReflTransGen (Node.Operates Node.Armed)
        (Node.boot ⟨1, [2, 3]⟩ ⟨false, false, false, {}⟩ n₁.disk) n₂ ∧
      n₂.state = .leader ∧ n₂.log.configAt 2 = true ∧ n₂.log.configAt 4 = false ∧
    ∃ n₃, n₂.perform (.addServer 5) = .ok n₃ ∧
      n₃.state = .leader ∧ n₃.log.configAt 2 = true ∧ n₃.log.configAt 4 = true ∧ n₃.commit = 0 := by
  obtain ⟨n₁, steps, seen⟩ := Node.operates_of_observed Node.Armed trio
    (elected 2 ++ [.addServer 4])
    (fun n₁ => ((Node.boot ⟨1, [2, 3]⟩ ⟨false, false, false, {}⟩ n₁.disk).play Node.Armed
      (elected 3)).any fun n₂ =>
        n₂.state = .leader && n₂.log.configAt 2 && !n₂.log.configAt 4 &&
          (n₂.perform (.addServer 5)).toOption.any fun n₃ =>
            n₃.state = .leader && n₃.log.configAt 2 && n₃.log.configAt 4 && n₃.commit = 0)
    (by decide +kernel)
  obtain ⟨n₂, again, seen⟩ := Node.operates_of_observed Node.Armed _ _ _ seen
  simp only [Bool.and_eq_true, decide_eq_true_eq, Bool.not_eq_true'] at seen
  obtain ⟨⟨⟨leader, first⟩, second⟩, accepted⟩ := seen
  refine ⟨n₁, steps, n₂, again, leader, first, second, ?_⟩
  obtain ⟨n₃, found, seen⟩ := (Option.any_eq_true _ _).mp accepted
  simp only [Bool.and_eq_true, decide_eq_true_eq] at seen
  obtain ⟨⟨⟨leader, first⟩, second⟩, commit⟩ := seen
  cases done : n₂.perform (.addServer 5) with
  | error fault =>
      rw [done] at found
      cases found
  | ok n =>
      rw [done] at found
      obtain rfl := Option.some.inj found
      exact ⟨n, rfl, leader, first, second, commit⟩

end Vraft
