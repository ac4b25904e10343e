import Vraft.Availability.Commitment

/-!
# A majority goes on by itself

Whatever has happened before, a majority that is cut off from the other members and
has waited for an election timeout elects a leader, and a value proposed to that leader
is committed and applied by everybody in the majority.
-/

namespace Vraft

section Applied

variable {m : Membership} {meets : m.Intersecting} {s : Cluster} {p : Addr}

theorem mem_indexed_of_getElem? {log : List AppendEntry} {k : ℕ} {entry : AppendEntry}
    (found : log[k]? = some entry) (index : ℕ) : ⟨index + k, entry⟩ ∈ indexed index log := by
  induction log generalizing k index with
  | nil => simp at found
  | cons head rest ih =>
      cases k with
      | zero =>
          obtain rfl := Option.some.inj found
          exact List.mem_cons_self
      | succ k =>
          have later := ih (k := k) found (index + 1)
          rw [Nat.add_right_comm] at later
          exact List.mem_cons_of_mem _ later

/-- A data entry that a member knows to be committed has been handed to its state
machine. -/
theorem applied_of_committed (meets : m.Intersecting) (reachable : s.Reachable m Cluster.Whole)
    (mem : p ∈ m.members) (hasSm : m.hasSm p = true) {entry : LogEntry}
    (found : (s.node p).log.get entry.index = some entry)
    (data : entry.appendEntry.type = .data) (committed : entry.index ≤ (s.node p).commit) :
    Effect.apply entry ∈ s.hist p := by
  obtain ⟨a, sim⟩ := Sim.of_reachable meets reachable
  have live := sim.live p mem
  obtain ⟨positive, -, at_entry⟩ := (sim.get_eq_some mem).mp found
  have applied : (s.node p).commit ≤ (s.node p).lastApply := applies_committed meets reachable
  have inside : ((a.log p).take (s.node p).lastApply)[entry.index - 1]? = some entry.appendEntry := by
    rw [List.getElem?_take_of_lt (by omega)]
    exact at_entry
  have index : 1 + (entry.index - 1) = entry.index := by omega
  have numbered := mem_indexed_of_getElem? inside 1
  rw [index] at numbered
  have inData : entry ∈ dataEntries (a.log p) (s.node p).lastApply :=
    List.mem_filter.mpr ⟨numbered, decide_eq_true data⟩
  have handed : appliedEntries (s.hist p) = dataEntries (a.log p) (s.node p).lastApply := by
    rw [live.applied]
    exact (live.sm_eq (live.hasSm.trans hasSm)).symm
  rw [← handed] at inData
  obtain ⟨effect, mem, same⟩ := List.mem_filterMap.mp inData
  cases effect with
  | apply other =>
      obtain rfl := Option.some.inj same
      exact mem
  | _ => contradiction

end Applied

section Proposal

variable {m : Membership} {rc : RaftConfig} {group : Finset Addr} {now : ℤ} {s s' : Cluster}
  {p : Addr} {n n' : Node} {value : Bytes}

theorem replicate_goesOn {dests : List Addr} (done : n.replicate dests = .ok n') : n.GoesOn n' := by
  induction dests generalizing n with
  | nil =>
      obtain rfl := Except.ok.inj done
      exact ⟨rfl, rfl, rfl, le_rfl⟩
  | cons dest rest ih =>
      obtain ⟨n₁, sent, more⟩ := ok_of_bind_ok done
      have first : n.GoesOn { n₁ with timerMgr := n₁.timerMgr.againHeartBeatOf dest } := by
        rw [sendAppendEntries_same sent]
        exact ⟨rfl, rfl, rfl, le_rfl⟩
      exact first.trans (ih more)

/-- What a leader is once it has appended a value. -/
def Node.appended (n : Node) (value : Bytes) : Node :=
  { n.emit (.appendLog ⟨n.solid.term, .data, value⟩) with
    log := n.log.appendOne ⟨n.solid.term, .data, value⟩ }

/-- A leader appends a proposed value, commits what it can and goes on. -/
theorem propose_goesOn (fixed : Fixed rc n) (leader : n.state = .leader)
    (started : n.started = true) (done : n.propose value = .ok n') :
    (n.appended value).GoesOn n' ∧
      ∃ n₁, (n.appended value).maybeCommit = .ok n₁ ∧ n₁.commit ≤ n'.commit := by
  have plain : AppendEntry.Plain ⟨n.solid.term, .data, value⟩ := .inl rfl
  unfold Node.propose at done
  rw [if_neg (by simp [leader, started])] at done
  unfold Node.doPropose at done
  rw [Node.appendOne_eq plain, ok_bind] at done
  obtain ⟨n₁, committed, sent⟩ := ok_of_bind_ok done
  have fixed' : Fixed rc (n.appended value) :=
    ((appendOne_still fixed plain : Meets _ _ (Calm True)).of_ok (Node.appendOne_eq plain n)).fixed
  have first := (maybeCommit_goesOn fixed' committed).1
  have second := replicate_goesOn sent
  exact ⟨first.trans second, n₁, committed, second.commit⟩

/-- The value is the last entry of the log, and of the current term, so it is committed
when enough members hold it. -/
theorem appended_commits (base : n.log.base = 0) (inLog : n.smLast ≤ n.log.last)
    (held : (n.appended value).lastIndex ≤ n.indexMgr.majorityMax (n.appended value).lastIndex)
    (done : (n.appended value).maybeCommit = .ok n') : n.log.entries.length + 1 ≤ n'.commit := by
  have base' : (n.appended value).log.base = 0 := base
  have entries : (n.appended value).log.entries =
      n.log.entries ++ [⟨n.solid.term, .data, value⟩] := rfl
  have last : (n.appended value).log.last = n.log.entries.length + 1 := by
    rw [Log.last_of_base_zero base', entries, List.length_append, List.length_singleton]
  have inLog' : (n.appended value).smLast ≤ (n.appended value).log.last := by
    rw [last]
    rw [Log.last_of_base_zero base] at inLog
    exact Nat.le_succ_of_le inLog
  have own : (n.appended value).lastTerm = (n.appended value).solid.term := by
    rw [Node.lastTerm, if_pos inLog', last, if_neg (Nat.succ_ne_zero _), Log.getMeta,
      Log.entryAt_of_base_zero base', if_neg (Nat.succ_ne_zero _), entries]
    simp
    rfl
  have reached := maybeCommit_last done held own inLog' (by omega)
  rw [Node.lastIndex, max_eq_right inLog', last] at reached
  exact reached

/-- A proposal extends the log of a leader, which commits it at once if it is alone. -/
theorem Leading.propose (maj : Majority m group now) (memP : p ∈ group)
    (reachable : s.Reachable m Cluster.Whole) (leading : Leading group p s) (value : Bytes) :
    ∃ n, (s.node p).handle (.propose value) = .ok n ∧
      Ruling m group p ((s.node p).log.entries ++ [⟨(s.node p).solid.term, .data, value⟩])
        (s.update p n n.effects) ∧
      ((∀ q ∈ group, q = p) → (s.node p).log.entries.length + 1 ≤ n.commit) := by
  obtain ⟨a, sim⟩ := Sim.of_reachable (Or.inl maj.odd) reachable
  have run := running_of_reachable maj.odd reachable (maj.mem memP)
  have at_ := sim.start (maj.mem memP)
  have enabled : s.Enabled m p (.propose value) := trivial
  obtain ⟨n, done⟩ := sim.handle_ok (maj.mem memP) enabled trivial
  obtain ⟨goesOn, n₁, committed, commit⟩ :=
    propose_goesOn (sim.fixed (maj.mem memP)) leading.leader run.started done
  have node : (s.update p n n.effects).node p = { n with effects := [] } :=
    Cluster.update_node_self n _
  have step : Cluster.Step m Cluster.Whole s (s.update p n n.effects) :=
    .handle p (maj.mem memP) (.propose value) trivial n done
  obtain ⟨flags, before⟩ := reachable
  refine ⟨n, done, ⟨⟨flags, before.tail step⟩, ?_, ?_, by simp, ?_, fun q mem => ?_⟩, fun single => ?_⟩
  · rw [node]
    exact goesOn.state.trans leading.leader
  · rw [node]
    exact congrArg Log.entries goesOn.log
  · rw [node, Consensus.lastTerm_concat]
    exact goesOn.term.symm
  · rw [node]
    refine le_of_le_of_eq ?_ goesOn.term.symm
    by_cases same : q = p
    · rw [same, node]
      exact goesOn.term.le
    · rw [Cluster.update_node_of_ne _ _ same]
      exact leading.terms q mem
  · have follow : PeersOf m.members.toFinset p (s.node p).indexMgr.keys := by
      have keys : (s.node p).indexMgr.keys = m.peersOf p := at_.live.indicesOf
      rw [keys]
      exact ⟨List.mem_toFinset.mpr (maj.mem memP), fun q => by
        rw [Membership.mem_peersOf, List.mem_toFinset]⟩
    have more : m.members.toFinset.card < 2 * group.card := by
      rw [m.card_members]
      exact maj.more
    have held : ((s.node p).appended value).lastIndex ≤
        (s.node p).indexMgr.majorityMax ((s.node p).appended value).lastIndex :=
      majorityMax_of_group follow maj.sub more fun q mem ne => absurd (single q mem) ne
    have reached := appended_commits at_.live.base at_.smLast_le held committed
    exact reached.trans commit

/-- A ruling leader's log is at the start of the log of every follower that is abreast. -/
theorem Ruling.held (maj : Majority m group now) (memP : p ∈ group) {full : List AppendEntry}
    (ruling : Ruling m group p full s)
    (all : ∀ q ∈ group, q ≠ p → Abreast p q full.length s) {q : Addr} (memQ : q ∈ group) :
    full <+: (s.node q).log.entries := by
  obtain ⟨a, sim⟩ := Sim.of_reachable (Or.inl maj.odd) ruling.reachable
  by_cases own : q = p
  · rw [own, ruling.log]
  · have held := sim.held_of_match (maj.mem memP) (maj.mem memQ) own ruling.leader
      (ruling.terms q memQ)
    rw [ruling.log, List.take_of_length_le (all q memQ own).match_] at held
    exact held

/-- A majority that is cut off from the others and has waited for an election timeout
has a leader in the end, and the next value proposed to it is committed and applied
throughout the majority. -/
theorem majority_commits (maj : Majority m group now) (reachable : s.Reachable m Cluster.Whole)
    (waits : s.Waits group now) (value : Bytes) :
    ∃ s₁ s₂ p n entry, Cluster.AmongRun m group now s s₁ ∧ p ∈ group ∧ Leading group p s₁ ∧
      (s₁.node p).handle (.propose value) = .ok n ∧
      Cluster.AmongRun m group now (s₁.update p n n.effects) s₂ ∧
      entry = ⟨(s₁.node p).log.entries.length + 1, (s₁.node p).solid.term, .data, value⟩ ∧
      ∀ q ∈ group, (s₂.node q).log.get entry.index = some entry ∧
        entry.index ≤ (s₂.node q).commit ∧
        (m.hasSm q = true → Effect.apply entry ∈ s₂.hist q) := by
  obtain ⟨s₁, p, run₁, memP, leading⟩ := majority_elects maj reachable waits
  have reachable₁ := Cluster.AmongRun.reachable maj reachable run₁
  obtain ⟨n, done, ruling, alone⟩ := leading.propose maj memP reachable₁ value
  set entry : LogEntry :=
    ⟨(s₁.node p).log.entries.length + 1, (s₁.node p).solid.term, .data, value⟩ with entry_eq
  set full := (s₁.node p).log.entries ++ [entry.appendEntry] with full_eq
  have length : full.length = entry.index := by
    rw [full_eq, List.length_append, List.length_singleton]
  obtain ⟨s₂, run₂, ruling₂, all, committed⟩ := ruling.commits_all maj memP fun single => by
    rw [Cluster.update_node_self, length]
    exact alone single
  refine ⟨s₁, s₂, p, n, entry, run₁, memP, leading, done, run₂, rfl, fun q memQ => ?_⟩
  obtain ⟨a, sim⟩ := Sim.of_reachable (Or.inl maj.odd) ruling₂.reachable
  have held := ruling₂.held maj memP all memQ
  have entries : (s₂.node q).log.entries = a.log q := (sim.live q (maj.mem memQ)).entries
  have last : full[entry.index - 1]? = some entry.appendEntry := by
    rw [full_eq, entry_eq]
    simp
  have found : (s₂.node q).log.get entry.index = some entry := by
    refine sim.get_of_taken (maj.mem memQ) (Nat.succ_pos _) last ?_
    rw [← entries]
    exact (List.take_prefix _ _).trans held
  have commit : entry.index ≤ (s₂.node q).commit := length ▸ committed q memQ
  exact ⟨found, commit, fun hasSm =>
    applied_of_committed (Or.inl maj.odd) ruling₂.reachable (maj.mem memQ) hasSm found rfl commit⟩

/-- Two of three go on without the leader that has brought one of them up to date. -/
theorem majority_commits_three :
    ∃ s s₁ s₂ p n entry, s.Reachable (.upTo 3) Cluster.Whole ∧ (s.node 1).state = .leader ∧
      Cluster.AmongRun (.upTo 3) {2, 3} Node.electionNs s s₁ ∧
      (s₁.node p).handle (.propose [9]) = .ok n ∧
      Cluster.AmongRun (.upTo 3) {2, 3} Node.electionNs (s₁.update p n n.effects) s₂ ∧
      entry.appendEntry.value = [9] ∧
      ∀ q ∈ ({2, 3} : Finset Addr), Effect.apply entry ∈ s₂.hist q := by
  have observed : ((Cluster.start (.upTo 3)).play (.upTo 3) Cluster.replication).any
      (fun s => decide ((s.node 1).state = .leader ∧ ∀ q ∈ ([2, 3] : List Addr),
        (s.node q).lastHeartbeatTimestamp = 0 ∧ (s.node q).standby = false)) = true := by
    decide +kernel
  obtain ⟨s, run, found⟩ := Cluster.run_of_observed observed
  obtain ⟨leader, others⟩ := of_decide_eq_true found
  have reachable : s.Reachable (.upTo 3) Cluster.Whole := ⟨_, run⟩
  have maj : Majority (.upTo 3) {2, 3} Node.electionNs := by
    constructor <;> decide
  have waits : s.Waits {2, 3} Node.electionNs := by
    constructor
    · intro q mem
      have quiet := (others q (by simpa using mem)).1
      left
      rw [Node.Rested, quiet, sub_zero]
    · intro q mem
      exact (others q (by simpa using mem)).2
  obtain ⟨s₁, s₂, p, n, entry, run₁, -, -, done, run₂, same, all⟩ :=
    majority_commits maj reachable waits [9]
  refine ⟨s, s₁, s₂, p, n, entry, reachable, leader, run₁, done, run₂, by rw [same], fun q mem => ?_⟩
  exact (all q mem).2.2 rfl

end Proposal

end Vraft
