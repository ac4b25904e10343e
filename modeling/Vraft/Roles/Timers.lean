import Vraft.Raft.Actions

/-!
# Timers and roles

Along every run of a node the election timer is armed only while the node does
not lead, request-vote timers only while it is a candidate and heartbeat timers
only while it leads.  A timer therefore never fires into the wrong role, and a
node that has started and does not lead is always waiting for an election.
-/

namespace Vraft

/-! ## Runs of a node -/

/-- One step of a node: an operation, which a timer that is armed may bring
about, or a restart of its process on any disk. -/
inductive Node.Step (rc : RaftConfig) (n : Node) : Node → Prop
  | perform (n' : Node) (done : Node.Operates Node.Armed n n') : Step rc n n'
  | restart (flags : Flags) (disk : Disk) : Step rc n (Node.boot rc flags disk)

/-- A run of a node from its start. -/
def Node.Run (rc : RaftConfig) (n : Node) : Prop :=
  ∃ flags disk, Relation.ReflTransGen (Node.Step rc) (Node.boot rc flags disk) n

/-! ## The invariant -/

/-- Timers agree with the role. -/
structure TimersAgree (started : Bool) (state : State) (timers : TimerManager) : Prop where
  election : timers.election = true → state = .follower ∨ state = .candidate
  requestVotes : ∀ addr, timers.requestVotes.val addr = true → state = .candidate
  heartbeats : ∀ addr, timers.heartbeats.val addr = true → state = .leader
  role : state = .follower ∨ state = .candidate ∨ state = .leader
  waits : started = true → state ≠ .leader → timers.election = true

/-- The timers of a node agree with its role. -/
abbrev Node.Agrees (n : Node) : Prop := TimersAgree n.started n.state n.timerMgr

section Agree

variable {n n' : Node} {started : Bool} {state : State} {timers : TimerManager}

/-- After a step down. -/
theorem TimersAgree.follow (timers : TimerManager) :
    TimersAgree started .follower timers.stopHeartBeat.stopRequestVote.againElection where
  election _ := .inl rfl
  requestVotes addr armed := by
    simp [TimerManager.stopHeartBeat, TimerManager.stopRequestVote, TimerManager.againElection,
      Table.mapValues_val] at armed
  heartbeats addr armed := by
    simp [TimerManager.stopHeartBeat, TimerManager.stopRequestVote, TimerManager.againElection,
      Table.mapValues_val] at armed
  role := .inl rfl
  waits _ _ := rfl

/-- No heartbeat is armed on a node that does not lead. -/
theorem TimersAgree.silent (agree : TimersAgree started state timers) (idle : state ≠ .leader)
    (addr : Addr) : timers.heartbeats.val addr = false := by
  by_contra armed
  exact idle (agree.heartbeats addr (by simpa using armed))

theorem TimersAgree.campaign (agree : TimersAgree started state timers) (idle : state ≠ .leader) :
    TimersAgree started .candidate timers.startRequestVote.againElection where
  election _ := .inr rfl
  requestVotes _ _ := rfl
  heartbeats addr armed := by
    rw [show timers.startRequestVote.againElection.heartbeats = timers.heartbeats from rfl,
      agree.silent idle addr] at armed
    contradiction
  role := .inr (.inl rfl)
  waits _ _ := rfl

theorem TimersAgree.lead (timers : TimerManager) :
    TimersAgree started .leader timers.stopElection.stopRequestVote.startHeartBeat where
  election armed := by simp [TimerManager.stopElection, TimerManager.stopRequestVote,
    TimerManager.startHeartBeat] at armed
  requestVotes addr armed := by
    simp [TimerManager.stopElection, TimerManager.stopRequestVote, TimerManager.startHeartBeat,
      Table.mapValues_val] at armed
  heartbeats _ _ := rfl
  role := .inr (.inr rfl)
  waits _ idle := absurd rfl idle

theorem TimersAgree.again (agree : TimersAgree started state timers)
    (stands : state = .follower ∨ state = .candidate) :
    TimersAgree started state timers.againElection where
  election _ := stands
  requestVotes := agree.requestVotes
  heartbeats := agree.heartbeats
  role := agree.role
  waits _ _ := rfl

theorem TimersAgree.start (agree : TimersAgree started state timers)
    (stands : state = .follower ∨ state = .candidate) :
    TimersAgree started state timers.startElection where
  election _ := stands
  requestVotes := agree.requestVotes
  heartbeats := agree.heartbeats
  role := agree.role
  waits _ _ := rfl

theorem TimersAgree.stopRequestVote (agree : TimersAgree started state timers) :
    TimersAgree started state timers.stopRequestVote where
  election := agree.election
  requestVotes addr armed := by
    simp [TimerManager.stopRequestVote, Table.mapValues_val] at armed
  heartbeats := agree.heartbeats
  role := agree.role
  waits := agree.waits

theorem TimersAgree.stopRequestVoteOf (agree : TimersAgree started state timers) (addr : Addr) :
    TimersAgree started state (timers.stopRequestVoteOf addr) where
  election := agree.election
  requestVotes other armed := by
    refine agree.requestVotes other ?_
    simp only [TimerManager.stopRequestVoteOf, Table.modify_val] at armed
    split at armed
    · contradiction
    · exact armed
  heartbeats := agree.heartbeats
  role := agree.role
  waits := agree.waits

theorem TimersAgree.beat (agree : TimersAgree started .leader timers) (addr : Addr) :
    TimersAgree started .leader (timers.againHeartBeatOf addr) :=
  { agree with heartbeats := fun _ _ => rfl }

/-- A new peer gets a heartbeat timer that runs on a leader only. -/
theorem TimersAgree.addPeer (agree : n.Agrees) {addr : Addr} (added : n.addPeer addr = .ok n') :
    n'.Agrees := by
  obtain ⟨-, -, rfl⟩ := addPeer_ok_iff.mp added
  exact {
    election := agree.election
    requestVotes := by
      intro other armed
      refine agree.requestVotes other ?_
      simp only [Node.withPeer, Table.set_val] at armed
      split at armed
      · contradiction
      · exact armed
    heartbeats := by
      intro other armed
      simp only [Node.withPeer, Table.set_val] at armed
      split at armed
      · exact of_decide_eq_true armed
      · exact agree.heartbeats other armed
    role := agree.role
    waits := agree.waits }

theorem TimersAgree.deletePeer (agree : n.Agrees) (addr : Addr) : (n.deletePeer addr).Agrees where
  election := agree.election
  requestVotes other armed := by
    refine agree.requestVotes other ?_
    simp only [Node.deletePeer, Table.erase_val] at armed
    split at armed
    · contradiction
    · exact armed
  heartbeats other armed := by
    refine agree.heartbeats other ?_
    simp only [Node.deletePeer, Table.erase_val] at armed
    split at armed
    · contradiction
    · exact armed
  role := agree.role
  waits := agree.waits

theorem TimersAgree.doConfigChange (agree : n.Agrees) {rc : RaftConfig}
    {result : Node × RaftConfig} (done : n.doConfigChange rc = .ok result) : result.1.Agrees :=
  doConfigChange_induct (P := Node.Agrees) (fun _ _ _ agree => agree.addPeer)
    (fun _ addr agree => agree.deletePeer addr) agree done

theorem TimersAgree.appendOne (agree : n.Agrees) {entry : AppendEntry}
    (done : n.appendOne entry = .ok n') : n'.Agrees := by
  rcases appendOne_cases done with ⟨-, rfl⟩ | ⟨rc, n₁, config, -, -, changed, rfl⟩
  · exact agree
  · exact TimersAgree.doConfigChange (n := n.emit (.appendLog entry)) agree changed

theorem TimersAgree.deleteFrom (agree : n.Agrees) {from_ : ℕ}
    (done : n.deleteFrom from_ = .ok n') : n'.Agrees := by
  rcases deleteFrom_cases done with ⟨-, rfl⟩ | ⟨-, -, rfl⟩ | ⟨index, n₁, -, -, rolled, rfl⟩
  · exact agree
  · exact agree
  · obtain ⟨_, n₂, _, -, changed, rfl⟩ := configRollback_cases rolled
    exact TimersAgree.doConfigChange (n := n.emit (.truncateLog from_)) agree changed

theorem TimersAgree.act {heard : Addr → Prop} {follows : Prop} (agree : n.Agrees)
    (act : Act heard follows n n') : n'.Agrees := by
  cases act with
  | aside n' same =>
      rw [Node.Agrees, same.started, same.state, same.timerMgr]
      exact agree
  | stream dest known n' done =>
      rw [sendInstallSnapshot_same done]
      exact agree
  | stepDown => exact TimersAgree.follow _
  | campaign stands =>
      refine agree.campaign ?_
      rcases stands with same | same <;> simp [same]
  | lead => exact TimersAgree.lead _
  | rearm follower => exact agree.stopRequestVote.again (.inl follower)
  | again stands => exact agree.again stands
  | start follower => exact agree.start (.inl follower)
  | stopRequestVoteOf addr => exact agree.stopRequestVoteOf addr
  | beat addr leads =>
      rw [Node.Agrees, leads] at agree
      rw [Node.Agrees, leads]
      exact agree.beat addr
  | append entry n' done quiet free => exact agree.appendOne done
  | truncate from_ n' done quiet open_ comes => exact agree.deleteFrom done
  | _ => exact agree

/-- A node that has just started follows and waits. -/
theorem TimersAgree.boot (rc : RaftConfig) (flags : Flags) (disk : Disk) :
    (Node.boot rc flags disk).Agrees where
  election _ := .inl rfl
  requestVotes addr armed := by
    simp [Node.boot, TimerManager.reset, TimerManager.againElection, Table.ofKeys_val] at armed
  heartbeats addr armed := by
    simp [Node.boot, TimerManager.reset, TimerManager.againElection, Table.ofKeys_val] at armed
  role := .inl rfl
  waits _ _ := rfl

theorem TimersAgree.stop (agree : n.Agrees) : n.stop.Agrees where
  election armed := by
    simp [Node.stop, TimerManager.stopElection, TimerManager.stopRequestVote,
      TimerManager.stopHeartBeat] at armed
  requestVotes addr armed := by
    simp [Node.stop, TimerManager.stopElection, TimerManager.stopRequestVote,
      TimerManager.stopHeartBeat, Table.mapValues_val] at armed
  heartbeats addr armed := by
    simp [Node.stop, TimerManager.stopElection, TimerManager.stopRequestVote,
      TimerManager.stopHeartBeat, Table.mapValues_val] at armed
  role := agree.role
  waits running := by simp [Node.stop] at running

theorem TimersAgree.perform (agree : n.Agrees) {op : Op} (done : n.perform op = .ok n') :
    n'.Agrees := by
  by_cases lifecycle : op.Lifecycle
  · cases op with
    | stop =>
        obtain rfl := Except.ok.inj done
        exact agree.stop
    | start sm =>
        simp only [Node.perform] at done
        split at done
        · obtain rfl := Except.ok.inj done
          exact agree
        · obtain ⟨n₁, checked, done⟩ := ok_of_bind_ok done
          obtain ⟨-, rfl⟩ := of_check_ok checked
          obtain rfl := Except.ok.inj done
          dsimp only
          split <;> exact TimersAgree.follow _
    | _ => exact lifecycle.elim
  · exact Acts.keep (fun _ _ => TimersAgree.act) agree (perform_acts lifecycle done)

end Agree

/-! ## Along runs -/

theorem Node.Run.agrees {rc : RaftConfig} {n : Node} (run : Node.Run rc n) : n.Agrees := by
  obtain ⟨flags, disk, steps⟩ := run
  induction steps with
  | refl => exact TimersAgree.boot rc flags disk
  | tail _ step agree =>
      cases step with
      | perform n' done =>
          obtain ⟨op, -, done⟩ := done
          exact agree.perform done
      | restart flags disk => exact TimersAgree.boot rc flags disk

theorem becomeLeader_ok {n : Node} (candidate : n.state = .candidate) :
    ∃ n', n.becomeLeader = .ok n' := by
  simp [Node.becomeLeader, Node.check, candidate, Node.appendNoop, Node.appendOne,
    Node.configWritten, bind, Except.bind]

theorem doRequestVote_ok (n : Node) : ∃ n', n.doRequestVote = .ok n' := by
  unfold Node.doRequestVote
  dsimp only
  split
  · apply becomeLeader_ok
    unfold Node.countSelf
    split <;> rfl
  · exact ⟨_, rfl⟩

/-- An election that is due goes ahead. -/
theorem elect_ok {n : Node} (stands : n.state = .follower ∨ n.state = .candidate) :
    ∃ n', n.elect = .ok n' := by
  unfold Node.elect
  simp only [Node.check, if_pos stands, bind, Except.bind]
  split
  · exact ⟨_, rfl⟩
  · split
    · exact ⟨_, rfl⟩
    · exact doRequestVote_ok _

theorem sendInstallSnapshot_site {n m : Node} {dest : Addr} {site : AssertSite}
    (failed : n.sendInstallSnapshot dest = .error (site, m)) : site = .snapshotReader := by
  unfold Node.sendInstallSnapshot at failed
  dsimp only at failed
  split at failed
  · cases failed
    rfl
  · contradiction

theorem preTermOf_site {n m : Node} {preIndex : ℕ} {site : AssertSite}
    (failed : n.preTermOf preIndex = .error (site, m)) : site = .getTermStateMachine := by
  unfold Node.preTermOf at failed
  repeat' split at failed
  all_goals simp_all

theorem entriesAt_site {n m : Node} {nextIndex : ℕ} {site : AssertSite}
    (failed : n.entriesAt nextIndex = .error (site, m)) : site = .sendGet := by
  unfold Node.entriesAt at failed
  repeat' split at failed
  all_goals simp_all

/-- Sending to a peer has asserts of its own. -/
theorem sendAppendEntries_site {n m : Node} {dest : Addr} {site : AssertSite}
    (failed : n.sendAppendEntries dest = .error (site, m)) : site ≠ .heartBeatState := by
  unfold Node.sendAppendEntries at failed
  dsimp only at failed
  rcases error_of_bind_error failed with checked | ⟨n₁, -, failed⟩
  · obtain ⟨-, same⟩ := of_check_error checked
    cases same
    simp
  split at failed
  · simp [sendInstallSnapshot_site failed]
  rcases error_of_bind_error failed with lookup | ⟨preTerm, -, failed⟩
  · simp [preTermOf_site lookup]
  split at failed
  · simp [sendInstallSnapshot_site failed]
  rcases error_of_bind_error failed with lookup | ⟨entries, -, failed⟩
  · simp [entriesAt_site lookup]
  · contradiction

/-- In every run from a start, through any operations and restarts, timers are
armed in the right roles only, the asserts at the head of `Elect`,
`RequestVoteRpc` and `HeartBeat` hold whenever their timers fire, and a node that
has started and does not lead is waiting for an election. -/
theorem timers_agree_with_role {rc : RaftConfig} {n : Node} (run : Node.Run rc n) :
    (n.timerMgr.election = true → n.state ≠ .leader) ∧
    (∀ addr, n.timerMgr.requestVotes.val addr = true → n.state = .candidate) ∧
    (∀ addr, n.timerMgr.heartbeats.val addr = true → n.state = .leader) ∧
    (n.timerMgr.election = true → ∃ n', n.perform (.input .electionTimer) = .ok n') ∧
    (∀ addr, n.timerMgr.requestVotes.val addr = true →
      ∃ n', n.perform (.input (.requestVoteTimer addr)) = .ok n') ∧
    (∀ addr, n.timerMgr.heartbeats.val addr = true →
      ∀ m, n.perform (.input (.heartbeatTimer addr)) ≠ .error (.heartBeatState, m)) ∧
    (n.started = true → n.state ≠ .leader → n.timerMgr.election = true) := by
  have agree := run.agrees
  refine ⟨?_, agree.requestVotes, agree.heartbeats, ?_, ?_, ?_, agree.waits⟩
  · intro armed
    rcases agree.election armed with same | same <;> simp [same]
  · intro armed
    exact elect_ok (n := n.electionExpired) (agree.election armed)
  · intro addr armed
    simp [Node.perform, Node.handle, Node.requestVoteRpc, Node.check, agree.requestVotes addr armed,
      bind, Except.bind]
  · intro addr armed m failed
    have sent : n.sendAppendEntries addr = .error (.heartBeatState, m) := by
      simpa [Node.perform, Node.handle, Node.heartBeat, Node.check, agree.heartbeats addr armed,
        bind, Except.bind] using failed
    exact sendAppendEntries_site sent rfl

/-- Three members, none of which stands by. -/
def trio : Node :=
  Node.boot ⟨1, [2, 3]⟩ ⟨false, false, false, {}⟩ (Disk.fresh true)

/-- A candidate asks for votes. -/
theorem timers_agree_with_role_candidate :
    ∃ n, Node.Run ⟨1, [2, 3]⟩ n ∧ n.state = .candidate ∧
      n.timerMgr.requestVotes.val 2 = true ∧ n.timerMgr.election = true ∧
      ∃ n', n.perform (.input (.requestVoteTimer 2)) = .ok n' := by
  obtain ⟨n, steps, seen⟩ := Node.operates_of_observed Node.Armed trio [.input .electionTimer]
    (fun n => n.state = .candidate && n.timerMgr.requestVotes.val 2 && n.started)
    (by decide +kernel)
  simp only [Bool.and_eq_true, decide_eq_true_eq] at seen
  obtain ⟨⟨candidate, armed⟩, started⟩ := seen
  have run : Node.Run ⟨1, [2, 3]⟩ n :=
    ⟨_, _, Relation.ReflTransGen.mono (fun _ n' => Node.Step.perform n') _ _ steps⟩
  obtain ⟨-, -, -, -, asks, -, waits⟩ := timers_agree_with_role run
  exact ⟨n, run, candidate, armed, waits started (by simp [candidate]), asks 2 armed⟩

end Vraft
