import Vraft.Votes.PreVote

/-!
# What a node writes

A handler changes the term, the vote, the log and the state machine only together
with the effect that writes the change.  Whatever a node is made to do, what it holds
afterwards is what its effects have made of its disk.
-/

namespace Vraft

/-- What is on the disk of the second node is what the effects since the first
have written. -/
def Node.Wrote (n n' : Node) : Prop :=
  ∃ more, n'.effects = n.effects ++ more ∧ n'.disk = n.disk.performAll more

/-- If the code ends, it has written all it has changed. -/
def Node.Records (n : Node) (out : Outcome) : Prop :=
  ∀ n', out = .ok n' → n.Wrote n'

section Writes

variable {n n₁ n' : Node}

namespace Node

theorem Wrote.refl (n : Node) : n.Wrote n :=
  ⟨[], (List.append_nil _).symm, rfl⟩

theorem Wrote.trans (first : n.Wrote n₁) (second : n₁.Wrote n') : n.Wrote n' := by
  obtain ⟨early, effects, disk⟩ := first
  obtain ⟨late, effects', disk'⟩ := second
  refine ⟨early ++ late, ?_, ?_⟩
  · rw [effects', effects, List.append_assoc]
  · rw [disk', disk]
    exact List.foldl_append.symm

/-- Nothing that is stored has changed. -/
theorem Wrote.silent (effects : n'.effects = n.effects) (disk : n'.disk = n.disk) :
    n.Wrote n' :=
  ⟨[], effects.trans (List.append_nil _).symm, disk⟩

/-- One effect, and the change it stands for. -/
theorem Wrote.one (effect : Effect) (effects : n'.effects = n.effects ++ [effect])
    (disk : n'.disk = n.disk.perform effect) : n.Wrote n' :=
  ⟨[effect], effects, disk⟩

theorem wrote_send (n : Node) (msg : Message) : n.Wrote (n.send msg) :=
  .one (.send msg) rfl rfl

theorem wrote_setTerm (n : Node) (term : ℕ) : n.Wrote (n.setTerm term) :=
  .one (.persistTerm term) rfl rfl

theorem wrote_setVote (n : Node) (vote : Addr) : n.Wrote (n.setVote vote) :=
  .one (.persistVote vote) rfl rfl

namespace Records

theorem ok (wrote : n.Wrote n') : n.Records (.ok n') := by
  rintro _ ⟨⟩
  exact wrote

theorem error (failed : AssertSite × Node) : n.Records (.error failed) := by
  rintro n' ⟨⟩

theorem bind {out : Outcome} {next : Node → Outcome} (first : n.Records out)
    (rest : ∀ n₁ : Node, n₁.Records (next n₁)) : n.Records (out >>= next) := by
  intro n' done
  obtain ⟨n₁, ended, done⟩ := ok_of_bind_ok done
  exact (first n₁ ended).trans (rest n₁ n' done)

theorem check {site : AssertSite} {c : Prop} [Decidable c] {next : Node → Outcome}
    (rest : n.Records (next n)) : n.Records (n.check site c >>= next) := by
  intro n' done
  obtain ⟨n₂, ended, ends⟩ := ok_of_bind_ok done
  obtain ⟨-, rfl⟩ := of_check_ok ended
  exact rest n' ends

/-- Computing a value changes nothing. -/
theorem compute {α : Type} {out : Except (AssertSite × Node) α} {next : α → Outcome}
    (rest : ∀ value, n.Records (next value)) : n.Records (out >>= next) := by
  intro n' done
  obtain ⟨value, -, done⟩ := ok_of_bind_ok done
  exact rest value n' done

theorem after {out : Outcome} (wrote : n.Wrote n₁) (records : n₁.Records out) :
    n.Records out :=
  fun n' done => wrote.trans (records n' done)

end Records

end Node

open Node

/-! ## The log -/

theorem appendOne_records (n : Node) (entry : AppendEntry) :
    n.Records (n.appendOne entry) := by
  intro n' done
  rcases appendOne_cases done with ⟨-, rfl⟩ | ⟨rc, n₁, config, -, -, changed, rfl⟩
  · exact .one (.appendLog entry) rfl rfl
  · have resized : n₁ = _ := doConfigChange_resized changed
    rw [resized]
    exact .one (.appendLog entry) rfl rfl

theorem appendAll_records (n : Node) (entries : List LogEntry) :
    n.Records (n.appendAll entries) := by
  induction entries generalizing n with
  | nil => exact .ok (.refl n)
  | cons entry rest ih => exact .bind (appendOne_records n _) ih

theorem deleteFrom_records (n : Node) (from_ : ℕ) : n.Records (n.deleteFrom from_) := by
  intro n' done
  rcases deleteFrom_cases done with ⟨-, rfl⟩ | ⟨-, -, rfl⟩ | ⟨index, n₁, -, -, rolled, rfl⟩
  · exact .refl n'
  · exact .one (.truncateLog from_) rfl rfl
  · obtain ⟨_, n₂, _, -, changed, rfl⟩ := configRollback_cases rolled
    have resized : n₂ = _ := doConfigChange_resized changed
    rw [resized]
    exact .one (.truncateLog from_) rfl rfl

theorem acceptEntries_records (n : Node) (index : ℕ) (entries : List LogEntry) :
    n.Records (n.acceptEntries index entries) := by
  induction entries generalizing n index with
  | nil => exact .ok (.refl n)
  | cons entry rest ih =>
      unfold Node.acceptEntries
      refine .check ?_
      split
      · exact ih n (index + 1)
      split
      · split
        · exact .error _
        split
        · exact ih n (index + 1)
        · refine .check ?_
          exact .bind (deleteFrom_records n _) fun n₁ => appendAll_records n₁ _
      · exact appendAll_records n _

/-! ## Commitment -/

theorem applyOne_records (n : Node) (index : ℕ) : n.Records (n.applyOne index) := by
  unfold Node.applyOne
  split
  · exact .error _
  · rename_i entry found
    split
    · split
      · rename_i sm running
        refine .ok (.one (.apply entry) rfl ?_)
        show (⟨_, _, _, some (sm.apply entry)⟩ : Disk) = ⟨_, _, _, n.sm.map fun sm => sm.apply entry⟩
        rw [running]
        rfl
      · exact .ok (.refl n)
    · refine .ok ?_
      split
      · exact .silent rfl rfl
      · exact .refl n
    · exact .ok (.refl n)
    · exact .error _

theorem applyFrom_records (n : Node) (index count : ℕ) : n.Records (n.applyFrom index count) := by
  induction count generalizing n index with
  | zero => exact .ok (.refl n)
  | succ count ih => exact .bind (applyOne_records n index) fun n₁ => ih n₁ (index + 1)

theorem stateMachineApply_records (n : Node) : n.Records n.stateMachineApply := by
  unfold Node.stateMachineApply
  split
  · exact .bind (applyFrom_records n _ _) fun n₁ => .ok (.silent rfl rfl)
  · exact .ok (.refl n)

theorem maybeCommit_records (n : Node) : n.Records n.maybeCommit := by
  unfold Node.maybeCommit
  refine .check ?_
  dsimp only
  split
  · exact .ok (.refl n)
  refine .check ?_
  split
  · exact .error _
  split
  · exact .ok (.refl n)
  · exact .after (.silent rfl rfl) (.check (stateMachineApply_records _))

theorem learnCommit_records (n : Node) (index : ℕ) : n.Records (n.learnCommit index) := by
  unfold Node.learnCommit
  split
  · exact .after (.silent rfl rfl) (.check (stateMachineApply_records _))
  · exact .ok (.refl n)

/-! ## Sends -/

theorem sendInstallSnapshot_records (n : Node) (dest : Addr) :
    n.Records (n.sendInstallSnapshot dest) := by
  have opened : n.openReader dest = { n with snapshotMgr := (n.openReader dest).snapshotMgr } := by
    unfold Node.openReader
    dsimp only
    split <;> rfl
  unfold Node.sendInstallSnapshot
  rw [opened]
  dsimp only
  split
  · exact .error _
  · exact .ok (.one (.send _) rfl rfl)

theorem sendAppendEntries_records (n : Node) (dest : Addr) :
    n.Records (n.sendAppendEntries dest) := by
  unfold Node.sendAppendEntries
  have touched : n.Wrote { n with indexMgr := n.indexMgr.touch dest } := .silent rfl rfl
  refine .after touched (.check ?_)
  split
  · exact sendInstallSnapshot_records _ dest
  refine .compute fun preTerm => ?_
  split
  · exact sendInstallSnapshot_records _ dest
  · exact .compute fun entries => .ok (.one (.send _) rfl rfl)

theorem sendAndBeat_records (n : Node) (dest : Addr) :
    n.Records (n.sendAppendEntries dest >>= fun n =>
      .ok { n with timerMgr := n.timerMgr.againHeartBeatOf dest }) :=
  .bind (sendAppendEntries_records n dest) fun _ => .ok (.silent rfl rfl)

theorem replicate_records (n : Node) (dests : List Addr) : n.Records (n.replicate dests) := by
  induction dests generalizing n with
  | nil => exact .ok (.refl n)
  | cons dest rest ih =>
      refine .bind (sendAppendEntries_records n dest) fun n₁ => ?_
      exact .after (.silent rfl rfl) (ih _)

theorem doPropose_records (n : Node) (value : Bytes) (type : EntryType) :
    n.Records (n.doPropose value type) :=
  .bind (appendOne_records n _) fun n₁ =>
    .bind (maybeCommit_records n₁) fun n₂ => replicate_records n₂ n₂.peers

/-! ## Roles -/

theorem stepDown_records (n : Node) (term : ℕ) : n.Records (n.stepDown term) := by
  unfold Node.stepDown
  refine .check ?_
  dsimp only
  split
  · exact .ok ((wrote_setTerm n term).trans ((wrote_setVote _ 0).trans (.silent rfl rfl)))
  · exact .ok (.silent rfl rfl)

theorem maybeStepDown_records (n : Node) (term : ℕ) : n.Records (n.maybeStepDown term) := by
  unfold Node.maybeStepDown
  split
  · exact stepDown_records n term
  · exact .ok (.refl n)

theorem wrote_countSelf (n : Node) : n.Wrote n.countSelf := by
  unfold Node.countSelf
  split
  · exact .one (.countSelf _ _) rfl rfl
  · exact .refl n

theorem becomeLeader_records (n : Node) : n.Records n.becomeLeader := by
  unfold Node.becomeLeader
  have moved : n.Wrote { n with leaderTransfer := false } := .silent rfl rfl
  dsimp only
  refine .after moved (.check ?_)
  refine .after ?_ (appendOne_records _ _)
  exact .one (.becomeLeader n.solid.term) rfl rfl

theorem doRequestVote_records (n : Node) : n.Records n.doRequestVote := by
  unfold Node.doRequestVote
  dsimp only
  have stood : n.Wrote n.incrTerm.becomeCandidate :=
    (wrote_setTerm n _).trans (.silent rfl rfl)
  have voted := stood.trans ((wrote_setVote _ n.incrTerm.becomeCandidate.me).trans (wrote_countSelf _))
  split
  · exact .after voted (becomeLeader_records _)
  · exact .ok (voted.trans (.silent rfl rfl))

theorem elect_records (n : Node) : n.Records n.elect := by
  unfold Node.elect
  refine .check ?_
  split
  · exact .ok (.silent rfl rfl)
  split
  · exact .ok (.silent rfl rfl)
  · exact .after (.silent rfl rfl) (doRequestVote_records _)

/-! ## Votes -/

theorem maybeVote_records (n : Node) (msg : RequestVote) (ok : Bool) :
    n.Records (n.maybeVote msg ok) := by
  unfold Node.maybeVote
  split
  · split
    · refine .bind (stepDown_records n _) fun n₁ => .ok ?_
      split
      · exact .silent rfl rfl
      · exact .trans (.silent rfl rfl) (wrote_setVote _ msg.src)
    · exact .ok (.refl n)
  · exact .ok (.refl n)

theorem onRequestVote_records (n : Node) (msg : RequestVote) (now : ℤ) :
    n.Records (n.onRequestVote msg now) := by
  unfold Node.onRequestVote
  split
  · exact .ok (.refl n)
  dsimp only
  split
  · refine .bind (maybeStepDown_records n _) fun n₁ => .check ?_
    exact .bind (maybeVote_records n₁ _ _) fun n₂ => .ok (wrote_send n₂ _)
  · exact .ok (wrote_send n _)

theorem sendRequestVote_wrote (n : Node) (dest : Addr) : n.Wrote (n.sendRequestVote dest) := by
  unfold Node.sendRequestVote
  dsimp only
  refine .trans ?_ (wrote_send _ _)
  split
  · exact .refl n
  · exact .silent rfl rfl

theorem onRequestVoteReply_records (n : Node) (msg : RequestVoteReply) :
    n.Records (n.onRequestVoteReply msg) := by
  unfold Node.onRequestVoteReply
  split
  · exact .ok (.refl n)
  split
  · exact .ok (.refl n)
  split
  · exact .ok (.refl n)
  split
  · exact stepDown_records n _
  refine .check ?_
  split
  · rw [onPreVote_eq]
    split
    · exact .after (.silent rfl rfl) (doRequestVote_records _)
    · exact .ok (.silent rfl rfl)
  · unfold Node.onRealVote
    dsimp only
    split
    · have counted := Wrote.trans (.silent rfl rfl) (wrote_countSelf { n with
        voteMgr := (n.voteMgr.done msg.src).getVote msg.src
        timerMgr := n.timerMgr.stopRequestVoteOf msg.src })
      split
      · exact .after counted (becomeLeader_records _)
      · exact .ok counted
    · exact .ok (.silent rfl rfl)

/-! ## Replication -/

theorem hearLeader_records (n : Node) (src : Addr) (term : ℕ) (now : ℤ) :
    n.Records (n.hearLeader src term now) := by
  unfold Node.hearLeader
  refine .bind (stepDown_records n term) fun n₁ => ?_
  dsimp only
  split
  · exact .ok (.silent rfl rfl)
  · intro n' done
    obtain ⟨-, rfl⟩ := of_check_ok done
    exact .silent rfl rfl

theorem onAppendEntries_records (n : Node) (msg : AppendEntries) (now : ℤ) :
    n.Records (n.onAppendEntries msg now) := by
  unfold Node.onAppendEntries
  split
  · exact .ok (.refl n)
  dsimp only
  split
  · exact .ok (wrote_send n _)
  refine .bind (hearLeader_records n _ _ _) fun n₁ => .compute fun mismatch => ?_
  split
  · exact .ok (wrote_send n₁ _)
  refine .bind (acceptEntries_records n₁ _ _) fun n₂ => ?_
  refine .bind (learnCommit_records n₂ _) fun n₃ => .ok ?_
  exact .trans (.silent rfl rfl) (wrote_send _ _)

theorem onIndexReply_records (n : Node) (msg : AppendEntriesReply) :
    n.Records (n.onIndexReply msg) := by
  unfold Node.onIndexReply
  split
  · refine .bind ?_ fun n₁ => .ok (.silent rfl rfl)
    unfold Node.raiseMatch
    dsimp only
    split
    · exact .ok (.silent rfl rfl)
    · exact .after (.silent rfl rfl) (maybeCommit_records _)
  · exact .ok (.silent rfl rfl)

theorem onAppendEntriesReply_records (n : Node) (msg : AppendEntriesReply) :
    n.Records (n.onAppendEntriesReply msg) := by
  unfold Node.onAppendEntriesReply
  split
  · exact .ok (.refl n)
  split
  · exact .ok (.refl n)
  split
  · exact .ok (.refl n)
  refine .check ?_
  split
  · exact stepDown_records n _
  refine .check (.bind (onIndexReply_records n msg) fun n₁ => ?_)
  split
  · exact sendAndBeat_records n₁ msg.src
  · exact .ok (.refl n₁)

/-! ## Snapshots -/

theorem wrote_finishSnapshot (n : Node) (msg : InstallSnapshot) (writer : SnapshotWriter) :
    n.Wrote (n.finishSnapshot msg writer) := by
  unfold Node.finishSnapshot
  dsimp only
  split
  · exact .silent rfl rfl
  · exact .one (.swapStateMachine _ _ _) rfl rfl

theorem onInstallSnapshot_records (n : Node) (msg : InstallSnapshot) (now : ℤ) :
    n.Records (n.onInstallSnapshot msg now) := by
  unfold Node.onInstallSnapshot
  split
  · exact .ok (.refl n)
  split
  · exact .ok (wrote_send n _)
  refine .bind (hearLeader_records n _ _ _) fun n₁ => ?_
  have opened : n₁.Wrote (n₁.openWriter msg) := .silent rfl rfl
  dsimp only
  split
  · exact .error _
  split
  · exact .ok (opened.trans (wrote_send _ _))
  refine .after opened (.check (.ok ?_))
  refine .trans ?_ (wrote_send _ _)
  split
  · exact .trans (.silent rfl rfl) (wrote_finishSnapshot _ msg _)
  · exact .silent rfl rfl

theorem onInstallSnapshotReply_records (n : Node) (msg : InstallSnapshotReply) :
    n.Records (n.onInstallSnapshotReply msg) := by
  unfold Node.onInstallSnapshotReply
  split
  · exact .ok (.refl n)
  have touched : n.Wrote { n with snapshotMgr := n.snapshotMgr.touch msg.src } := .silent rfl rfl
  refine .after touched ?_
  dsimp only
  split
  · exact .error _
  split
  · exact .ok (.refl _)
  split
  · exact .ok (.refl _)
  refine .check ?_
  split
  · exact stepDown_records _ _
  refine .check (.bind ?_ fun n₁ => ?_)
  · unfold Node.onSnapshotStored
    split
    · refine .bind (.after (.silent rfl rfl) (maybeCommit_records _)) fun n₁ => ?_
      exact .ok (.silent rfl rfl)
    · exact .ok (.refl _)
  · unfold Node.sendNext
    have looked : n₁.Wrote { n₁ with indexMgr := n₁.indexMgr.touch msg.src } := .silent rfl rfl
    refine .after looked ?_
    dsimp only
    split
    · exact sendAndBeat_records _ msg.src
    · exact .ok (.refl _)

/-! ## Inputs -/

theorem onTimeoutNow_records (n : Node) (msg : TimeoutNow) : n.Records (n.onTimeoutNow msg) := by
  unfold Node.onTimeoutNow
  split
  · exact .ok (.refl n)
  dsimp only
  refine .bind (.after (.silent rfl rfl) (maybeStepDown_records _ _)) fun n₁ => .check ?_
  split
  · exact .ok (.refl n₁)
  split
  · exact .ok (.silent rfl rfl)
  · exact .ok (.refl n₁)

/-- Whatever a node handles, it has written what it has changed. -/
theorem handle_records (n : Node) (input : Input) : n.Records (n.handle input) := by
  cases input with
  | electionTimer => exact elect_records n
  | requestVoteTimer dest => exact .check (.ok (sendRequestVote_wrote n dest))
  | heartbeatTimer dest => exact .check (sendAppendEntries_records n dest)
  | propose value =>
      show n.Records (n.propose value)
      unfold Node.propose
      split
      · exact .ok (.refl n)
      · exact doPropose_records n value .data
  | leaderTransfer dest =>
      show n.Records (n.leaderTransferTo dest)
      unfold Node.leaderTransferTo
      split
      · exact .ok (.refl n)
      · exact .ok (wrote_send n _)
  | setFlags flags => exact .ok (.silent rfl rfl)
  | recv msg now =>
      cases msg with
      | requestVote msg => exact onRequestVote_records n msg now
      | requestVoteReply msg => exact onRequestVoteReply_records n msg
      | appendEntries msg => exact onAppendEntries_records n msg now
      | appendEntriesReply msg => exact onAppendEntriesReply_records n msg
      | timeoutNow msg => exact onTimeoutNow_records n msg
      | installSnapshot msg => exact onInstallSnapshot_records n msg now
      | installSnapshotReply msg => exact onInstallSnapshotReply_records n msg

end Writes

end Vraft
