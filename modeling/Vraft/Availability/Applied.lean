import Vraft.Refine.Simulation
import Vraft.Raft.Follow

/-!
# Committed entries are applied at once

Every handler that advances the commit index applies what it commits before it ends,
and no other handler touches either index.  Between two steps of a cluster nothing
that a member knows to be committed is left to apply.
-/

namespace Vraft

namespace Node

/-- All that the node knows to be committed has been applied. -/
def AppliesCommitted (n : Node) : Prop :=
  n.commit ≤ n.lastApply

/-- If the code ends, all that is committed has been applied. -/
def Applying (out : Outcome) : Prop :=
  ∀ n', out = .ok n' → n'.AppliesCommitted

/-- If the code ends, neither index has moved. -/
def Resting (n : Node) (out : Outcome) : Prop :=
  ∀ n', out = .ok n' → n'.commit = n.commit ∧ n'.lastApply = n.lastApply

variable {n n₁ n' : Node} {out : Outcome} {next : Node → Outcome}

theorem Resting.ok (commit : n'.commit = n.commit) (lastApply : n'.lastApply = n.lastApply) :
    Resting n (.ok n') := by
  rintro _ ⟨⟩
  exact ⟨commit, lastApply⟩

theorem Resting.error (failed : AssertSite × Node) : Resting n (.error failed) := by
  rintro _ ⟨⟩

/-- The code starts with other changes. -/
theorem Resting.after (commit : n₁.commit = n.commit) (lastApply : n₁.lastApply = n.lastApply)
    (rests : Resting n₁ out) : Resting n out := by
  intro n' done
  obtain ⟨commit', lastApply'⟩ := rests n' done
  exact ⟨commit'.trans commit, lastApply'.trans lastApply⟩

theorem Resting.bind (first : Resting n out) (rest : ∀ n₁, Resting n₁ (next n₁)) :
    Resting n (out >>= next) := by
  intro n' done
  obtain ⟨n₁, before, after⟩ := ok_of_bind_ok done
  obtain ⟨commit, lastApply⟩ := first n₁ before
  obtain ⟨commit', lastApply'⟩ := rest n₁ n' after
  exact ⟨commit'.trans commit, lastApply'.trans lastApply⟩

theorem Resting.compute {α : Type} {value : Except (AssertSite × Node) α} {next : α → Outcome}
    (rest : ∀ result, Resting n (next result)) : Resting n (value >>= next) := by
  intro n' done
  obtain ⟨result, -, after⟩ := ok_of_bind_ok done
  exact rest result n' after

theorem Resting.check {site : AssertSite} {c : Prop} [Decidable c] : Resting n (n.check site c) := by
  unfold Node.check
  split
  · exact .ok rfl rfl
  · exact .error _

theorem Resting.applying (rests : Resting n out) (applied : n.AppliesCommitted) : Applying out := by
  intro n' done
  obtain ⟨commit, lastApply⟩ := rests n' done
  unfold AppliesCommitted
  rw [commit, lastApply]
  exact applied

theorem Applying.ok (applied : n.AppliesCommitted) : Applying (.ok n) := by
  rintro _ ⟨⟩
  exact applied

theorem Applying.error (failed : AssertSite × Node) : Applying (.error failed) := by
  rintro _ ⟨⟩

theorem Applying.bind (first : Applying out)
    (rest : ∀ n₁, n₁.AppliesCommitted → Applying (next n₁)) : Applying (out >>= next) := by
  intro n' done
  obtain ⟨n₁, before, after⟩ := ok_of_bind_ok done
  exact rest n₁ (first n₁ before) n' after

/-! ## Commitment -/

/-- Application catches up with the commit index. -/
theorem stateMachineApply_applying : Applying n.stateMachineApply := by
  unfold stateMachineApply
  split
  · intro n' done
    obtain ⟨n₁, -, done⟩ := ok_of_bind_ok done
    obtain rfl := Except.ok.inj done
    exact le_refl n₁.commit
  · rename_i behind
    exact .ok (not_lt.mp behind)

theorem maybeCommit_applying (applied : n.AppliesCommitted) : Applying n.maybeCommit := by
  unfold maybeCommit
  refine .bind (Resting.check.applying applied) fun n₁ applied => ?_
  dsimp only
  split
  · exact .ok applied
  refine .bind (Resting.check.applying applied) fun n₂ applied => ?_
  split
  · exact .error _
  split
  · exact .ok applied
  · intro n' done
    obtain ⟨n₃, -, done⟩ := ok_of_bind_ok done
    exact stateMachineApply_applying n' done

theorem learnCommit_applying (index : ℕ) (applied : n.AppliesCommitted) :
    Applying (n.learnCommit index) := by
  unfold learnCommit
  split
  · intro n' done
    obtain ⟨n₁, -, done⟩ := ok_of_bind_ok done
    exact stateMachineApply_applying n' done
  · exact .ok applied

/-! ## The log -/

theorem appendOne_resting (entry : AppendEntry) : Resting n (n.appendOne entry) := by
  intro n' done
  rcases appendOne_cases done with ⟨-, rfl⟩ | ⟨rc, n₁, config, -, -, changed, rfl⟩
  · exact ⟨rfl, rfl⟩
  · have resized : n₁ = _ := doConfigChange_resized changed
    rw [resized]
    exact ⟨rfl, rfl⟩

theorem appendAll_resting (entries : List LogEntry) : Resting n (n.appendAll entries) := by
  induction entries generalizing n with
  | nil => exact .ok rfl rfl
  | cons entry rest ih => exact .bind (appendOne_resting _) fun n₁ => ih

theorem deleteFrom_resting (from_ : ℕ) : Resting n (n.deleteFrom from_) := by
  intro n' done
  rcases deleteFrom_cases done with ⟨-, rfl⟩ | ⟨-, -, rfl⟩ | ⟨index, n₁, -, -, rolled, rfl⟩
  · exact ⟨rfl, rfl⟩
  · exact ⟨rfl, rfl⟩
  · obtain ⟨_, n₂, _, -, changed, rfl⟩ := configRollback_cases rolled
    have resized : n₂ = _ := doConfigChange_resized changed
    rw [resized]
    exact ⟨rfl, rfl⟩

theorem acceptEntries_resting (index : ℕ) (entries : List LogEntry) :
    Resting n (n.acceptEntries index entries) := by
  induction entries generalizing n index with
  | nil => exact .ok rfl rfl
  | cons entry rest ih =>
      unfold acceptEntries
      refine .bind .check fun n₁ => ?_
      split
      · exact ih _
      split
      · split
        · exact .error _
        split
        · exact ih _
        · refine .bind .check fun n₂ => ?_
          exact .bind (deleteFrom_resting _) fun n₃ => appendAll_resting _
      · exact appendAll_resting _

/-! ## Sends -/

theorem sendAppendEntries_resting (dest : Addr) : Resting n (n.sendAppendEntries dest) := by
  have streams (n : Node) : Resting n (n.sendInstallSnapshot dest) := by
    intro n' done
    rw [sendInstallSnapshot_same done]
    exact ⟨rfl, rfl⟩
  unfold sendAppendEntries
  refine .after rfl rfl (.bind .check fun n₁ => ?_)
  split
  · exact streams n₁
  · refine .compute fun term => ?_
    split
    · exact streams n₁
    · exact .compute fun entries => .ok rfl rfl

theorem replicate_resting (dests : List Addr) : Resting n (n.replicate dests) := by
  induction dests generalizing n with
  | nil => exact .ok rfl rfl
  | cons dest rest ih => exact .bind (sendAppendEntries_resting _) fun n₁ => ih

/-! ## Roles -/

theorem stepDown_resting (term : ℕ) : Resting n (n.stepDown term) := by
  intro n' done
  have hears := hears_stepDown.of_ok done
  exact ⟨hears.commit, hears.lastApply⟩

theorem maybeStepDown_resting (term : ℕ) : Resting n (n.maybeStepDown term) := by
  unfold maybeStepDown
  split
  · exact stepDown_resting _
  · exact .ok rfl rfl

theorem becomeLeader_resting : Resting n n.becomeLeader := by
  unfold becomeLeader
  refine .after rfl rfl (.bind .check fun n₁ => ?_)
  exact .after rfl rfl (appendOne_resting _)

theorem countSelf_rests (n : Node) : n.countSelf.commit = n.commit ∧
    n.countSelf.lastApply = n.lastApply := by
  unfold countSelf
  split <;> exact ⟨rfl, rfl⟩

theorem doRequestVote_resting : Resting n n.doRequestVote := by
  obtain ⟨commit, lastApply⟩ :=
    countSelf_rests (n.incrTerm.becomeCandidate.setVote n.incrTerm.becomeCandidate.me)
  unfold doRequestVote
  dsimp only
  split
  · exact .after commit lastApply becomeLeader_resting
  · exact .ok commit lastApply

/-! ## Handlers -/

theorem elect_resting : Resting n n.elect := by
  unfold elect
  refine .bind .check fun n₁ => ?_
  split
  · exact .ok rfl rfl
  split
  · exact .ok rfl rfl
  · exact doRequestVote_resting

theorem requestVoteRpc_resting (dest : Addr) : Resting n (n.requestVoteRpc dest) := by
  unfold requestVoteRpc
  refine .bind .check fun n₁ => ?_
  unfold sendRequestVote
  dsimp only
  split <;> exact .ok rfl rfl

theorem onRequestVote_resting (msg : RequestVote) (now : ℤ) :
    Resting n (n.onRequestVote msg now) := by
  unfold onRequestVote
  split
  · exact .ok rfl rfl
  dsimp only
  split
  · refine .bind (maybeStepDown_resting _) fun n₁ => ?_
    refine .bind .check fun n₂ => ?_
    refine .bind ?_ fun n₃ => .ok rfl rfl
    unfold maybeVote
    split
    · split
      · refine .bind (stepDown_resting _) fun n₃ => ?_
        split <;> exact .ok rfl rfl
      · exact .ok rfl rfl
    · exact .ok rfl rfl
  · exact .ok rfl rfl

theorem onPreVote_resting (msg : RequestVoteReply) : Resting n (n.onPreVote msg) := by
  have either (c : Prop) [Decidable c] (n₁ : Node) (commit : n₁.commit = n.commit)
      (lastApply : n₁.lastApply = n.lastApply) :
      Resting n (if c then doRequestVote { n₁ with preVoting := false } else .ok n₁) := by
    split
    · exact .after commit lastApply doRequestVote_resting
    · exact .ok commit lastApply
  refine either _ _ ?_ ?_
  · split_ifs <;> rfl
  · split_ifs <;> rfl

theorem onRealVote_resting (msg : RequestVoteReply) : Resting n (n.onRealVote msg) := by
  unfold onRealVote
  dsimp only
  split
  · obtain ⟨commit, lastApply⟩ := countSelf_rests { n with
      voteMgr := VoteManager.getVote (n.voteMgr.done msg.src) msg.src
      timerMgr := n.timerMgr.stopRequestVoteOf msg.src }
    split
    · exact .after commit lastApply becomeLeader_resting
    · exact .ok commit lastApply
  · exact .ok rfl rfl

theorem onRequestVoteReply_resting (msg : RequestVoteReply) :
    Resting n (n.onRequestVoteReply msg) := by
  unfold onRequestVoteReply
  split
  · exact .ok rfl rfl
  split
  · exact .ok rfl rfl
  split
  · exact .ok rfl rfl
  split
  · exact stepDown_resting _
  refine .bind .check fun n₁ => ?_
  split
  · exact onPreVote_resting msg
  · exact onRealVote_resting msg

theorem onTimeoutNow_resting (msg : TimeoutNow) : Resting n (n.onTimeoutNow msg) := by
  unfold onTimeoutNow
  split
  · exact .ok rfl rfl
  dsimp only
  refine .after rfl rfl (.bind (maybeStepDown_resting _) fun n₁ => ?_)
  refine .bind .check fun n₂ => ?_
  split
  · exact .ok rfl rfl
  split <;> exact .ok rfl rfl

theorem onAppendEntries_applying (msg : AppendEntries) (now : ℤ) (applied : n.AppliesCommitted) :
    Applying (n.onAppendEntries msg now) := by
  have hears {n n' : Node} (hears : Hears n n') (applied : n.AppliesCommitted) :
      n'.AppliesCommitted := by
    unfold AppliesCommitted
    rw [hears.commit, hears.lastApply]
    exact applied
  have ends : Meets (n.onAppendEntries msg now) AppliesCommitted fun _ => True := by
    apply meets_onAppendEntries AppliesCommitted AppliesCommitted
    case head => exact fun _ _ => trivial
    case refuse => exact fun n' heard => hears heard applied
    case accept =>
      intro n₁ heard _
      exact .intro_ ((acceptEntries_resting _ _).applying (hears heard applied)) fun _ _ => trivial
    case learn =>
      intro n₂ applied
      exact .intro_ (learnCommit_applying _ applied) fun _ _ => trivial
    case finish => exact fun n₃ n₄ applied heard => hears heard applied
  exact fun n' done => ends.of_ok done

theorem onAppendEntriesReply_applying (msg : AppendEntriesReply) (applied : n.AppliesCommitted) :
    Applying (n.onAppendEntriesReply msg) := by
  unfold onAppendEntriesReply
  split
  · exact .ok applied
  split
  · exact .ok applied
  split
  · exact .ok applied
  refine .bind (Resting.check.applying applied) fun n₁ applied => ?_
  split
  · exact (stepDown_resting _).applying applied
  refine .bind (Resting.check.applying applied) fun n₂ applied => ?_
  refine .bind ?_ fun n₃ applied => ?_
  · unfold onIndexReply
    split
    · refine .bind ?_ fun n₃ applied => .ok applied
      unfold raiseMatch
      dsimp only
      split
      · exact .ok applied
      · exact maybeCommit_applying applied
    · exact .ok applied
  · split
    · exact .bind ((sendAppendEntries_resting _).applying applied) fun n₄ applied => .ok applied
    · exact .ok applied

theorem propose_applying (value : Bytes) (applied : n.AppliesCommitted) :
    Applying (n.propose value) := by
  unfold propose
  split
  · exact .ok applied
  · refine .bind ((appendOne_resting _).applying applied) fun n₁ applied => ?_
    refine .bind (maybeCommit_applying applied) fun n₂ applied => ?_
    exact (replicate_resting _).applying applied

end Node

section Cluster

variable {m : Membership} {meets : m.Intersecting} {s : Cluster} {a : Ghost} {p : Addr} {input : Input}

theorem Sim.applying (sim : Sim m meets s a) (enabled : s.Enabled m p input)
    (applied : (s.node p).AppliesCommitted) : Node.Applying ((s.node p).handle input) := by
  cases input with
  | electionTimer => exact Node.elect_resting.applying applied
  | requestVoteTimer dest => exact (Node.requestVoteRpc_resting dest).applying applied
  | heartbeatTimer dest =>
      refine .bind (Node.Resting.check.applying applied) fun n₁ applied => ?_
      exact (Node.sendAppendEntries_resting dest).applying applied
  | propose value => exact Node.propose_applying value applied
  | leaderTransfer dest =>
      show Node.Applying ((s.node p).leaderTransferTo dest)
      unfold Node.leaderTransferTo
      split <;> exact .ok applied
  | setFlags flags => exact .ok applied
  | recv msg now =>
      cases msg with
      | requestVote msg => exact (Node.onRequestVote_resting msg now).applying applied
      | requestVoteReply msg => exact (Node.onRequestVoteReply_resting msg).applying applied
      | appendEntries msg => exact Node.onAppendEntries_applying msg now applied
      | appendEntriesReply msg => exact Node.onAppendEntriesReply_applying msg applied
      | timeoutNow msg => exact (Node.onTimeoutNow_resting msg).applying applied
      | installSnapshot msg => exact (sim.message enabled.1).2.elim
      | installSnapshotReply msg => exact (sim.message enabled.1).2.elim

/-- In every reachable state every node has applied all that it knows to be
committed. -/
theorem applies_committed (meets : m.Intersecting) (reachable : s.Reachable m Cluster.Whole) :
    (s.node p).AppliesCommitted := by
  obtain ⟨flags, run⟩ := reachable
  induction run with
  | refl => exact Nat.zero_le _
  | @tail s s' before step ih =>
      obtain ⟨a, sim⟩ := Sim.of_reachable meets ⟨flags, before⟩
      cases step with
      | handle q memQ input enabled n done =>
          by_cases same : p = q
          · subst same
            simp only [Cluster.update, Function.update_self]
            exact sim.applying enabled ih n done
          · simp only [Cluster.update, Function.update_of_ne same]
            exact ih
      | crash q memQ input enabled performed reached whole flags =>
          by_cases same : p = q
          · subst same
            simp only [Cluster.update, Function.update_self]
            exact Nat.zero_le _
          · simp only [Cluster.update, Function.update_of_ne same]
            exact ih

end Cluster

end Vraft
