import Vraft.Availability.Timers

/-!
# Which asserts can fail

The asserts about the role of a node stand at the head of four handlers, and nowhere
in what handlers call.  In a cluster all other asserts hold, and timers fire in the
right roles only, so one assert is left that can fail: the one about a reply that
reaches a member in the term of the request when it no longer leads.
-/

namespace Vraft

/-- No assert about the role of the node fails. -/
def RoleFree {α : Type} (out : Except (AssertSite × Node) α) : Prop :=
  ∀ failed, out = .error failed → ¬failed.1.Benign

namespace RoleFree

variable {α β : Type} {n : Node}

theorem ok (value : α) : RoleFree (.ok value) := by
  rintro failed ⟨⟩

theorem error {failed : AssertSite × Node} (other : ¬failed.1.Benign) :
    RoleFree (.error failed : Except (AssertSite × Node) α) := by
  rintro _ ⟨⟩
  exact other

theorem bind {out : Except (AssertSite × Node) α} {next : α → Except (AssertSite × Node) β}
    (first : RoleFree out) (rest : ∀ value, RoleFree (next value)) : RoleFree (out >>= next) := by
  cases out with
  | error failed =>
      rintro _ ⟨⟩
      exact first failed rfl
  | ok value => exact rest value

theorem check {site : AssertSite} {c : Prop} [Decidable c] (other : ¬site.Benign) :
    RoleFree (n.check site c) := by
  unfold Node.check
  split
  · exact ok n
  · exact error other

end RoleFree

namespace AssertSite

variable {site : AssertSite}

instance : Decidable site.Benign :=
  inferInstanceAs (Decidable (_ ∨ _))

end AssertSite

section Asserts

variable {n : Node}

/-! ## Configurations -/

theorem addPeer_roleFree (addr : Addr) : RoleFree (n.addPeer addr) := by
  unfold Node.addPeer
  dsimp only
  refine .bind (.check (by decide)) fun n₁ => ?_
  refine .bind (.check (by decide)) fun n₂ => ?_
  exact .ok _

theorem addPeers_roleFree (rc : RaftConfig) (addrs : List Addr) :
    RoleFree (n.addPeers rc addrs) := by
  induction addrs generalizing n rc with
  | nil => exact .ok _
  | cons addr rest ih => exact .bind (addPeer_roleFree addr) fun n₁ => ih _

theorem doConfigChange_roleFree (rc : RaftConfig) : RoleFree (n.doConfigChange rc) := by
  unfold Node.doConfigChange
  dsimp only
  split
  · refine .bind (.check (by decide)) fun n₁ => ?_
    split
    · exact .bind (.check (by decide)) fun n₂ => addPeers_roleFree _ _
    · exact .bind (.check (by decide)) fun n₂ => .ok _
  · refine .bind (.check (by decide)) fun n₁ => ?_
    exact .bind (.check (by decide)) fun n₂ => addPeers_roleFree _ _

theorem configRollbacks_roleFree (dropped : List ℕ) : RoleFree (n.configRollbacks dropped) := by
  induction dropped generalizing n with
  | nil => exact .ok _
  | cons index rest ih =>
      refine .bind ?_ fun n₁ => ih
      unfold Node.configRollback
      split
      · exact .error (by simp [AssertSite.Benign])
      · exact .bind (doConfigChange_roleFree _) fun result => .ok _

/-! ## The log -/

theorem appendOne_roleFree (entry : AppendEntry) : RoleFree (n.appendOne entry) := by
  unfold Node.appendOne
  refine .bind ?_ fun n₁ => .ok _
  unfold Node.configWritten
  split
  · split
    · exact .bind (doConfigChange_roleFree _) fun result => .ok _
    · exact .error (by simp [AssertSite.Benign])
  · exact .ok _

theorem appendAll_roleFree (entries : List LogEntry) : RoleFree (n.appendAll entries) := by
  induction entries generalizing n with
  | nil => exact .ok _
  | cons entry rest ih => exact .bind (appendOne_roleFree _) fun n₁ => ih

theorem deleteFrom_roleFree (from_ : ℕ) : RoleFree (n.deleteFrom from_) := by
  unfold Node.deleteFrom
  split
  · exact .ok _
  · exact .bind (configRollbacks_roleFree _) fun n₁ => .ok _

theorem acceptEntries_roleFree (index : ℕ) (entries : List LogEntry) :
    RoleFree (n.acceptEntries index entries) := by
  induction entries generalizing n index with
  | nil => exact .ok _
  | cons entry rest ih =>
      unfold Node.acceptEntries
      refine .bind (.check (by decide)) fun n₁ => ?_
      split
      · exact ih _
      split
      · split
        · exact .error (by simp [AssertSite.Benign])
        split
        · exact ih _
        · refine .bind (.check (by decide)) fun n₂ => ?_
          exact .bind (deleteFrom_roleFree _) fun n₃ => appendAll_roleFree _
      · exact appendAll_roleFree _

theorem stateMachineApply_roleFree : RoleFree n.stateMachineApply := by
  have applied (n : Node) (index count : ℕ) : RoleFree (n.applyFrom index count) := by
    induction count generalizing n index with
    | zero => exact .ok _
    | succ count ih =>
        refine .bind ?_ fun n₁ => ih n₁ _
        unfold Node.applyOne
        split
        · exact .error (by simp [AssertSite.Benign])
        · split
          · split <;> exact .ok _
          · exact .ok _
          · exact .ok _
          · exact .error (by simp [AssertSite.Benign])
  unfold Node.stateMachineApply
  split
  · exact .bind (applied _ _ _) fun n₁ => .ok _
  · exact .ok _

theorem maybeCommit_roleFree : RoleFree n.maybeCommit := by
  unfold Node.maybeCommit
  refine .bind (.check (by decide)) fun n₁ => ?_
  dsimp only
  split
  · exact .ok _
  refine .bind (.check (by decide)) fun n₂ => ?_
  split
  · exact .error (by simp [AssertSite.Benign])
  split
  · exact .ok _
  · exact .bind (.check (by decide)) fun n₃ => stateMachineApply_roleFree

theorem learnCommit_roleFree (index : ℕ) : RoleFree (n.learnCommit index) := by
  unfold Node.learnCommit
  split
  · exact .bind (.check (by decide)) fun n₁ => stateMachineApply_roleFree
  · exact .ok _

/-! ## Sends -/

theorem sendInstallSnapshot_roleFree (dest : Addr) : RoleFree (n.sendInstallSnapshot dest) := by
  unfold Node.sendInstallSnapshot
  dsimp only
  split
  · exact .error (by simp [AssertSite.Benign])
  · exact .ok _

theorem sendAppendEntries_roleFree (dest : Addr) : RoleFree (n.sendAppendEntries dest) := by
  have preTerm (n : Node) (index : ℕ) : RoleFree (n.preTermOf index) := by
    unfold Node.preTermOf
    split
    · split
      · exact .ok _
      · exact .error (by simp [AssertSite.Benign])
    · split
      · exact .ok _
      · split <;> exact .ok _
  have entries (n : Node) (index : ℕ) : RoleFree (n.entriesAt index) := by
    unfold Node.entriesAt
    split
    · split
      · exact .ok _
      · exact .error (by simp [AssertSite.Benign])
    · exact .ok _
  unfold Node.sendAppendEntries
  dsimp only
  refine .bind (.check (by decide)) fun n₁ => ?_
  split
  · exact sendInstallSnapshot_roleFree _
  · refine .bind (preTerm _ _) fun term => ?_
    split
    · exact sendInstallSnapshot_roleFree _
    · exact .bind (entries _ _) fun sent => .ok _

theorem replicate_roleFree (dests : List Addr) : RoleFree (n.replicate dests) := by
  induction dests generalizing n with
  | nil => exact .ok _
  | cons dest rest ih => exact .bind (sendAppendEntries_roleFree _) fun n₁ => ih

/-! ## Roles -/

theorem stepDown_roleFree (term : ℕ) : RoleFree (n.stepDown term) := by
  unfold Node.stepDown
  exact .bind (.check (by decide)) fun n₁ => .ok _

theorem maybeStepDown_roleFree (term : ℕ) : RoleFree (n.maybeStepDown term) := by
  unfold Node.maybeStepDown
  split
  · exact stepDown_roleFree _
  · exact .ok _

theorem becomeLeader_roleFree : RoleFree n.becomeLeader := by
  unfold Node.becomeLeader
  exact .bind (.check (by decide)) fun n₁ => appendOne_roleFree _

theorem doRequestVote_roleFree : RoleFree n.doRequestVote := by
  unfold Node.doRequestVote
  dsimp only
  split
  · exact becomeLeader_roleFree
  · exact .ok _

/-! ## Handlers -/

theorem onRequestVote_roleFree (msg : RequestVote) (now : ℤ) :
    RoleFree (n.onRequestVote msg now) := by
  unfold Node.onRequestVote
  split
  · exact .ok _
  dsimp only
  split
  · refine .bind (maybeStepDown_roleFree _) fun n₁ => ?_
    refine .bind (.check (by decide)) fun n₂ => ?_
    refine .bind ?_ fun n₃ => .ok _
    unfold Node.maybeVote
    split
    · split
      · exact .bind (stepDown_roleFree _) fun n₃ => .ok _
      · exact .ok _
    · exact .ok _
  · exact .ok _

theorem onRequestVoteReply_roleFree (msg : RequestVoteReply) :
    RoleFree (n.onRequestVoteReply msg) := by
  unfold Node.onRequestVoteReply
  split
  · exact .ok _
  split
  · exact .ok _
  split
  · exact .ok _
  split
  · exact stepDown_roleFree _
  refine .bind (.check (by decide)) fun n₁ => ?_
  split
  · have either (c : Prop) [Decidable c] (standing counted : Node) :
        RoleFree (if c then standing.doRequestVote else .ok counted) := by
      split
      · exact doRequestVote_roleFree
      · exact .ok _
    exact either _ _ _
  · unfold Node.onRealVote
    dsimp only
    split
    · split
      · exact becomeLeader_roleFree
      · exact .ok _
    · exact .ok _

theorem hearLeader_roleFree (src : Addr) (term : ℕ) (now : ℤ) :
    RoleFree (n.hearLeader src term now) := by
  unfold Node.hearLeader
  refine .bind (stepDown_roleFree _) fun n₁ => ?_
  dsimp only
  split
  · exact .ok _
  · exact .check (by decide)

theorem onAppendEntries_roleFree (msg : AppendEntries) (now : ℤ) :
    RoleFree (n.onAppendEntries msg now) := by
  have mismatch (n : Node) : RoleFree (n.preLogMismatch msg) := by
    unfold Node.preLogMismatch
    split
    · exact .ok _
    · split
      · split
        · exact .ok _
        · exact .error (by simp [AssertSite.Benign])
      · exact .ok _
  unfold Node.onAppendEntries
  split
  · exact .ok _
  dsimp only
  split
  · exact .ok _
  refine .bind (hearLeader_roleFree _ _ _) fun n₁ => ?_
  refine .bind (mismatch n₁) fun differs => ?_
  split
  · exact .ok _
  refine .bind (acceptEntries_roleFree _ _) fun n₂ => ?_
  exact .bind (learnCommit_roleFree _) fun n₃ => .ok _

theorem onTimeoutNow_roleFree (msg : TimeoutNow) : RoleFree (n.onTimeoutNow msg) := by
  unfold Node.onTimeoutNow
  split
  · exact .ok _
  dsimp only
  refine .bind (maybeStepDown_roleFree _) fun n₁ => ?_
  refine .bind (.check (by decide)) fun n₂ => ?_
  split
  · exact .ok _
  split <;> exact .ok _

theorem propose_roleFree (value : Bytes) : RoleFree (n.propose value) := by
  unfold Node.propose
  split
  · exact .ok _
  · refine .bind (appendOne_roleFree _) fun n₁ => ?_
    exact .bind maybeCommit_roleFree fun n₂ => replicate_roleFree _

/-- A reply that reaches a leader in the term of the request, or that is of no use. -/
theorem onAppendEntriesReply_roleFree (msg : AppendEntriesReply)
    (leads : n.started = true → n.solid.term ≤ msg.term → msg.reqTerm = n.solid.term →
      n.state = .leader) : RoleFree (n.onAppendEntriesReply msg) := by
  have matched (n : Node) : RoleFree (n.onIndexReply msg) := by
    unfold Node.onIndexReply
    split
    · unfold Node.onMatch
      refine .bind ?_ fun n₁ => .ok _
      unfold Node.raiseMatch
      dsimp only
      split
      · exact .ok _
      · exact maybeCommit_roleFree
    · exact .ok _
  unfold Node.onAppendEntriesReply
  split
  · exact .ok _
  rename_i running
  split
  · exact .ok _
  rename_i current
  split
  · exact .ok _
  rename_i asked
  rw [Node.check_of (leads (by simpa using running) (by omega) (not_not.mp asked)), ok_bind]
  split
  · exact stepDown_roleFree _
  refine .bind (.check (by decide)) fun n₁ => ?_
  refine .bind (matched n₁) fun n₂ => ?_
  split
  · exact .bind (sendAppendEntries_roleFree _) fun n₃ => .ok _
  · exact .ok _

end Asserts

section Cluster

variable {m : Membership} {meets : m.Intersecting} {s : Cluster} {p : Addr} {input : Input}

/-- The role that a handler asserts is the node's. -/
def Input.InRole (n : Node) : Input → Prop
  | .electionTimer => n.state = .follower ∨ n.state = .candidate
  | .requestVoteTimer _ => n.state = .candidate
  | .heartbeatTimer _ => n.state = .leader
  | .recv (.appendEntriesReply msg) _ => n.solid.term ≤ msg.term → msg.reqTerm = n.solid.term →
      n.state = .leader
  | _ => True

/-- In its role a handler ends. -/
theorem Sim.handle_ok {a : Ghost} (sim : Sim m meets s a) (mem : p ∈ m.members)
    (enabled : s.Enabled m p input) (role : input.InRole (s.node p)) :
    ∃ n, (s.node p).handle input = .ok n := by
  have free : RoleFree ((s.node p).handle input) := by
    cases input with
    | electionTimer =>
        show RoleFree (s.node p).elect
        have stands : (s.node p).state = .follower ∨ (s.node p).state = .candidate := role
        rw [Node.elect, Node.check_of stands, ok_bind]
        split
        · exact .ok _
        split
        · exact .ok _
        · exact doRequestVote_roleFree
    | requestVoteTimer dest =>
        show RoleFree ((s.node p).requestVoteRpc dest)
        have candidate : (s.node p).state = .candidate := role
        rw [Node.requestVoteRpc, Node.check_of candidate, ok_bind]
        exact .ok _
    | heartbeatTimer dest =>
        show RoleFree ((s.node p).heartBeat dest)
        have leader : (s.node p).state = .leader := role
        rw [Node.heartBeat, Node.check_of leader, ok_bind]
        exact sendAppendEntries_roleFree dest
    | propose value => exact propose_roleFree value
    | leaderTransfer dest =>
        show RoleFree ((s.node p).leaderTransferTo dest)
        unfold Node.leaderTransferTo
        split <;> exact .ok _
    | setFlags flags => exact .ok _
    | recv msg now =>
        cases msg with
        | requestVote msg => exact onRequestVote_roleFree msg now
        | requestVoteReply msg => exact onRequestVoteReply_roleFree msg
        | appendEntries msg => exact onAppendEntries_roleFree msg now
        | appendEntriesReply msg => exact onAppendEntriesReply_roleFree msg fun _ => role
        | timeoutNow msg => exact onTimeoutNow_roleFree msg
        | installSnapshot msg => exact (sim.message enabled.1).2.elim
        | installSnapshotReply msg => exact (sim.message enabled.1).2.elim
  cases out : (s.node p).handle input with
  | ok n => exact ⟨n, rfl⟩
  | error failed => exact absurd (sim.benign mem enabled out) (free failed out)

/-- In a cluster without membership changes and compaction, with an odd number of
members, a handler is stopped by an assert only when a reply comes back to a member
that is in the term of the request and does not lead. -/
theorem stops_iff (odd : Odd m.size) (reachable : s.Reachable m Cluster.Whole)
    (mem : p ∈ m.members) (enabled : s.Enabled m p input)
    (armed : (s.node p).Armed (.input input)) :
    (∃ failed, (s.node p).handle input = .error failed) ↔
      ∃ msg now, input = .recv (.appendEntriesReply msg) now ∧
        (s.node p).solid.term ≤ msg.term ∧ msg.reqTerm = (s.node p).solid.term ∧
          (s.node p).state ≠ .leader := by
  obtain ⟨a, sim⟩ := Sim.of_reachable (Or.inl odd) reachable
  obtain ⟨agrees, -⟩ := ticking_of_reachable (Or.inl odd) reachable mem
  constructor
  · rintro ⟨failed, stopped⟩
    by_contra none_
    have role : input.InRole (s.node p) := by
      cases input with
      | electionTimer => exact agrees.election armed
      | requestVoteTimer dest => exact agrees.requestVotes dest armed
      | heartbeatTimer dest => exact agrees.heartbeats dest armed
      | recv msg now =>
          cases msg with
          | appendEntriesReply msg =>
              intro current asked
              by_contra other
              exact none_ ⟨msg, now, rfl, current, asked, other⟩
          | _ => trivial
      | _ => trivial
    obtain ⟨n, done⟩ := sim.handle_ok mem enabled role
    rw [done] at stopped
    contradiction
  · rintro ⟨msg, now, rfl, current, asked, other⟩
    have started : (s.node p).started = true := (sim.live p mem).started
    refine ⟨(.replyState, s.node p), ?_⟩
    show (s.node p).onAppendEntriesReply msg = _
    unfold Node.onAppendEntriesReply
    rw [started]
    simp only [Bool.not_true, Bool.false_eq_true, if_false]
    rw [if_neg current.not_gt, if_neg (not_not.mpr asked)]
    simp [Node.check, other, bind, Except.bind]

/-- A leader of three restarts, and the answer to its heartbeat stops it. -/
theorem stops_iff_three :
    ∃ (s : Cluster) (msg : AppendEntriesReply), s.Reachable (.upTo 3) Cluster.Whole ∧
      s.InFlight (.upTo 3) (.appendEntriesReply msg) ∧
        ∃ failed, (s.node 1).handle (.recv (.appendEntriesReply msg) 0) = .error failed := by
  let msg : AppendEntriesReply := ⟨2, 1, 2, true, 1, 0, 1, 2⟩
  have observed : ((Cluster.start (.upTo 3)).play (.upTo 3)
      (Cluster.election 1 [2] ++ (Cluster.exchange 1 2).take 2)).any
      (fun s => decide ((s.node 1).solid.term = 2 ∧ .send (.appendEntriesReply msg) ∈ s.hist 2)) =
        true := by
    decide +kernel
  obtain ⟨s, run, found⟩ := Cluster.run_of_observed observed
  obtain ⟨term, sent⟩ := of_decide_eq_true found
  set s' := s.update 1 (Node.boot (Membership.config (.upTo 3) 1) ⟨false, false, false, {}⟩
    ((s.node 1).disk.performAll [])) [] with s'_eq
  have restart : Cluster.Step (.upTo 3) Cluster.Whole s s' :=
    .crash 1 (by decide) .electionTimer trivial [] (List.nil_prefix) (by simp [Cluster.Whole])
      ⟨false, false, false, {}⟩
  have reachable : s'.Reachable (.upTo 3) Cluster.Whole := ⟨_, run.tail restart⟩
  have enabled : s'.Enabled (.upTo 3) 1 (.recv (.appendEntriesReply msg) 0) :=
    ⟨⟨2, by decide, sent⟩, rfl⟩
  have same : (s'.node 1).solid.term = 2 := term
  have state : (s'.node 1).state = .follower := rfl
  have follows : (s'.node 1).state ≠ .leader := by simp [state]
  exact ⟨s', msg, reachable, enabled.1, (stops_iff (by decide) reachable (by decide) enabled
    trivial).mpr ⟨msg, 0, rfl, same.le, same.symm, follows⟩⟩

end Cluster

end Vraft
