import Vraft.Lib.Failing
import Vraft.Raft.Cluster

/-!
# Where entries come from

A leader writes what is proposed to it, and whatever else a node writes, sends or
applies it has read from its log or from a message.  So a data entry, wherever it
turns up, carries a value that was proposed to a leader of its term.  This needs no
majorities, and it does not matter where in a handler a crash occurs.
-/

namespace Vraft

/-! ## Entries of a node -/

/-- The value of a data entry was proposed in its term. -/
def AppendEntry.Proposed (proposed : ℕ → Bytes → Prop) (entry : AppendEntry) : Prop :=
  entry.type = .data → proposed entry.term entry.value

/-- The entries that are written, sent or applied were proposed. -/
def Effect.Proposed (proposed : ℕ → Bytes → Prop) : Effect → Prop
  | .appendLog entry => entry.Proposed proposed
  | .apply entry => entry.appendEntry.Proposed proposed
  | .send (.appendEntries msg) => ∀ entry ∈ msg.entries, entry.appendEntry.Proposed proposed
  | _ => True

/-- What is in the log and what has been done with entries goes back to proposals. -/
structure Sources (proposed : ℕ → Bytes → Prop) (log : Log) (effects : List Effect) : Prop where
  held : ∀ entry ∈ log.entries, entry.Proposed proposed
  told : ∀ effect ∈ effects, effect.Proposed proposed

/-- What a node holds and sends comes from what has been proposed. -/
abbrev Sourced (proposed : ℕ → Bytes → Prop) (n : Node) : Prop :=
  Sources proposed n.log n.effects

/-- The code ends with a sourced node, at an assert or not. -/
abbrev Conserves (proposed : ℕ → Bytes → Prop) (out : Outcome) : Prop :=
  Meets out (Sourced proposed) fun failed => Sourced proposed failed.2

/-- What an input brings was proposed: a proposal is one to a leader in its term. -/
def Input.Proposed (proposed : ℕ → Bytes → Prop) (n : Node) : Input → Prop
  | .propose value => n.state = .leader → proposed n.solid.term value
  | .recv (.appendEntries msg) _ => ∀ entry ∈ msg.entries, entry.appendEntry.Proposed proposed
  | _ => True

section Handlers

variable {proposed : ℕ → Bytes → Prop} {n : Node}

theorem Log.mem_of_get {log : Log} {index : ℕ} {entry : LogEntry}
    (found : log.get index = some entry) : entry.appendEntry ∈ log.entries := by
  obtain ⟨stored, at_index, rfl⟩ := Option.map_eq_some_iff.mp found
  rw [Log.entryAt] at at_index
  split at at_index
  · contradiction
  · exact List.mem_of_getElem? at_index

theorem Sources.emit (sourced : Sourced proposed n) {e : Effect} (ok : e.Proposed proposed) :
    Sourced proposed (n.emit e) := by
  refine ⟨sourced.held, fun effect mem => ?_⟩
  rcases List.mem_append.mp mem with mem | mem
  · exact sourced.told effect mem
  · obtain rfl := List.mem_singleton.mp mem
    exact ok

theorem Conserves.node {out : Outcome} (conserves : Conserves proposed out) :
    Sourced proposed out.node := by
  cases out with
  | error failed => exact conserves
  | ok n => exact conserves

theorem Conserves.check {site : AssertSite} {c : Prop} [Decidable c]
    (sourced : Sourced proposed n) : Conserves proposed (n.check site c) := by
  unfold Node.check
  split <;> exact sourced

/-! ## Configurations and the log -/

theorem addPeers_sourced (sourced : Sourced proposed n) (rc : RaftConfig) (addrs : List Addr) :
    Meets (n.addPeers rc addrs) (fun result => Sourced proposed result.1)
      fun failed => Sourced proposed failed.2 := by
  induction addrs generalizing n rc with
  | nil => exact sourced
  | cons addr rest ih =>
      refine Meets.bind ?_ fun n₁ sourced₁ => ih sourced₁ _
      refine Meets.bind (Conserves.check sourced) fun n₂ sourced₂ => ?_
      refine Meets.bind (Conserves.check sourced₂) fun n₃ sourced₃ => ?_
      exact sourced₃

theorem deletePeers_sourced (sourced : Sourced proposed n) (rc : RaftConfig) (addrs : List Addr) :
    Sourced proposed (n.deletePeers rc addrs).1 := by
  induction addrs generalizing n rc with
  | nil => exact sourced
  | cons addr rest ih => exact ih (n := n.deletePeer addr) sourced _

theorem doConfigChange_sourced (sourced : Sourced proposed n) (rc : RaftConfig) :
    Meets (n.doConfigChange rc) (fun result => Sourced proposed result.1)
      fun failed => Sourced proposed failed.2 := by
  unfold Node.doConfigChange
  dsimp only
  split
  · refine Meets.bind (Conserves.check sourced) fun n₁ sourced₁ => ?_
    split
    · exact Meets.bind (Conserves.check sourced₁) fun n₂ sourced₂ => addPeers_sourced sourced₂ _ _
    · refine Meets.bind (Conserves.check sourced₁) fun n₂ sourced₂ => ?_
      exact deletePeers_sourced sourced₂ _ _
  · refine Meets.bind (Conserves.check sourced) fun n₁ sourced₁ => ?_
    exact Meets.bind (Conserves.check sourced₁) fun n₂ sourced₂ => addPeers_sourced sourced₂ _ _

theorem configRollbacks_sourced (sourced : Sourced proposed n) (indices : List ℕ) :
    Conserves proposed (n.configRollbacks indices) := by
  induction indices generalizing n with
  | nil => exact sourced
  | cons index rest ih =>
      refine Meets.bind ?_ fun n₁ sourced₁ => ih sourced₁
      unfold Node.configRollback
      split
      · exact sourced
      · refine Meets.bind (doConfigChange_sourced sourced _) fun result sourced₁ => ?_
        dsimp only
        split <;> exact sourced₁

theorem appendOne_sourced (sourced : Sourced proposed n) {entry : AppendEntry}
    (ok : entry.Proposed proposed) : Conserves proposed (n.appendOne entry) := by
  have written : Sourced proposed (n.emit (.appendLog entry)) := sourced.emit ok
  have settled : Conserves proposed ((n.emit (.appendLog entry)).configWritten entry) := by
    unfold Node.configWritten
    split
    · split
      · exact Meets.bind (doConfigChange_sourced written _) fun result sourced₁ => sourced₁
      · exact written
    · exact written
  refine Meets.bind settled fun n₁ sourced₁ => ⟨fun other mem => ?_, sourced₁.told⟩
  rcases List.mem_append.mp mem with mem | mem
  · exact sourced₁.held other mem
  · obtain rfl := List.mem_singleton.mp mem
    exact ok

theorem Log.mem_of_deleteFrom {log : Log} {from_ : ℕ} {entry : AppendEntry}
    (mem : entry ∈ (log.deleteFrom from_).entries) : entry ∈ log.entries := by
  rw [Log.deleteFrom] at mem
  split at mem
  · exact mem
  · exact List.mem_of_mem_take mem

theorem deleteFrom_sourced (sourced : Sourced proposed n) (from_ : ℕ) :
    Conserves proposed (n.deleteFrom from_) := by
  unfold Node.deleteFrom
  split
  · exact sourced
  · refine Meets.bind (configRollbacks_sourced (sourced.emit (e := .truncateLog from_) trivial) _)
      fun n₁ sourced₁ => ⟨fun entry mem => ?_, sourced₁.told⟩
    exact sourced₁.held entry (Log.mem_of_deleteFrom mem)

theorem appendAll_sourced (sourced : Sourced proposed n) {entries : List LogEntry}
    (ok : ∀ entry ∈ entries, entry.appendEntry.Proposed proposed) :
    Conserves proposed (n.appendAll entries) := by
  induction entries generalizing n with
  | nil => exact sourced
  | cons entry rest ih =>
      refine Meets.bind (appendOne_sourced sourced (ok entry List.mem_cons_self))
        fun n₁ sourced₁ => ?_
      exact ih sourced₁ fun other mem => ok other (List.mem_cons_of_mem _ mem)

theorem acceptEntries_sourced (sourced : Sourced proposed n) {index : ℕ} {entries : List LogEntry}
    (ok : ∀ entry ∈ entries, entry.appendEntry.Proposed proposed) :
    Conserves proposed (n.acceptEntries index entries) := by
  induction entries generalizing n index with
  | nil => exact sourced
  | cons entry rest ih =>
      have later : ∀ other ∈ rest, other.appendEntry.Proposed proposed :=
        fun other mem => ok other (List.mem_cons_of_mem _ mem)
      rw [Node.acceptEntries]
      refine Meets.bind (Conserves.check sourced) fun n₁ sourced₁ => ?_
      split
      · exact ih sourced₁ later
      split
      · split
        · exact sourced₁
        split
        · exact ih sourced₁ later
        · refine Meets.bind (Conserves.check sourced₁) fun n₂ sourced₂ => ?_
          refine Meets.bind (deleteFrom_sourced sourced₂ _) fun n₃ sourced₃ => ?_
          exact appendAll_sourced sourced₃ ok
      · exact appendAll_sourced sourced₁ ok

/-! ## Application and sends -/

theorem applyFrom_sourced (sourced : Sourced proposed n) (index count : ℕ) :
    Conserves proposed (n.applyFrom index count) := by
  induction count generalizing n index with
  | zero => exact sourced
  | succ count ih =>
      refine Meets.bind ?_ fun n₁ sourced₁ => ih sourced₁ _
      unfold Node.applyOne
      split
      · exact sourced
      · rename_i entry found
        split
        · split
          · exact Sources.emit (n := { n with sm := _ }) sourced
              (sourced.held _ (Log.mem_of_get found))
          · exact sourced
        · split <;> exact sourced
        · exact sourced
        · exact sourced

theorem stateMachineApply_sourced (sourced : Sourced proposed n) :
    Conserves proposed n.stateMachineApply := by
  unfold Node.stateMachineApply
  split
  · exact Meets.bind (applyFrom_sourced sourced _ _) fun n₁ sourced₁ => sourced₁
  · exact sourced

theorem maybeCommit_sourced (sourced : Sourced proposed n) :
    Conserves proposed n.maybeCommit := by
  unfold Node.maybeCommit
  refine Meets.bind (Conserves.check sourced) fun n₁ sourced₁ => ?_
  dsimp only
  split
  · exact sourced₁
  refine Meets.bind (Conserves.check sourced₁) fun n₂ sourced₂ => ?_
  split
  · exact sourced₂
  split
  · exact sourced₂
  · exact Meets.bind (Conserves.check sourced₂) fun n₃ sourced₃ =>
      stateMachineApply_sourced sourced₃

theorem sendInstallSnapshot_sourced (sourced : Sourced proposed n) (dest : Addr) :
    Conserves proposed (n.sendInstallSnapshot dest) := by
  have opened : Sourced proposed (n.openReader dest) := by
    unfold Node.openReader
    dsimp only
    split <;> exact sourced
  unfold Node.sendInstallSnapshot
  dsimp only
  split
  · exact opened
  · exact Sources.emit (n := { n.openReader dest with snapshotMgr := _ }) opened trivial

theorem sendAppendEntries_sourced (sourced : Sourced proposed n) (dest : Addr) :
    Conserves proposed (n.sendAppendEntries dest) := by
  unfold Node.sendAppendEntries
  dsimp only
  refine Meets.bind (Conserves.check sourced) fun n₁ sourced₁ => ?_
  split
  · exact sendInstallSnapshot_sourced sourced₁ dest
  refine Meets.bind ?_ fun preTerm (_ : True) => ?_
  · unfold Node.preTermOf
    split
    · split
      · trivial
      · exact sourced₁
    split
    · trivial
    split <;> trivial
  split
  · exact sendInstallSnapshot_sourced sourced₁ dest
  refine Meets.bind ?_ fun entries
    (ok : ∀ entry ∈ entries, entry.appendEntry.Proposed proposed) => sourced₁.emit ok
  unfold Node.entriesAt
  split
  · split
    · rename_i entry found
      intro other mem
      obtain rfl := List.mem_singleton.mp mem
      exact sourced₁.held _ (Log.mem_of_get found)
    · exact sourced₁
  · exact fun other mem => absurd mem List.not_mem_nil

theorem sendNext_sourced (sourced : Sourced proposed n) (dest : Addr) :
    Conserves proposed (n.sendNext dest) := by
  unfold Node.sendNext
  dsimp only
  split
  · exact Meets.bind (sendAppendEntries_sourced (n := { n with indexMgr := n.indexMgr.touch dest }) sourced
      dest) fun n₁ sourced₁ => sourced₁
  · exact sourced

theorem replicate_sourced (sourced : Sourced proposed n) (dests : List Addr) :
    Conserves proposed (n.replicate dests) := by
  induction dests generalizing n with
  | nil => exact sourced
  | cons dest rest ih =>
      refine Meets.bind (sendAppendEntries_sourced sourced dest) fun n₁ sourced₁ => ?_
      exact ih (n := { n₁ with timerMgr := _ }) sourced₁

/-! ## Elections -/

theorem stepDown_sourced (sourced : Sourced proposed n) (newTerm : ℕ) :
    Conserves proposed (n.stepDown newTerm) := by
  refine Meets.bind (Conserves.check sourced) fun n₁ sourced₁ => ?_
  dsimp only
  split
  · exact Sources.emit (n := n₁.setTerm newTerm) (sourced₁.emit trivial) trivial
  · exact sourced₁

theorem maybeStepDown_sourced (sourced : Sourced proposed n) (newTerm : ℕ) :
    Conserves proposed (n.maybeStepDown newTerm) := by
  unfold Node.maybeStepDown
  split
  · exact stepDown_sourced sourced newTerm
  · exact sourced

theorem becomeLeader_sourced (sourced : Sourced proposed n) :
    Conserves proposed n.becomeLeader := by
  unfold Node.becomeLeader
  dsimp only
  refine Meets.bind (Conserves.check (n := { n with leaderTransfer := false }) sourced)
    fun n₁ sourced₁ => ?_
  have announced : Sourced proposed (n₁.emit (.becomeLeader n₁.solid.term)) := sourced₁.emit trivial
  unfold Node.appendNoop
  refine appendOne_sourced ?_ fun data => ?_
  · exact announced
  · contradiction

theorem countSelf_sourced (sourced : Sourced proposed n) : Sourced proposed n.countSelf := by
  unfold Node.countSelf
  split
  · exact sourced.emit trivial
  · exact sourced

theorem doRequestVote_sourced (sourced : Sourced proposed n) :
    Conserves proposed n.doRequestVote := by
  have stood : Sourced proposed
      (n.incrTerm.becomeCandidate.setVote n.incrTerm.becomeCandidate.me) :=
    Sources.emit (n := n.incrTerm.becomeCandidate) (sourced.emit trivial) trivial
  have counted := countSelf_sourced stood
  unfold Node.doRequestVote
  dsimp only
  split
  · exact becomeLeader_sourced counted
  · exact counted

theorem elect_sourced (sourced : Sourced proposed n) : Conserves proposed n.elect := by
  unfold Node.elect
  refine Meets.bind (Conserves.check sourced) fun n₁ sourced₁ => ?_
  split
  · exact sourced₁
  split
  · exact sourced₁
  · exact doRequestVote_sourced (n := { n₁ with preVoting := false }) sourced₁

theorem sendRequestVote_sourced (sourced : Sourced proposed n) (dest : Addr) :
    Sourced proposed (n.sendRequestVote dest) := by
  unfold Node.sendRequestVote
  dsimp only
  split
  · exact sourced.emit trivial
  · exact Sources.emit (n := { n with leaderTransfer := false, transferMaxTerm := 0 }) sourced
      trivial

theorem onRequestVote_sourced (sourced : Sourced proposed n) (msg : RequestVote) (now : ℤ) :
    Conserves proposed (n.onRequestVote msg now) := by
  unfold Node.onRequestVote
  split
  · exact sourced
  dsimp only
  split
  · refine Meets.bind (maybeStepDown_sourced sourced msg.term) fun n₁ sourced₁ => ?_
    refine Meets.bind (Conserves.check sourced₁) fun n₂ sourced₂ => ?_
    have voted : Conserves proposed (n₂.maybeVote msg (n.logOk msg)) := by
      unfold Node.maybeVote
      split
      · split
        · refine Meets.bind (stepDown_sourced sourced₂ _) fun n₃ sourced₃ => ?_
          dsimp only
          split
          · exact sourced₃
          · exact Sources.emit (n := { n₃ with timerMgr := _, solid := _ }) sourced₃ trivial
        · exact sourced₂
      · exact sourced₂
    exact Meets.bind voted fun n₃ sourced₃ => sourced₃.emit trivial
  · exact sourced.emit trivial

theorem onRequestVoteReply_sourced (sourced : Sourced proposed n) (msg : RequestVoteReply) :
    Conserves proposed (n.onRequestVoteReply msg) := by
  unfold Node.onRequestVoteReply
  split
  · exact sourced
  split
  · exact sourced
  split
  · exact sourced
  split
  · exact stepDown_sourced sourced msg.term
  refine Meets.bind (Conserves.check sourced) fun n₁ sourced₁ => ?_
  split
  · unfold Node.onPreVote
    dsimp only
    set noted : Node := if msg.intervalOk = true then _ else _ with noted_eq
    have sourced₂ : Sourced proposed noted := by
      rw [noted_eq]
      split <;> split <;> exact sourced₁
    split
    · exact doRequestVote_sourced (n := { noted with preVoting := false }) sourced₂
    · exact sourced₂
  · unfold Node.onRealVote
    dsimp only
    split
    · set counted : Node := Node.countSelf _ with counted_eq
      have sourced₂ : Sourced proposed counted := by
        rw [counted_eq]
        exact countSelf_sourced (n := { n₁ with voteMgr := _, timerMgr := _ }) sourced₁
      split
      · exact becomeLeader_sourced sourced₂
      · exact sourced₂
    · exact sourced₁

/-! ## The other messages -/

theorem hearLeader_sourced (sourced : Sourced proposed n) (src : Addr) (term : ℕ) (now : ℤ) :
    Conserves proposed (n.hearLeader src term now) := by
  refine Meets.bind (stepDown_sourced sourced term) fun n₁ sourced₁ => ?_
  dsimp only
  split
  · exact sourced₁
  · exact Conserves.check sourced₁

theorem onAppendEntries_sourced (sourced : Sourced proposed n) {msg : AppendEntries} (now : ℤ)
    (ok : ∀ entry ∈ msg.entries, entry.appendEntry.Proposed proposed) :
    Conserves proposed (n.onAppendEntries msg now) := by
  unfold Node.onAppendEntries
  split
  · exact sourced
  dsimp only
  split
  · exact sourced.emit trivial
  refine Meets.bind (hearLeader_sourced sourced msg.src msg.term now) fun n₁ sourced₁ => ?_
  refine Meets.bind ?_ fun mismatch (_ : True) => ?_
  · unfold Node.preLogMismatch
    split
    · trivial
    split
    · split
      · trivial
      · exact sourced₁
    · trivial
  split
  · exact sourced₁.emit trivial
  refine Meets.bind (acceptEntries_sourced sourced₁ ok) fun n₂ sourced₂ => ?_
  have learned : Conserves proposed (n₂.learnCommit msg.commitIndex) := by
    unfold Node.learnCommit
    split
    · exact Meets.bind (Conserves.check (n := { n₂ with commit := _ }) sourced₂)
        fun n₃ sourced₃ => stateMachineApply_sourced sourced₃
    · exact sourced₂
  exact Meets.bind learned fun n₃ sourced₃ =>
    Sources.emit (n := { n₃ with timerMgr := _, lastHeartbeatTimestamp := now }) sourced₃ trivial

theorem onAppendEntriesReply_sourced (sourced : Sourced proposed n) (msg : AppendEntriesReply) :
    Conserves proposed (n.onAppendEntriesReply msg) := by
  unfold Node.onAppendEntriesReply
  split
  · exact sourced
  split
  · exact sourced
  split
  · exact sourced
  refine Meets.bind (Conserves.check sourced) fun n₁ sourced₁ => ?_
  split
  · exact stepDown_sourced sourced₁ msg.term
  refine Meets.bind (Conserves.check sourced₁) fun n₂ sourced₂ => ?_
  have indexed : Conserves proposed (n₂.onIndexReply msg) := by
    unfold Node.onIndexReply
    split
    · refine Meets.bind ?_ fun n₃ (sourced₃ : Sourced proposed n₃) => sourced₃
      unfold Node.raiseMatch
      dsimp only
      split
      · exact sourced₂
      · exact maybeCommit_sourced (n := { n₂ with indexMgr := _ }) sourced₂
    · exact sourced₂
  refine Meets.bind indexed fun n₃ sourced₃ => ?_
  split
  · exact Meets.bind (sendAppendEntries_sourced sourced₃ _) fun n₄ sourced₄ => sourced₄
  · exact sourced₃

theorem onInstallSnapshot_sourced (sourced : Sourced proposed n) (msg : InstallSnapshot) (now : ℤ) :
    Conserves proposed (n.onInstallSnapshot msg now) := by
  unfold Node.onInstallSnapshot
  split
  · exact sourced
  split
  · exact sourced.emit trivial
  refine Meets.bind (hearLeader_sourced sourced msg.src msg.term now) fun n₁ sourced₁ => ?_
  dsimp only
  split
  · exact sourced₁
  split
  · exact Sources.emit (n := n₁.openWriter msg) sourced₁ trivial
  refine Meets.bind (Conserves.check (n := n₁.openWriter msg) sourced₁) fun n₂ sourced₂ => ?_
  refine Sources.emit ?_ trivial
  split
  · unfold Node.finishSnapshot
    dsimp only
    split
    · exact sourced₂
    · exact Sources.emit (n := { n₂ with snapshotMgr := _, timerMgr := _, sm := _ }) sourced₂ trivial
  · exact sourced₂

theorem onInstallSnapshotReply_sourced (sourced : Sourced proposed n)
    (msg : InstallSnapshotReply) : Conserves proposed (n.onInstallSnapshotReply msg) := by
  unfold Node.onInstallSnapshotReply
  split
  · exact sourced
  dsimp only
  split
  · exact sourced
  split
  · exact sourced
  split
  · exact sourced
  refine Meets.bind (Conserves.check (n := { n with snapshotMgr := _ }) sourced)
    fun n₁ sourced₁ => ?_
  split
  · exact stepDown_sourced sourced₁ msg.term
  refine Meets.bind (Conserves.check sourced₁) fun n₂ sourced₂ => ?_
  refine Meets.bind ?_ fun n₃ (sourced₃ : Sourced proposed n₃) => sendNext_sourced sourced₃ msg.src
  unfold Node.onSnapshotStored
  split
  · exact Meets.bind (maybeCommit_sourced (n := { n₂ with indexMgr := _ }) sourced₂)
      fun n₃ sourced₃ => sourced₃
  · exact sourced₂

theorem onTimeoutNow_sourced (sourced : Sourced proposed n) (msg : TimeoutNow) :
    Conserves proposed (n.onTimeoutNow msg) := by
  unfold Node.onTimeoutNow
  split
  · exact sourced
  refine Meets.bind (maybeStepDown_sourced (n := { n with
    leaderTransfer := true, transferMaxTerm := _ }) sourced msg.term) fun n₁ sourced₁ => ?_
  refine Meets.bind (Conserves.check sourced₁) fun n₂ sourced₂ => ?_
  split
  · exact sourced₂
  split <;> exact sourced₂

/-- A handler that is given what was proposed adds nothing of its own. -/
theorem handle_sourced (sourced : Sourced proposed n) {input : Input}
    (ok : input.Proposed proposed n) : Conserves proposed (n.handle input) := by
  cases input with
  | electionTimer => exact elect_sourced sourced
  | requestVoteTimer dest =>
      exact Meets.bind (Conserves.check sourced) fun n₁ sourced₁ =>
        sendRequestVote_sourced sourced₁ dest
  | heartbeatTimer dest =>
      exact Meets.bind (Conserves.check sourced) fun n₁ sourced₁ =>
        sendAppendEntries_sourced sourced₁ dest
  | propose value =>
      show Conserves proposed (n.propose value)
      unfold Node.propose
      split
      · exact sourced
      · rename_i leads
        have leader : n.state = .leader := not_not.mp fun other => leads (.inl other)
        refine Meets.bind (appendOne_sourced sourced fun _ => ok leader) fun n₁ sourced₁ => ?_
        exact Meets.bind (maybeCommit_sourced sourced₁) fun n₂ sourced₂ =>
          replicate_sourced sourced₂ _
  | leaderTransfer dest =>
      show Conserves proposed (n.leaderTransferTo dest)
      unfold Node.leaderTransferTo
      split
      · exact sourced
      · exact sourced.emit trivial
  | setFlags flags => exact sourced
  | recv msg now =>
      cases msg with
      | requestVote msg => exact onRequestVote_sourced sourced msg now
      | requestVoteReply msg => exact onRequestVoteReply_sourced sourced msg
      | appendEntries msg => exact onAppendEntries_sourced sourced now ok
      | appendEntriesReply msg => exact onAppendEntriesReply_sourced sourced msg
      | timeoutNow msg => exact onTimeoutNow_sourced sourced msg
      | installSnapshot msg => exact onInstallSnapshot_sourced sourced msg now
      | installSnapshotReply msg => exact onInstallSnapshotReply_sourced sourced msg

end Handlers

/-! ## Runs -/

namespace Cluster

/-- A step of a cluster that takes no other proposals than `proposed`. -/
inductive ProposedStep (m : Membership) (crash : List Effect → Prop)
    (proposed : ℕ → Bytes → Prop) (s : Cluster) : Cluster → Prop
  | handle (p : Addr) (mem : p ∈ m.members) (input : Input) (enabled : s.Enabled m p input)
      (comes : ∀ value, input = .propose value → (s.node p).state = .leader →
        proposed (s.node p).solid.term value)
      (n : Node) (done : (s.node p).handle input = .ok n) :
      ProposedStep m crash proposed s (s.update p n n.effects)
  | crash (p : Addr) (mem : p ∈ m.members) (input : Input) (enabled : s.Enabled m p input)
      (comes : ∀ value, input = .propose value → (s.node p).state = .leader →
        proposed (s.node p).solid.term value)
      (performed : List Effect)
      (reached : performed <+: ((s.node p).handle input).node.effects)
      (allowed : crash performed) (flags : Flags) :
      ProposedStep m crash proposed s (s.update p
        (Node.boot (m.config p) flags ((s.node p).disk.performAll performed)) performed)

/-- Several steps in a row. -/
abbrev ProposedRun (m : Membership) (crash : List Effect → Prop) (proposed : ℕ → Bytes → Prop) :
    Cluster → Cluster → Prop :=
  Relation.ReflTransGen (ProposedStep m crash proposed)

/-- States reached from the start by steps that take no other proposals. -/
def ProposedReachable (m : Membership) (crash : List Effect → Prop)
    (proposed : ℕ → Bytes → Prop) (s : Cluster) : Prop :=
  ∃ flags, ProposedRun m crash proposed (init m flags) s

end Cluster

section Runs

variable {m : Membership} {crash : List Effect → Prop} {proposed : ℕ → Bytes → Prop}
  {s s' : Cluster} {p q : Addr}

theorem step_of_proposedStep (step : Cluster.ProposedStep m crash proposed s s') :
    Cluster.Step m crash s s' := by
  cases step with
  | handle p mem input enabled _ n done => exact .handle p mem input enabled n done
  | crash p mem input enabled _ performed reached allowed flags =>
      exact .crash p mem input enabled performed reached allowed flags

theorem run_of_proposedRun (run : Cluster.ProposedRun m crash proposed s s') :
    Cluster.Run m crash s s' :=
  Relation.ReflTransGen.mono (fun _ _ => step_of_proposedStep) _ _ run

theorem reachable_of_proposedReachable (reachable : s.ProposedReachable m crash proposed) :
    s.Reachable m crash := by
  obtain ⟨flags, run⟩ := reachable
  exact ⟨flags, run_of_proposedRun run⟩

theorem Cluster.ProposedReachable.trans (reachable : s.ProposedReachable m crash proposed)
    (run : Cluster.ProposedRun m crash proposed s s') : s'.ProposedReachable m crash proposed := by
  obtain ⟨flags, before⟩ := reachable
  exact ⟨flags, before.trans run⟩

/-- Every node has finished its handler, and all it has and ever did goes back to
proposals. -/
structure Traced (proposed : ℕ → Bytes → Prop) (s : Cluster) (p : Addr) : Prop where
  idle : (s.node p).effects = []
  sources : Sources proposed (s.node p).log (s.hist p)

theorem Traced.sourced (traced : Traced proposed s p) : Sourced proposed (s.node p) := by
  refine ⟨traced.sources.held, ?_⟩
  rw [traced.idle]
  exact fun effect mem => absurd mem List.not_mem_nil

/-- What an enabled input brings comes from a proposal or from the network. -/
theorem proposed_of_enabled (traced : ∀ q, Traced proposed s q) {input : Input}
    (enabled : s.Enabled m p input)
    (comes : ∀ value, input = .propose value → (s.node p).state = .leader →
      proposed (s.node p).solid.term value) : input.Proposed proposed (s.node p) := by
  cases input with
  | propose value => exact comes value rfl
  | recv msg now =>
      obtain ⟨⟨q, -, sent⟩, -⟩ := enabled
      cases msg with
      | appendEntries msg => exact (traced q).sources.told _ sent
      | _ => trivial
  | _ => trivial

/-- Effects that go back to proposals leave such entries on disk. -/
theorem performAll_held {disk : Disk} {effects : List Effect}
    (held : ∀ entry ∈ disk.log.entries, entry.Proposed proposed)
    (told : ∀ effect ∈ effects, effect.Proposed proposed) :
    ∀ entry ∈ (disk.performAll effects).log.entries, entry.Proposed proposed := by
  induction effects generalizing disk with
  | nil => exact held
  | cons effect rest ih =>
      rw [List.forall_mem_cons] at told
      refine @ih (disk.perform effect) (fun entry mem => ?_) told.2
      cases effect with
      | appendLog appended =>
          rcases List.mem_append.mp mem with mem | mem
          · exact held entry mem
          · obtain rfl := List.mem_singleton.mp mem
            exact told.1
      | truncateLog from_ => exact held entry (Log.mem_of_deleteFrom mem)
      | _ => exact held entry mem

theorem boot_entries (rc : RaftConfig) (flags : Flags) (disk : Disk) :
    (Node.boot rc flags disk).log.entries = disk.log.entries := by
  simp only [Node.boot]
  split <;> rfl

theorem Traced.update (traced : ∀ q, Traced proposed s q) {n : Node} {effects : List Effect}
    (held : ∀ entry ∈ n.log.entries, entry.Proposed proposed)
    (told : ∀ effect ∈ effects, effect.Proposed proposed) (q : Addr) :
    Traced proposed (s.update p n effects) q := by
  by_cases same : q = p
  · subst same
    refine ⟨by simp [Cluster.update], ?_, ?_⟩
    · simpa only [Cluster.update, Function.update_self] using held
    · simp only [Cluster.update, Function.update_self]
      intro effect mem
      rcases List.mem_append.mp mem with mem | mem
      · exact (traced q).sources.told effect mem
      · exact told effect mem
  · have node : (s.update p n effects).node q = s.node q := Function.update_of_ne same ..
    have hist : (s.update p n effects).hist q = s.hist q := Function.update_of_ne same ..
    obtain ⟨idle, sources⟩ := traced q
    exact ⟨by rwa [node], by rwa [node, hist]⟩

theorem traced_step (traced : ∀ q, Traced proposed s q)
    (step : Cluster.ProposedStep m crash proposed s s') : ∀ q, Traced proposed s' q := by
  cases step with
  | handle p mem input enabled comes n done =>
      have conserves := handle_sourced (traced p).sourced (proposed_of_enabled traced enabled comes)
      rw [done] at conserves
      exact Traced.update traced conserves.held conserves.told
  | crash p mem input enabled comes performed reached allowed flags =>
      have sourced : Sourced proposed ((s.node p).handle input).node :=
        (handle_sourced (traced p).sourced (proposed_of_enabled traced enabled comes)).node
      have told : ∀ effect ∈ performed, effect.Proposed proposed :=
        fun effect mem => sourced.told effect (reached.subset mem)
      refine Traced.update traced ?_ told
      rw [boot_entries]
      exact performAll_held (traced p).sources.held told

theorem traced_of_reachable (reachable : s.ProposedReachable m crash proposed) :
    ∀ p, Traced proposed s p := by
  obtain ⟨flags, run⟩ := reachable
  induction run with
  | refl =>
      intro p
      refine ⟨rfl, fun entry mem => ?_, fun effect mem => absurd mem List.not_mem_nil⟩
      exact absurd mem List.not_mem_nil
  | tail _ step ih => exact traced_step ih step

/-- Nothing is invented: whatever a node keeps in its log, has sent or has applied as
data was proposed to a leader of the term that it carries. -/
theorem nothing_invented (reachable : s.ProposedReachable m crash proposed) (p : Addr) :
    (∀ entry ∈ (s.node p).log.entries, entry.type = .data → proposed entry.term entry.value) ∧
      (∀ msg, Effect.send (.appendEntries msg) ∈ s.hist p → ∀ entry ∈ msg.entries,
        entry.appendEntry.type = .data → proposed entry.appendEntry.term entry.appendEntry.value) ∧
      ∀ entry, Effect.apply entry ∈ s.hist p →
        entry.appendEntry.type = .data → proposed entry.appendEntry.term entry.appendEntry.value := by
  have sources := (traced_of_reachable reachable p).sources
  exact ⟨sources.held, fun msg sent => sources.told _ sent, fun entry applied => sources.told _ applied⟩

/-! ## Schedules -/

theorem proposedStep_of_move {next : Cluster.Move} (moved : s.move m next = some s')
    (comes : ∀ p value, next = .handle p (.propose value) → ∀ term, proposed term value) :
    Cluster.ProposedStep m crash proposed s s' := by
  rw [Cluster.move] at moved
  split at moved
  · contradiction
  · rename_i p input resolved
    split at moved
    · rename_i ready
      split at moved
      · rename_i n done
        obtain rfl := Option.some.inj moved
        refine .handle p ready.1 input ready.2 (fun value same _ => ?_) n done
        subst same
        cases next with
        | handle q given =>
            obtain ⟨-, rfl⟩ := Prod.mk.inj (Option.some.inj resolved)
            exact comes q value rfl _
        | deliver src =>
            obtain ⟨msg, -, same⟩ := Option.map_eq_some_iff.mp resolved
            cases same
      · contradiction
    · contradiction

theorem proposedRun_of_play {schedule : List Cluster.Move} (played : s.play m schedule = some s')
    (comes : ∀ p value, .handle p (.propose value) ∈ schedule → ∀ term, proposed term value) :
    Cluster.ProposedRun m crash proposed s s' := by
  induction schedule generalizing s with
  | nil =>
      obtain rfl := Option.some.inj played
      exact .refl
  | cons next rest ih =>
      obtain ⟨mid, moved, played⟩ := Option.bind_eq_some_iff.mp played
      refine .head (proposedStep_of_move moved fun p value same => ?_) (ih played fun p value mem => ?_)
      · exact comes p value (same ▸ List.mem_cons_self)
      · exact comes p value (List.mem_cons_of_mem _ mem)

/-- What can be observed at the end of a schedule with such proposals. -/
theorem proposedRun_of_observed {schedule : List Cluster.Move} {observed : Cluster → Bool}
    (played : (s.play m schedule).any observed = true)
    (comes : ∀ p value, .handle p (.propose value) ∈ schedule → ∀ term, proposed term value) :
    ∃ s', Cluster.ProposedRun m crash proposed s s' ∧ observed s' = true := by
  cases final : s.play m schedule with
  | none => simp [final] at played
  | some s' => exact ⟨s', proposedRun_of_play final comes, by simpa [final] using played⟩

/-- A follower of three has applied the one value that was proposed, and has no other. -/
theorem nothing_invented_three :
    ∃ s : Cluster, s.ProposedReachable (.upTo 3) Cluster.Whole (fun _ value => value = [7]) ∧
      Effect.apply ⟨2, 2, .data, [7]⟩ ∈ s.hist 2 ∧
      ∀ entry ∈ (s.node 2).log.entries, entry.type = .data → entry.value = [7] := by
  have observed : ((Cluster.start (.upTo 3)).play (.upTo 3) Cluster.replication).any
      (fun s => decide (Effect.apply ⟨2, 2, .data, [7]⟩ ∈ s.hist 2)) = true := by decide +kernel
  have comes : ∀ p value, .handle p (.propose value) ∈ Cluster.replication →
      ∀ _term : ℕ, value = [7] := by
    simp [Cluster.replication, Cluster.election, Cluster.exchange]
  obtain ⟨s, run, found⟩ := proposedRun_of_observed observed comes
  have reachable : s.ProposedReachable (.upTo 3) Cluster.Whole fun _ value => value = [7] :=
    ⟨_, run⟩
  exact ⟨s, reachable, of_decide_eq_true found, (nothing_invented reachable 2).1⟩

end Runs

end Vraft
