import Vraft.Raft.Node

/-!
# Elections, commitment and application

The operations of `raft_core.cc` and the sends they rely on: stepping down,
standing for election, becoming leader, advancing the commit index and applying
committed entries to the state machine.
-/

namespace Vraft

namespace Node

/-! ## Changing role -/

/-- Become a follower, in a later term without a vote or in the same term. -/
def stepDown (n : Node) (newTerm : ℕ) : Outcome := do
  let n ← n.check .stepDownTerm (n.solid.term ≤ newTerm)
  let n :=
    if n.solid.term < newTerm then
      { (n.setTerm newTerm).setVote 0 with leader := 0, state := .follower }
    else { n with state := .follower }
  .ok { n with
    timerMgr := n.timerMgr.stopHeartBeat.stopRequestVote.againElection
    lastHeartbeatTimestamp :=
      if n.lastHeartbeatTimestamp = int64Max then 0 else n.lastHeartbeatTimestamp }

/-- Step down if a later term has been seen. -/
def maybeStepDown (n : Node) (newTerm : ℕ) : Outcome :=
  if n.solid.term < newTerm then n.stepDown newTerm else .ok n

/-- `Raft::BecomeCandidate`. -/
def becomeCandidate (n : Node) : Node :=
  { n with state := .candidate, leader := 0, voteMgr := n.voteMgr.clear }

/-- The value of a no-op entry, the character `0`. -/
def noopValue : Bytes := [48]

/-- `Raft::AppendNoop`. -/
def appendNoop (n : Node) : Outcome :=
  n.appendOne ⟨n.solid.term, .noop, noopValue⟩

/-- `Raft::BecomeLeader`. -/
def becomeLeader (n : Node) : Outcome := do
  let n := { n with leaderTransfer := false }
  let n ← n.check .becomeLeaderState (n.state = .candidate)
  let n := { n with
    state := .leader
    leader := n.me
    lastHeartbeatTimestamp := int64Max
    timerMgr := n.timerMgr.stopElection.stopRequestVote.startHeartBeat
    indexMgr := (n.indexMgr.resetNext (n.lastIndex + 1)).resetMatch 0 }
  (n.emit (.becomeLeader n.solid.term)).appendNoop

/-- Count the own vote: a node that voted for itself adds it to the tally. -/
def countSelf (n : Node) : Node :=
  if n.ifSelfVote then n.emit (.countSelf n.solid.term n.me) else n

/-- Start a candidacy in the next term. -/
def doRequestVote (n : Node) : Outcome :=
  let n := n.incrTerm.becomeCandidate
  let n := (n.setVote n.me).countSelf
  if n.voteMgr.quorumAll n.ifSelfVote then n.becomeLeader
  else .ok { n with timerMgr := n.timerMgr.startRequestVote.againElection }

/-- Start a round of pre-votes in the current term. -/
def doPreVote (n : Node) : Node :=
  let n := n.becomeCandidate
  { n with timerMgr := n.timerMgr.startRequestVote.againElection }

/-- The election timer fires. -/
def elect (n : Node) : Outcome := do
  let n ← n.check .electState (n.state = .follower ∨ n.state = .candidate)
  if n.standby then .ok { n with timerMgr := n.timerMgr.againElection }
  else if n.enablePreVote ∧ 0 < n.peers.length then
    .ok (doPreVote { n with preVoting := true })
  else doRequestVote { n with preVoting := false }

/-! ## Application and commitment -/

/-- Apply the committed entry at one index. -/
def applyOne (n : Node) (index : ℕ) : Outcome :=
  match n.log.get index with
  | none => .error (.applyGet, n)
  | some entry =>
      match entry.appendEntry.type with
      | .data =>
          match n.sm with
          | some sm => .ok ({ n with sm := some (sm.apply entry) }.emit (.apply entry))
          | none => .ok n
      | .config =>
          .ok (if n.changingIndex = entry.index then
            { n with changingIndex := 0, standby := false } else n)
      | .noop => .ok n
      | .unknown => .error (.applyType, n)

/-- Apply `count` entries from `index` on. -/
def applyFrom (n : Node) (index : ℕ) : ℕ → Outcome
  | 0 => .ok n
  | count + 1 => do
      let n ← n.applyOne index
      n.applyFrom (index + 1) count

/-- `Raft::StateMachineApply`: everything that is committed and not applied yet. -/
def stateMachineApply (n : Node) : Outcome :=
  if n.lastApply < n.commit then do
    let n ← n.applyFrom (n.lastApply + 1) (n.commit - n.lastApply)
    .ok { n with lastApply := n.commit }
  else .ok n

/-- Commit what a majority holds, if it ends with an entry of the current term. -/
def maybeCommit (n : Node) : Outcome := do
  let n ← n.check .maybeCommitState (n.state = .leader)
  let newCommit := n.indexMgr.majorityMax n.lastIndex
  if newCommit ≤ n.commit then .ok n
  else
    let n ← n.check .maybeCommitFirst (n.log.first ≤ newCommit)
    match n.log.getMeta newCommit with
    | none => .error (.maybeCommitMeta, n)
    | some newCommitMeta =>
        if newCommitMeta.term ≠ n.solid.term then .ok n
        else
          let n := { n with commit := newCommit }
          let n ← n.check .commitAboveLast (n.commit ≤ n.log.last)
          n.stateMachineApply

/-! ## Sends -/

/-- A message leaves the node. -/
def send (n : Node) (msg : Message) : Node :=
  n.emit (.send msg)

/-- Send a vote request.  A pending leadership transfer is dropped once the term
has moved past its limit. -/
def sendRequestVote (n : Node) (dest : Addr) : Node :=
  let transfer : Bool := n.leaderTransfer && decide (n.solid.term ≤ n.transferMaxTerm)
  let n := if transfer then n else { n with leaderTransfer := false, transferMaxTerm := 0 }
  n.send (.requestVote {
    src := n.me
    dest := dest
    term := n.solid.term
    lastLogIndex := n.lastIndex
    lastLogTerm := n.lastTerm
    leaderTransfer := transfer
    preVote := n.preVoting })

/-- The request-vote timer of a peer fires. -/
def requestVoteRpc (n : Node) (dest : Addr) : Outcome := do
  let n ← n.check .requestVoteRpcState (n.state = .candidate)
  .ok (n.sendRequestVote dest)

/-- The index before `next`; a 32-bit `0` wraps around. -/
def preIndexOf (next : ℕ) : ℕ :=
  if next = 0 then 4294967295 else next - 1

/-- The term that goes with `preIndex`, or `none` when only a snapshot can
bring the peer up to date. -/
def preTermOf (n : Node) (preIndex : ℕ) : Except (AssertSite × Node) (Option ℕ) :=
  if n.log.first ≤ preIndex then
    match n.getTerm preIndex with
    | some term => .ok (some term)
    | none => .error (.getTermStateMachine, n)
  else if preIndex = 0 then .ok (some 0)
  else if n.sm.isSome ∧ preIndex = n.smLast then .ok (n.sm.map StateMachine.lastTerm)
  else .ok none

/-- The entry at `nextIndex` when the log has one. -/
def entriesAt (n : Node) (nextIndex : ℕ) : Except (AssertSite × Node) (List LogEntry) :=
  if n.log.indexValid nextIndex then
    match n.log.get nextIndex with
    | some entry => .ok [entry]
    | none => .error (.sendGet, n)
  else .ok []

/-- What is stored under the path of the state machine. -/
def storedSm (n : Node) : StateMachine :=
  n.sm.getD ⟨0, 0⟩

/-- Open a reader for a peer unless there is one. -/
def openReader (n : Node) (dest : Addr) : Node :=
  let snapshots : SnapshotManager := n.snapshotMgr.touch dest
  match (snapshots.val dest).reader, n.hooks.createReader with
  | none, some createReader =>
      let sm := n.storedSm
      let reader := SnapshotReader.create sm.lastIndex sm.lastTerm (createReader sm)
      { n with snapshotMgr := snapshots.setReader dest (some reader) }
  | _, _ => { n with snapshotMgr := snapshots }

/-- Send the next piece of the snapshot. -/
def sendInstallSnapshot (n : Node) (dest : Addr) : Outcome :=
  let n := n.openReader dest
  match (n.snapshotMgr.val dest).reader with
  | none => .error (.snapshotReader, n)
  | some reader =>
      let (rv, next) := reader.read
      let n := { n with snapshotMgr := n.snapshotMgr.setReader dest (some next) }
      .ok (n.send (.installSnapshot {
        src := n.me
        dest := dest
        term := n.solid.term
        lastIndex := reader.lastIndex
        lastTerm := reader.lastTerm
        offset := reader.offset
        data := next.data
        done := rv = 0 }))

/-- Send the entry after what the peer is known to hold, or a heartbeat. -/
def sendAppendEntries (n : Node) (dest : Addr) : Outcome := do
  let n := { n with indexMgr := n.indexMgr.touch dest }
  let nextIndex := n.indexMgr.getNext dest
  let preIndex := preIndexOf nextIndex
  let n ← n.check .sendPreIndex (preIndex ≤ n.lastIndex)
  if nextIndex < n.log.first then n.sendInstallSnapshot dest
  else
    match ← n.preTermOf preIndex with
    | none => n.sendInstallSnapshot dest
    | some preTerm =>
        let entries ← n.entriesAt nextIndex
        .ok (n.send (.appendEntries {
          src := n.me
          dest := dest
          term := n.solid.term
          preLogIndex := preIndex
          preLogTerm := preTerm
          commitIndex := min n.commit (preIndex + entries.length)
          entries := entries }))

/-- The heartbeat timer of a peer fires. -/
def heartBeat (n : Node) (dest : Addr) : Outcome := do
  let n ← n.check .heartBeatState (n.state = .leader)
  n.sendAppendEntries dest

end Node

end Vraft
