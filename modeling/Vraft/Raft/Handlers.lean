import Vraft.Raft.Core

/-!
# Message handlers and client requests

The handlers of `raft_request_vote.cc`, `raft_append_entries.cc`,
`raft_install_snapshot.cc` and `raft_timeout_now.cc`, and the client entry points
`Propose` and `LeaderTransfer`.  The current time is an argument wherever the source reads the
clock to decide something.
-/

namespace Vraft

/-- The test of a vote request on a log with the given last term and index. -/
def logOkOn (lastTerm lastIndex : ℕ) (msg : RequestVote) : Bool :=
  lastTerm < msg.lastLogTerm ||
    (msg.lastLogTerm = lastTerm && lastIndex ≤ msg.lastLogIndex)

namespace Node

/-! ## Votes -/

/-- The candidate's log is at least as up to date as the own log. -/
def logOk (n : Node) (msg : RequestVote) : Bool :=
  logOkOn n.lastTerm n.lastIndex msg

/-- `election_ms() * 1000 * 1000`. -/
def electionNs : ℤ := 2000000000

/-- No leader has been heard of for an election timeout, or the check does not
apply to the request. -/
def intervalOk (n : Node) (msg : RequestVote) (now : ℤ) : Bool :=
  !n.intervalCheck || msg.leaderTransfer ||
    decide (electionNs ≤ now - n.lastHeartbeatTimestamp)

/-- Give the vote if it is still free and the candidate's log is good enough. -/
def maybeVote (n : Node) (msg : RequestVote) (ok : Bool) : Outcome :=
  if msg.term = n.solid.term then
    if ok ∧ n.solid.vote = 0 then do
      let n ← n.stepDown n.solid.term
      let n := { n with timerMgr := n.timerMgr.stopRequestVote.againElection }
      .ok (if msg.preVote then n else n.setVote msg.src)
    else .ok n
  else .ok n

/-- `Raft::OnRequestVote`. -/
def onRequestVote (n : Node) (msg : RequestVote) (now : ℤ) : Outcome :=
  if !n.started then .ok n
  else
    let ok := n.logOk msg
    if n.intervalOk msg now then do
      let n ← n.maybeStepDown msg.term
      let n ← n.check .requestVoteTerm (msg.term ≤ n.solid.term)
      let n ← n.maybeVote msg ok
      .ok (n.send (.requestVoteReply {
        src := msg.dest
        dest := msg.src
        term := n.solid.term
        granted := decide (msg.term = n.solid.term ∧ n.solid.vote = msg.src)
        logOk := ok
        preVote := msg.preVote
        intervalOk := true
        reqTerm := msg.term }))
    else
      .ok (n.send (.requestVoteReply {
        src := msg.dest
        dest := msg.src
        term := n.solid.term
        granted := false
        logOk := ok
        preVote := msg.preVote
        intervalOk := false
        reqTerm := msg.term }))

/-- A reply to a real vote request in the current term. -/
def onRealVote (n : Node) (msg : RequestVoteReply) : Outcome :=
  let n := { n with
    voteMgr := n.voteMgr.done msg.src
    timerMgr := n.timerMgr.stopRequestVoteOf msg.src }
  if msg.granted then
    let n := countSelf { n with voteMgr := n.voteMgr.getVote msg.src }
    if n.voteMgr.majority n.ifSelfVote ∧ n.state = .candidate then n.becomeLeader
    else .ok n
  else .ok n

/-- A reply to a pre-vote request in the current term. -/
def onPreVote (n : Node) (msg : RequestVoteReply) : Outcome :=
  let n := { n with timerMgr := n.timerMgr.stopRequestVoteOf msg.src }
  let n := if msg.logOk then { n with voteMgr := n.voteMgr.logOK msg.src } else n
  let n := if msg.intervalOk then { n with voteMgr := n.voteMgr.intervalOK msg.src } else n
  if msg.logOk ∧ n.voteMgr.majorityPreVoteOK true ∧ n.state = .candidate ∧ n.preVoting then
    doRequestVote { n with preVoting := false }
  else .ok n

/-- `Raft::OnRequestVoteReply`. -/
def onRequestVoteReply (n : Node) (msg : RequestVoteReply) : Outcome :=
  if !n.started then .ok n
  else if msg.term < n.solid.term then .ok n
  else if msg.reqTerm ≠ n.solid.term then .ok n
  else if n.solid.term < msg.term then n.stepDown msg.term
  else do
    let n ← n.check .requestVoteReplyTerm (msg.term = n.solid.term)
    if msg.preVote then n.onPreVote msg else n.onRealVote msg

/-! ## Log replication -/

/-- Append the given entries one after the other. -/
def appendAll (n : Node) : List LogEntry → Outcome
  | [] => .ok n
  | entry :: rest => do
      let n ← n.appendOne entry.appendEntry
      n.appendAll rest

/-- Walk over the entries that follow `index`: skip those the log already has,
drop a conflicting suffix and append the rest. -/
def acceptEntries (n : Node) (index : ℕ) : List LogEntry → Outcome
  | [] => .ok n
  | entry :: rest => do
      let n ← n.check .entryIndex (entry.index = index + 1)
      if index + 1 < n.log.first then n.acceptEntries (index + 1) rest
      else if index + 1 ≤ n.log.last then
        match n.log.getMeta (index + 1) with
        | none => .error (.truncateMeta, n)
        | some found =>
            if found.term = entry.appendEntry.term then n.acceptEntries (index + 1) rest
            else do
              let n ← n.check .truncateCommitted (n.commit < index + 1)
              let n ← n.deleteFrom (index + 1)
              n.appendAll (entry :: rest)
      else n.appendAll (entry :: rest)

/-- Take over the leader's commit index. -/
def learnCommit (n : Node) (commitIndex : ℕ) : Outcome :=
  if n.commit < commitIndex then do
    let n := { n with commit := commitIndex }
    let n ← n.check .commitAboveLast (n.commit ≤ n.lastIndex)
    n.stateMachineApply
  else .ok n

/-- The log has no entry at the preceding index, or one of another term. -/
def preLogMismatch (n : Node) (msg : AppendEntries) : Except (AssertSite × Node) Bool :=
  if n.lastIndex < msg.preLogIndex then .ok true
  else if n.log.indexValid msg.preLogIndex then
    match n.getTerm msg.preLogIndex with
    | some term => .ok (term ≠ msg.preLogTerm)
    | none => .error (.getTermStateMachine, n)
  else .ok false

/-- The reply to `msg`, apart from the fields that depend on what was done. -/
def appendReply (msg : AppendEntries) (term : ℕ) (success : Bool) (lastLogIndex : ℕ) :
    AppendEntriesReply where
  src := msg.dest
  dest := msg.src
  term := term
  success := success
  lastLogIndex := lastLogIndex
  reqPreIndex := msg.preLogIndex
  reqNumEntries := msg.entries.length
  reqTerm := msg.term

/-- `src` leads `term`: note the heartbeat and the leader. -/
def hearLeader (n : Node) (src : Addr) (term : ℕ) (now : ℤ) : Outcome := do
  let n ← n.stepDown term
  let n := { n with
    timerMgr := n.timerMgr.stopRequestVote.againElection
    lastHeartbeatTimestamp := now }
  if n.leader = 0 then .ok { n with leader := src }
  else n.check .leaderCache (n.leader = src)

/-- The sender leads the current term. -/
def followLeader (n : Node) (msg : AppendEntries) (now : ℤ) : Outcome :=
  n.hearLeader msg.src msg.term now

/-- `Raft::OnAppendEntries`. -/
def onAppendEntries (n : Node) (msg : AppendEntries) (now : ℤ) : Outcome :=
  if !n.started then .ok n
  else
    let last := n.lastIndex
    if msg.term < n.solid.term then
      .ok (n.send (.appendEntriesReply (appendReply msg n.solid.term false last)))
    else do
      let n ← n.followLeader msg now
      if ← n.preLogMismatch msg then
        .ok (n.send (.appendEntriesReply (appendReply msg msg.term false last)))
      else
        let n ← n.acceptEntries msg.preLogIndex msg.entries
        let last := n.lastIndex
        let n ← n.learnCommit msg.commitIndex
        let n := { n with
          timerMgr := n.timerMgr.stopRequestVote.againElection
          lastHeartbeatTimestamp := now }
        .ok (n.send (.appendEntriesReply (appendReply msg msg.term true last)))

/-- Raise the match index of a follower and see what can be committed, unless
the reply is older than what is known. -/
def raiseMatch (n : Node) (src : Addr) (acked : ℕ) : Outcome :=
  let n := { n with indexMgr := n.indexMgr.touch src }
  if acked < n.indexMgr.getMatch src then .ok n
  else maybeCommit { n with indexMgr := n.indexMgr.setMatch src acked }

/-- A follower has accepted. -/
def onMatch (n : Node) (msg : AppendEntriesReply) : Outcome := do
  let n ← n.raiseMatch msg.src (msg.reqPreIndex + msg.reqNumEntries)
  .ok { n with indexMgr := n.indexMgr.setNext msg.src (n.indexMgr.getMatch msg.src + 1) }

/-- A follower has rejected: step its next index back, at once to the end of
its log if that is shorter. -/
def onMismatch (n : Node) (msg : AppendEntriesReply) : Node :=
  let indices : IndexManager := n.indexMgr.touch msg.src
  let indices : IndexManager :=
    if 1 < indices.getNext msg.src then
      indices.setNext msg.src (indices.getNext msg.src - 1)
    else indices
  let indices : IndexManager :=
    if msg.lastLogIndex + 1 < indices.getNext msg.src then
      indices.setNext msg.src (msg.lastLogIndex + 1)
    else indices
  { n with indexMgr := indices }

/-- Update the indices of the follower that replied. -/
def onIndexReply (n : Node) (msg : AppendEntriesReply) : Outcome :=
  if msg.success then n.onMatch msg else .ok (n.onMismatch msg)

/-- `Raft::OnAppendEntriesReply`. -/
def onAppendEntriesReply (n : Node) (msg : AppendEntriesReply) : Outcome :=
  if !n.started then .ok n
  else if msg.term < n.solid.term then .ok n
  else if msg.reqTerm ≠ n.solid.term then .ok n
  else do
    let n ← n.check .replyState (n.state = .leader)
    if n.solid.term < msg.term then n.stepDown msg.term
    else
      let n ← n.check .replyTerm (msg.term = n.solid.term ∧ msg.reqTerm = n.solid.term)
      let n ← n.onIndexReply msg
      if n.indexMgr.getNext msg.src ≤ n.lastIndex then
        let n ← n.sendAppendEntries msg.src
        .ok { n with timerMgr := n.timerMgr.againHeartBeatOf msg.src }
      else .ok n

/-! ## Snapshots -/

/-- The reply to a piece of a snapshot.  Nothing is ever assigned to its
`req_term`. -/
def snapshotReply (n : Node) (msg : InstallSnapshot) (now : ℤ) (term : ℕ) (stored : ℤ) : Node :=
  n.send (.installSnapshotReply {
    src := msg.dest
    dest := msg.src
    term := term
    stored := stored
    reqTerm := n.hooks.uninitialised now })

/-- Keep the writer of the snapshot that the piece belongs to, or replace it. -/
def openWriter (n : Node) (msg : InstallSnapshot) : Node :=
  let snapshots : SnapshotManager := n.snapshotMgr.touch msg.src
  let kept := (snapshots.val msg.src).writer.filter fun writer =>
    writer.lastIndex = msg.lastIndex && writer.lastTerm = msg.lastTerm
  let fresh :=
    if n.hooks.createWriter then some (SnapshotWriter.create msg.lastIndex msg.lastTerm) else none
  { n with snapshotMgr := snapshots.setWriter msg.src (kept.or fresh) }

/-- The last piece has been written: put the snapshot in the place of the state
machine, unless the latter is newer. -/
def finishSnapshot (n : Node) (msg : InstallSnapshot) (writer : SnapshotWriter) : Node :=
  let n := { n with snapshotMgr := n.snapshotMgr.setWriter msg.src none }
  if n.sm.isSome ∧ msg.lastIndex < n.smLast then n
  else
    { n with sm := n.sm.map fun _ => ⟨writer.lastIndex, writer.lastTerm⟩ }.emit
      (.swapStateMachine writer.lastIndex writer.lastTerm writer.bytes)

/-- `Raft::OnInstallSnapshot`. -/
def onInstallSnapshot (n : Node) (msg : InstallSnapshot) (now : ℤ) : Outcome :=
  if !n.started then .ok n
  else if msg.term < n.solid.term then .ok (n.snapshotReply msg now n.solid.term 0)
  else do
    let n ← n.hearLeader msg.src msg.term now
    let n := n.openWriter msg
    match (n.snapshotMgr.val msg.src).writer with
    | none => .error (.snapshotWriter, n)
    | some writer =>
        if msg.offset < writer.stored then .ok (n.snapshotReply msg now msg.term writer.stored)
        else
          let n ← n.check .snapshotOffset (writer.stored < msg.offset)
          let writer := writer.write msg.data
          let n := { n with
            snapshotMgr := n.snapshotMgr.setWriter msg.src (some writer)
            timerMgr := n.timerMgr.stopRequestVote.againElection }
          let n := if msg.done then n.finishSnapshot msg writer else n
          .ok (n.snapshotReply msg now msg.term writer.stored)

/-- Once the whole snapshot has arrived the follower is where it ends, and the
reader is closed. -/
def onSnapshotStored (n : Node) (msg : InstallSnapshotReply) (reader : SnapshotReader) :
    Outcome :=
  if msg.stored = reader.offset - 1 ∧ reader.done then do
    let indices : IndexManager := n.indexMgr.setMatch msg.src reader.lastIndex
    let n ← maybeCommit { n with
      indexMgr := indices.setNext msg.src (indices.getMatch msg.src + 1) }
    .ok { n with snapshotMgr := n.snapshotMgr.setReader msg.src none }
  else .ok n

/-- Send to a follower that is behind, and push its next heartbeat back. -/
def sendNext (n : Node) (dest : Addr) : Outcome :=
  let n := { n with indexMgr := n.indexMgr.touch dest }
  if n.indexMgr.getNext dest ≤ n.lastIndex then do
    let n ← n.sendAppendEntries dest
    .ok { n with timerMgr := n.timerMgr.againHeartBeatOf dest }
  else .ok n

/-- `Raft::OnInstallSnapshotReply`. -/
def onInstallSnapshotReply (n : Node) (msg : InstallSnapshotReply) : Outcome :=
  if !n.started then .ok n
  else
    let n := { n with snapshotMgr := n.snapshotMgr.touch msg.src }
    match (n.snapshotMgr.val msg.src).reader with
    | none => .error (.snapshotReader, n)
    | some reader =>
        if msg.term < n.solid.term then .ok n
        else if msg.reqTerm ≠ n.solid.term then .ok n
        else do
          let n ← n.check .replyState (n.state = .leader)
          if n.solid.term < msg.term then n.stepDown msg.term
          else
            let n ← n.check .replyTerm (msg.term = n.solid.term ∧ msg.reqTerm = n.solid.term)
            let n ← n.onSnapshotStored msg reader
            n.sendNext msg.src

/-! ## Leadership transfer and proposals -/

/-- `MAX_TRANSFER_TERM`. -/
def maxTransferTerm : ℕ := 3

/-- `Raft::OnTimeoutNow`. -/
def onTimeoutNow (n : Node) (msg : TimeoutNow) : Outcome :=
  if !n.started then .ok n
  else do
    let n := { n with
      leaderTransfer := true
      transferMaxTerm := n.solid.term + maxTransferTerm }
    let myLogEnough : Bool :=
      msg.lastLogTerm ≤ n.lastTerm ||
        (msg.lastLogTerm = n.lastTerm && msg.lastLogIndex ≤ n.lastIndex)
    let n ← n.maybeStepDown msg.term
    let n ← n.check .timeoutNowTerm (msg.term ≤ n.solid.term)
    if !msg.force && !myLogEnough then .ok n
    else if n.state = .follower then
      .ok { n with timerMgr := n.timerMgr.startElection }
    else .ok n

/-- Send to the given peers in turn and push their next heartbeat back. -/
def replicate (n : Node) : List Addr → Outcome
  | [] => .ok n
  | peer :: rest => do
      let n ← n.sendAppendEntries peer
      replicate { n with timerMgr := n.timerMgr.againHeartBeatOf peer } rest

/-- `Raft::DoPropose`: append, commit what a majority has, and replicate. -/
def doPropose (n : Node) (value : Bytes) (type : EntryType) : Outcome := do
  let n ← n.appendOne ⟨n.solid.term, type, value⟩
  let n ← n.maybeCommit
  n.replicate n.peers

/-- `Raft::Propose`: only a leader that is started does so. -/
def propose (n : Node) (value : Bytes) : Outcome :=
  if n.state ≠ .leader ∨ !n.started then .ok n else n.doPropose value .data

/-- `Raft::LeaderTransfer`: ask a peer to stand at once. -/
def leaderTransferTo (n : Node) (dest : Addr) : Outcome :=
  if n.state ≠ .leader ∨ !n.started then .ok n
  else
    .ok (n.send (.timeoutNow {
      src := n.me
      dest := dest
      term := n.solid.term
      lastLogIndex := n.lastIndex
      lastLogTerm := n.lastTerm
      force := false }))

end Node

end Vraft
