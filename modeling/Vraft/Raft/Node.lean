import Vraft.Raft.Log
import Vraft.Raft.Managers

/-!
# A raft node

The state of class `Raft` and its small operations.  A node carries the effects
of the handler that is running: every write and every message is appended to
`effects` at the point where the source performs it, so that a crash at any
point is a prefix of that list.  Code with asserts returns an `Outcome`; a failed
assert names its place and keeps the node as it was at that moment.
-/

namespace Vraft

/-- `INT64_MAX`, the heartbeat timestamp of a leader. -/
def int64Max : ℤ := 9223372036854775807

/-- Term and vote as held in memory; both are written through to disk. -/
structure SolidData where
  term : ℕ
  vote : Addr
  deriving DecidableEq, Repr

/-- What raft sees of a state machine: the index and term of the last entry
applied, persisted together with its effect. -/
structure StateMachine where
  lastIndex : ℕ
  lastTerm : ℕ
  deriving DecidableEq, Repr

namespace StateMachine

/-- A state machine knows the last entry that has been applied to it. -/
def apply (_ : StateMachine) (entry : LogEntry) : StateMachine :=
  ⟨entry.index, entry.appendEntry.term⟩

end StateMachine

/-- The snapshot facilities that a server hands to its node, and the value that
a field left without one happens to have when a message is sent. -/
structure SnapshotHooks where
  createReader : Option (StateMachine → Image) := none
  createWriter : Bool := false
  uninitialised : ℤ → ℕ := fun _ => 0

/-- `Raft`: the fields of one server, and the effects of the handler that is running. -/
structure Node where
  started : Bool
  state : State
  commit : ℕ
  lastApply : ℕ
  log : Log
  solid : SolidData
  leader : Addr
  configMgr : ConfigManager
  voteMgr : VoteManager
  indexMgr : IndexManager
  sm : Option StateMachine
  snapshotMgr : SnapshotManager
  timerMgr : TimerManager
  hooks : SnapshotHooks
  enablePreVote : Bool
  preVoting : Bool
  leaderTransfer : Bool
  transferMaxTerm : ℕ
  intervalCheck : Bool
  lastHeartbeatTimestamp : ℤ
  changingIndex : ℕ
  standby : Bool
  effects : List Effect

/-- The asserts of the modelled code, by place. -/
inductive AssertSite
  | stepDownTerm
  | electState
  | requestVoteRpcState
  | heartBeatState
  | becomeLeaderState
  | maybeCommitState
  | maybeCommitFirst
  | maybeCommitMeta
  | commitAboveLast
  | applyGet
  | applyType
  | requestVoteTerm
  | requestVoteReplyTerm
  | leaderCache
  | getTermStateMachine
  | entryIndex
  | truncateMeta
  | truncateCommitted
  | replyState
  | replyTerm
  | sendPreIndex
  | sendGet
  | timeoutNowTerm
  | configDecode
  | configDirection
  | configCompare
  | configTimer
  | configPrevious
  | snapshotReader
  | snapshotWriter
  | snapshotOffset
  deriving DecidableEq, Repr

/-- The node after some code ran, or the assert that stopped it. -/
abbrev Outcome := Except (AssertSite × Node) Node

namespace Node

/-- `Raft::Me`. -/
def me (n : Node) : Addr := n.configMgr.current.me

/-- `Raft::Peers`. -/
def peers (n : Node) : List Addr := n.configMgr.current.peers

/-- `assert(c)`. -/
def check (n : Node) (site : AssertSite) (c : Prop) [Decidable c] : Outcome :=
  if c then .ok n else .error (site, n)

/-- Perform an effect. -/
def emit (n : Node) (effect : Effect) : Node :=
  { n with effects := n.effects ++ [effect] }

/-! ## Persistent term and vote -/

/-- `SolidData::SetTerm`: the term is written at once. -/
def setTerm (n : Node) (term : ℕ) : Node :=
  { n with solid := { n.solid with term := term } }.emit (.persistTerm term)

/-- `SolidData::IncrTerm`. -/
def incrTerm (n : Node) : Node :=
  n.setTerm (n.solid.term + 1)

/-- `SolidData::SetVote`: the vote is written at once. -/
def setVote (n : Node) (vote : Addr) : Node :=
  { n with solid := { n.solid with vote := vote } }.emit (.persistVote vote)

/-- `Raft::IfSelfVote`. -/
def ifSelfVote (n : Node) : Bool :=
  n.solid.vote = n.me

/-! ## Log positions -/

/-- The last index of the state machine, `0` without one. -/
def smLast (n : Node) : ℕ :=
  n.sm.elim 0 StateMachine.lastIndex

/-- `Raft::LastIndex`: that of the log or of the state machine, whichever is larger. -/
def lastIndex (n : Node) : ℕ :=
  max n.smLast n.log.last

/-- `Raft::LastTerm`: the term of the entry at the last index. -/
def lastTerm (n : Node) : ℕ :=
  if n.smLast ≤ n.log.last then
    if n.log.last = 0 then 0
    else (n.log.getMeta n.log.last).elim 0 EntryMeta.term
  else n.sm.elim 0 StateMachine.lastTerm

/-- The term at an index; `none` when the lookup has to fall back on a state
machine that does not exist. -/
def getTerm (n : Node) (index : ℕ) : Option ℕ :=
  if index = 0 then some 0
  else
    match n.log.getMeta index with
    | some entry => some entry.term
    | none => n.sm.map StateMachine.lastTerm

/-! ## Configuration changes -/

/-- Track a new peer in every manager.  The timer maps must not know it yet. -/
def addPeer (n : Node) (addr : Addr) : Outcome := do
  let item : IndexItem :=
    if n.state = .leader then { next := n.lastIndex + 1, match_ := 0 }
    else { next := 1, match_ := 0 }
  let n := { n with
    indexMgr := n.indexMgr.set addr item
    voteMgr := n.voteMgr.set addr {}
    snapshotMgr := n.snapshotMgr.set addr {} }
  let n ← n.check .configTimer (addr ∉ n.timerMgr.requestVotes.keys)
  let n := { n with timerMgr := { n.timerMgr with
    requestVotes := n.timerMgr.requestVotes.set addr false } }
  let n ← n.check .configTimer (addr ∉ n.timerMgr.heartbeats.keys)
  .ok { n with timerMgr := { n.timerMgr with
    heartbeats := n.timerMgr.heartbeats.set addr (n.state = .leader) } }

/-- Forget a peer in every manager. -/
def deletePeer (n : Node) (addr : Addr) : Node :=
  { n with
    indexMgr := n.indexMgr.erase addr
    voteMgr := n.voteMgr.erase addr
    snapshotMgr := n.snapshotMgr.erase addr
    timerMgr := { n.timerMgr with
      requestVotes := n.timerMgr.requestVotes.erase addr
      heartbeats := n.timerMgr.heartbeats.erase addr } }

/-- Add peers one by one, collecting them behind the peers of `rc`. -/
def addPeers (n : Node) (rc : RaftConfig) : List Addr → Except (AssertSite × Node) (Node × RaftConfig)
  | [] => .ok (n, rc)
  | addr :: rest => do
      let n ← n.addPeer addr
      addPeers n { rc with peers := rc.peers ++ [addr] } rest

/-- Remove peers one by one from the managers and from `rc`. -/
def deletePeers (n : Node) (rc : RaftConfig) : List Addr → Node × RaftConfig
  | [] => (n, rc)
  | addr :: rest =>
      deletePeers (n.deletePeer addr)
        { rc with peers := rc.peers.filter fun peer => peer ≠ addr } rest

/-- Move the managers to the members of `rc` and compute the new configuration
from the node's own point of view. -/
def doConfigChange (n : Node) (rc : RaftConfig) :
    Except (AssertSite × Node) (Node × RaftConfig) := do
  let current := n.configMgr.current
  let add := current.iamIn rc
  let rm := rc.iamIn current
  let (order, diff) := RaftConfig.configCompare current rc
  if !n.standby then
    let n ← n.check .configDirection ((add && !rm) || (rm && !add))
    if add && !rm then
      let n ← n.check .configCompare (order = -1)
      n.addPeers current diff
    else
      let n ← n.check .configCompare (order = 1)
      .ok (n.deletePeers current diff)
  else
    let n ← n.check .configDirection (add && !rm)
    let n ← n.check .configCompare (order = -1)
    n.addPeers current diff

/-- `Raft::ConfigChange`. -/
def configChange (n : Node) (rc : RaftConfig) (index : ℕ) : Outcome := do
  let (n, config) ← n.doConfigChange rc
  .ok { n with configMgr := n.configMgr.setCurrent config, changingIndex := index }

/-- `Raft::ConfigRollback`: there must be a previous configuration. -/
def configRollback (n : Node) (index : ℕ) : Outcome := do
  match n.configMgr.previous with
  | none => .error (.configPrevious, n)
  | some previous =>
      let (n, _) ← n.doConfigChange previous
      let n := { n with configMgr := ⟨previous, none⟩ }
      .ok (if n.changingIndex = index then { n with changingIndex := 0 } else n)

/-- One rollback for each config entry that is truncated. -/
def configRollbacks (n : Node) : List ℕ → Outcome
  | [] => .ok n
  | index :: rest => do
      let n ← n.configRollback index
      n.configRollbacks rest

/-! ## Log writes -/

/-- The callback of a config entry that has been written at the next index. -/
def configWritten (n : Node) (entry : AppendEntry) : Outcome :=
  if entry.type = .config then
    match RaftConfig.fromString entry.value with
    | some rc => n.configChange rc n.log.append
    | none => .error (.configDecode, n)
  else .ok n

/-- `RaftLog::AppendOne`.  The callback of a config entry runs after the write
but before the log's cached indices move. -/
def appendOne (n : Node) (entry : AppendEntry) : Outcome := do
  let n ← (n.emit (.appendLog entry)).configWritten entry
  .ok { n with log := n.log.appendOne entry }

/-- `RaftLog::DeleteFrom` with the callback of every config entry dropped. -/
def deleteFrom (n : Node) (from_ : ℕ) : Outcome :=
  if n.log.NothingFrom from_ then .ok n
  else do
    let dropped := n.log.configsFrom from_
    let n ← (n.emit (.truncateLog from_)).configRollbacks dropped
    .ok { n with log := n.log.deleteFrom from_ }

end Node

end Vraft
