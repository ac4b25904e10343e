import Vraft.Lib.Table
import Vraft.Raft.Types
import Mathlib.Data.List.Sort

/-!
# Vote, index, snapshot, timer and configuration managers

The bookkeeping a node keeps beside its log.  The vote, index and snapshot
managers and the per-peer timers are tables keyed by peer address; every
subscript of the first three inserts a missing key.
-/

namespace Vraft

/-! ## Votes -/

/-- What is known of the answer of one peer. -/
structure VoteItem where
  grant : Bool := false
  done : Bool := false
  logok : Bool := false
  intervalOk : Bool := false
  deriving DecidableEq, Repr, Inhabited

/-- Votes collected from the peers. -/
abbrev VoteManager := Table Addr VoteItem

namespace VoteManager

/-- `VoteManager::Reset`. -/
def reset (peers : List Addr) : VoteManager :=
  Table.ofKeys peers {}

/-- At least `(n + 1) / 2` of `n` members, counting oneself when `myVote`, have
the property. -/
def reaches (votes : VoteManager) (myVote : Bool) (p : VoteItem → Bool) : Bool :=
  (votes.keys.length + 1 + 1) / 2 ≤ (if myVote then 1 else 0) + votes.count p

/-- `VoteManager::Majority`. -/
def majority (votes : VoteManager) (myVote : Bool) : Bool :=
  reaches votes myVote fun item => item.grant

/-- `VoteManager::MajorityPreVoteOK`. -/
def majorityPreVoteOK (votes : VoteManager) (myVote : Bool) : Bool :=
  reaches votes myVote fun item => item.logok && item.intervalOk

/-- `VoteManager::QuorumAll`. -/
def quorumAll (votes : VoteManager) (myVote : Bool) : Bool :=
  myVote && votes.keys.all fun k => (votes.val k).grant

/-- `VoteManager::Clear`. -/
def clear (votes : VoteManager) : VoteManager :=
  votes.mapValues fun _ => {}

/-- `VoteManager::GetVote`. -/
def getVote (votes : VoteManager) (id : Addr) : VoteManager :=
  votes.set id { votes.val id with grant := true }

/-- `VoteManager::Done`. -/
def done (votes : VoteManager) (id : Addr) : VoteManager :=
  votes.set id { votes.val id with done := true }

/-- `VoteManager::LogOK`. -/
def logOK (votes : VoteManager) (id : Addr) : VoteManager :=
  votes.set id { votes.val id with logok := true }

/-- `VoteManager::IntervalOK`. -/
def intervalOK (votes : VoteManager) (id : Addr) : VoteManager :=
  votes.set id { votes.val id with intervalOk := true }

end VoteManager

/-! ## Replication indices -/

/-- A subscript that misses value-initialises the item to zeros. -/
structure IndexItem where
  next : ℕ := 0
  match_ : ℕ := 0
  deriving DecidableEq, Repr, Inhabited

/-- Next and match index of every peer. -/
abbrev IndexManager := Table Addr IndexItem

namespace IndexManager

/-- `IndexManager::Reset`. -/
def reset (peers : List Addr) : IndexManager :=
  Table.ofKeys peers { next := 1, match_ := 0 }

/-- `IndexManager::ResetNext`. -/
def resetNext (indices : IndexManager) (index : ℕ) : IndexManager :=
  indices.mapValues fun item => { item with next := index }

/-- `IndexManager::ResetMatch`. -/
def resetMatch (indices : IndexManager) (index : ℕ) : IndexManager :=
  indices.mapValues fun item => { item with match_ := index }

/-- `IndexManager::GetNext`. -/
def getNext (indices : IndexManager) (addr : Addr) : ℕ :=
  (indices.val addr).next

/-- `IndexManager::GetMatch`. -/
def getMatch (indices : IndexManager) (addr : Addr) : ℕ :=
  (indices.val addr).match_

/-- `IndexManager::SetNext`. -/
def setNext (indices : IndexManager) (addr : Addr) (index : ℕ) : IndexManager :=
  indices.set addr { indices.val addr with next := index }

/-- `IndexManager::SetMatch`. -/
def setMatch (indices : IndexManager) (addr : Addr) (index : ℕ) : IndexManager :=
  indices.set addr { indices.val addr with match_ := index }

/-- The match indices of all members, the leader's own first. -/
def matches_ (indices : IndexManager) (leaderMatchIndex : ℕ) : List ℕ :=
  leaderMatchIndex :: indices.keys.map fun k => (indices.val k).match_

/-- The element at position `(n - 1) / 2` of the sorted match indices. -/
def majorityMax (indices : IndexManager) (leaderMatchIndex : ℕ) : ℕ :=
  let sorted := (indices.matches_ leaderMatchIndex).insertionSort (· ≤ ·)
  sorted.getD ((sorted.length - 1) / 2) 0

end IndexManager

/-! ## Snapshots

Readers and writers of snapshots are supplied by the application.  A reader
hands out the bytes of a snapshot piece by piece and counts them; once they are
exhausted it says so.  A writer collects bytes and knows the position of the
last one. -/

/-- What the reader of a snapshot will hand out. -/
structure Image where
  pieces : List Bytes
  nonempty : ∀ piece ∈ pieces, piece ≠ []

namespace Image

/-- The bytes of a snapshot. -/
def bytes (image : Image) : Bytes := image.pieces.flatten

end Image

/-- A snapshot that a leader reads, and the piece that is being sent. -/
structure SnapshotReader where
  lastIndex : ℕ
  lastTerm : ℕ
  data : Bytes
  offset : ℕ
  done : Bool
  /-- What is still to be read. -/
  rest : Image

namespace SnapshotReader

/-- A reader at the beginning of a snapshot. -/
def create (lastIndex lastTerm : ℕ) (image : Image) : SnapshotReader :=
  ⟨lastIndex, lastTerm, [], 0, false, image⟩

/-- `0` at the end, and the offset reached otherwise. -/
def read (reader : SnapshotReader) : ℕ × SnapshotReader :=
  match reader with
  | ⟨lastIndex, lastTerm, _, offset, _, ⟨[], _⟩⟩ =>
      (0, ⟨lastIndex, lastTerm, [], offset, true, ⟨[], by simp⟩⟩)
  | ⟨lastIndex, lastTerm, _, offset, done, ⟨piece :: pieces, nonempty⟩⟩ =>
      (offset + piece.length, ⟨lastIndex, lastTerm, piece, offset + piece.length, done,
        ⟨pieces, fun p mem => nonempty p (List.mem_cons_of_mem _ mem)⟩⟩)

end SnapshotReader

/-- A snapshot that a follower receives, and its bytes so far. -/
structure SnapshotWriter where
  lastIndex : ℕ
  lastTerm : ℕ
  bytes : Bytes
  deriving DecidableEq, Repr

namespace SnapshotWriter

/-- Nothing has been written yet. -/
def create (lastIndex lastTerm : ℕ) : SnapshotWriter := ⟨lastIndex, lastTerm, []⟩

/-- The position of the last byte written, `-1` before the first. -/
def stored (writer : SnapshotWriter) : ℤ := (writer.bytes.length : ℤ) - 1

/-- Another piece. -/
def write (writer : SnapshotWriter) (data : Bytes) : SnapshotWriter :=
  { writer with bytes := writer.bytes ++ data }

end SnapshotWriter

/-- The snapshot that is being sent to a peer and the one received from it. -/
structure Snapshot where
  reader : Option SnapshotReader := none
  writer : Option SnapshotWriter := none
  deriving Inhabited

/-- A reader and a writer for every peer. -/
abbrev SnapshotManager := Table Addr Snapshot

namespace SnapshotManager

/-- `SnapshotManager::Reset`. -/
def reset (peers : List Addr) : SnapshotManager :=
  Table.ofKeys peers {}

/-- Replace the reader of a peer. -/
def setReader (snapshots : SnapshotManager) (addr : Addr) (reader : Option SnapshotReader) :
    SnapshotManager :=
  snapshots.set addr { snapshots.val addr with reader := reader }

/-- Replace the writer of a peer. -/
def setWriter (snapshots : SnapshotManager) (addr : Addr) (writer : Option SnapshotWriter) :
    SnapshotManager :=
  snapshots.set addr { snapshots.val addr with writer := writer }

end SnapshotManager

/-! ## Timers -/

/-- Which timers are armed, and whether the election timer is due at once. -/
structure TimerManager where
  election : Bool
  due : Bool
  requestVotes : Table Addr Bool
  heartbeats : Table Addr Bool

namespace TimerManager

/-- All timers stand. -/
def reset (peers : List Addr) : TimerManager where
  election := false
  due := false
  requestVotes := Table.ofKeys peers false
  heartbeats := Table.ofKeys peers false

/-- Arm the election timer to fire at once. -/
def startElection (timers : TimerManager) : TimerManager :=
  { timers with election := true, due := true }

/-- Arm the election timer to fire after its timeout. -/
def againElection (timers : TimerManager) : TimerManager :=
  { timers with election := true, due := false }

/-- `TimerManager::StopElection`. -/
def stopElection (timers : TimerManager) : TimerManager :=
  { timers with election := false, due := false }

/-- `TimerManager::StartRequestVote`. -/
def startRequestVote (timers : TimerManager) : TimerManager :=
  { timers with requestVotes := timers.requestVotes.mapValues fun _ => true }

/-- `TimerManager::StopRequestVote`. -/
def stopRequestVote (timers : TimerManager) : TimerManager :=
  { timers with requestVotes := timers.requestVotes.mapValues fun _ => false }

/-- `TimerManager::StopRequestVote` of one peer. -/
def stopRequestVoteOf (timers : TimerManager) (addr : Addr) : TimerManager :=
  { timers with requestVotes := timers.requestVotes.modify addr fun _ => false }

/-- `TimerManager::StartHeartBeat`. -/
def startHeartBeat (timers : TimerManager) : TimerManager :=
  { timers with heartbeats := timers.heartbeats.mapValues fun _ => true }

/-- `TimerManager::AgainHeartBeat` of one peer. -/
def againHeartBeatOf (timers : TimerManager) (addr : Addr) : TimerManager :=
  { timers with heartbeats := timers.heartbeats.modify addr fun _ => true }

/-- `TimerManager::StopHeartBeat`. -/
def stopHeartBeat (timers : TimerManager) : TimerManager :=
  { timers with heartbeats := timers.heartbeats.mapValues fun _ => false }

end TimerManager

/-! ## Configurations -/

/-- The configuration in use, and the one before it. -/
structure ConfigManager where
  current : RaftConfig
  previous : Option RaftConfig
  deriving DecidableEq, Repr

namespace ConfigManager

/-- `ConfigManager::SetCurrent`. -/
def setCurrent (mgr : ConfigManager) (rc : RaftConfig) : ConfigManager where
  current := rc
  previous := some mgr.current

end ConfigManager

end Vraft
