import Vraft.Util.Coding

/-!
# Data types of a raft node

Addresses, terms and log entries, cluster configurations, the messages nodes
exchange and the effects a handler has on its disk and on the network.  An
address is the number `RaftAddr::ToU64` yields, and `0` is the null address that
stands for no leader and no vote.  The header fields of a message that no handler
reads (`uid`, `send_ts`, `elapse`) and the checksums that travel with an entry are
left out.

Terms and indices are natural numbers.  They stand for the 64-bit terms and the
32-bit indices of the code as long as terms are below `2 ^ 64` and indices below
`2 ^ 30`: the keys of the stored log are twice an index and one less, compared as
signed 32-bit numbers.  The values of entries are byte strings; they stand for the
code's as long as they have fewer than `2 ^ 28` bytes, from where on the buffer in
which `CheckThis` encodes an entry is too small.
-/

namespace Vraft

/-- `RaftAddr` as a 64-bit number; zero is no address. -/
abbrev Addr := ℕ

/-- The role of a node. -/
inductive State
  | follower
  | candidate
  | leader
  | standby
  | error
  deriving DecidableEq, Repr

/-- The types of entries. -/
inductive EntryType
  | unknown
  | data
  | noop
  | config
  deriving DecidableEq, Repr

/-- What is appended to a log; the log itself assigns the index. -/
structure AppendEntry where
  term : ℕ
  type : EntryType
  value : Bytes
  deriving DecidableEq, Repr

/-- An entry together with its index. -/
structure LogEntry where
  index : ℕ
  appendEntry : AppendEntry
  deriving DecidableEq, Repr

/-! ## Cluster configurations -/

/-- A configuration as seen by one of its members. -/
structure RaftConfig where
  me : Addr
  peers : List Addr
  deriving DecidableEq, Repr

namespace RaftConfig

/-- The members, the owner of the configuration first. -/
def toVector (rc : RaftConfig) : List Addr :=
  rc.me :: rc.peers

/-- `RaftConfig::InConfig`. -/
def inConfig (rc : RaftConfig) (addr : Addr) : Bool :=
  rc.me == addr || rc.peers.contains addr

/-- Every member of `rc` is a member of `rhs`. -/
def iamIn (rc rhs : RaftConfig) : Bool :=
  rc.toVector.all fun addr => rhs.toVector.contains addr

/-- Members of `rhs` that are not members of `rc`, in the order of `rhs`. -/
def missingFrom (rc rhs : RaftConfig) : List Addr :=
  rhs.toVector.filter fun addr => !rc.toVector.contains addr

/-- The relation of two configurations and the members that make the
difference: `0` equal as written, `-1` inside the second, `1` around the
second, `-2` otherwise. -/
def configCompare (c1 c2 : RaftConfig) : ℤ × List Addr :=
  if c1 = c2 then (0, [])
  else if c1.iamIn c2 then (-1, c1.missingFrom c2)
  else if c2.iamIn c1 then (1, c2.missingFrom c1)
  else (-2, [])

/-- Read `count` addresses; `none` when the bytes run out. -/
def readPeers : ℕ → Bytes → Option (List Addr)
  | 0, _ => some []
  | count + 1, bytes =>
      if bytes.length < 8 then none
      else (readPeers count (bytes.drop 8)).map (decodeFixed64 bytes :: ·)

/-- Decode a configuration.  The peer count is a signed 32-bit field, and a
negative count reads no peers. -/
def fromString (bytes : Bytes) : Option RaftConfig :=
  if bytes.length < 12 then none
  else
    let count := decodeFixed32 (bytes.drop 8)
    (readPeers (if count < 2 ^ 31 then count else 0) (bytes.drop 12)).map
      fun peers => ⟨decodeFixed64 bytes, peers⟩

end RaftConfig

/-! ## Messages -/

/-- A candidate asks for a vote, or whether it would get one. -/
structure RequestVote where
  src : Addr
  dest : Addr
  term : ℕ
  lastLogIndex : ℕ
  lastLogTerm : ℕ
  leaderTransfer : Bool
  preVote : Bool
  deriving DecidableEq, Repr

/-- The answer to a vote request, with the tests it is made of. -/
structure RequestVoteReply where
  src : Addr
  dest : Addr
  term : ℕ
  granted : Bool
  logOk : Bool
  preVote : Bool
  intervalOk : Bool
  reqTerm : ℕ
  deriving DecidableEq, Repr

/-- Entries of a leader behind a position of its log. -/
structure AppendEntries where
  src : Addr
  dest : Addr
  term : ℕ
  preLogIndex : ℕ
  preLogTerm : ℕ
  commitIndex : ℕ
  entries : List LogEntry
  deriving DecidableEq, Repr

/-- The answer of a follower, with what the request asked for. -/
structure AppendEntriesReply where
  src : Addr
  dest : Addr
  term : ℕ
  success : Bool
  lastLogIndex : ℕ
  reqPreIndex : ℕ
  reqNumEntries : ℕ
  reqTerm : ℕ
  deriving DecidableEq, Repr

/-- A leader asks a follower to stand at once. -/
structure TimeoutNow where
  src : Addr
  dest : Addr
  term : ℕ
  lastLogIndex : ℕ
  lastLogTerm : ℕ
  force : Bool
  deriving DecidableEq, Repr

/-- A piece of a snapshot.  Positions in its stream are signed 32-bit fields. -/
structure InstallSnapshot where
  src : Addr
  dest : Addr
  term : ℕ
  lastIndex : ℕ
  lastTerm : ℕ
  offset : ℤ
  data : Bytes
  done : Bool
  deriving DecidableEq, Repr

/-- How much of a snapshot has been stored. -/
structure InstallSnapshotReply where
  src : Addr
  dest : Addr
  term : ℕ
  stored : ℤ
  reqTerm : ℕ
  deriving DecidableEq, Repr

/-- A message on the network. -/
inductive Message
  | requestVote (msg : RequestVote)
  | requestVoteReply (msg : RequestVoteReply)
  | appendEntries (msg : AppendEntries)
  | appendEntriesReply (msg : AppendEntriesReply)
  | timeoutNow (msg : TimeoutNow)
  | installSnapshot (msg : InstallSnapshot)
  | installSnapshotReply (msg : InstallSnapshotReply)
  deriving DecidableEq, Repr

namespace Message

/-- The sender. -/
def src : Message → Addr
  | requestVote msg => msg.src
  | requestVoteReply msg => msg.src
  | appendEntries msg => msg.src
  | appendEntriesReply msg => msg.src
  | timeoutNow msg => msg.src
  | installSnapshot msg => msg.src
  | installSnapshotReply msg => msg.src

/-- The receiver. -/
def dest : Message → Addr
  | requestVote msg => msg.dest
  | requestVoteReply msg => msg.dest
  | appendEntries msg => msg.dest
  | appendEntriesReply msg => msg.dest
  | timeoutNow msg => msg.dest
  | installSnapshot msg => msg.dest
  | installSnapshotReply msg => msg.dest

end Message

/-! ## Effects -/

/-- What a handler does to the outside world, in program order.  The first four
are writes to disk, `apply` is a durable write of the state machine,
`swapStateMachine` puts the one made from a finished snapshot in its place, and
`send` hands a message to the network.  The last two change nothing outside:
they mark that a node became leader and that it counted its own vote. -/
inductive Effect
  | persistTerm (term : ℕ)
  | persistVote (vote : Addr)
  | appendLog (entry : AppendEntry)
  | truncateLog (from_ : ℕ)
  | apply (entry : LogEntry)
  | swapStateMachine (lastIndex lastTerm : ℕ) (bytes : Bytes)
  | send (msg : Message)
  | becomeLeader (term : ℕ)
  | countSelf (term : ℕ) (addr : Addr)
  deriving DecidableEq, Repr

end Vraft
