import Vraft.Availability.Answers
import Vraft.Availability.Applied
import Vraft.Availability.Asserts
import Vraft.Availability.Campaign
import Vraft.Availability.Commitment
import Vraft.Availability.Election
import Vraft.Availability.Exchange
import Vraft.Availability.Group
import Vraft.Availability.Heartbeats
import Vraft.Availability.Proposal
import Vraft.Availability.Timers
import Vraft.Consensus.Election
import Vraft.Consensus.Invariant
import Vraft.Consensus.Replication
import Vraft.Consensus.Safety
import Vraft.Consensus.State
import Vraft.Lib.Base128
import Vraft.Lib.Cutting
import Vraft.Lib.Failing
import Vraft.Lib.Indexed
import Vraft.Lib.Majority
import Vraft.Lib.OrderedStore
import Vraft.Lib.Reading
import Vraft.Lib.Region
import Vraft.Lib.Selection
import Vraft.Lib.Table
import Vraft.Members.Change
import Vraft.Members.Compare
import Vraft.Members.Following
import Vraft.Members.Guard
import Vraft.Members.Identity
import Vraft.Members.Joining
import Vraft.Members.Record
import Vraft.Members.Tracking
import Vraft.Net.Address
import Vraft.Net.Chopped
import Vraft.Net.Contained
import Vraft.Net.FixedLayout
import Vraft.Net.Messages
import Vraft.Net.Packet
import Vraft.Net.RoundTrip
import Vraft.Net.Server
import Vraft.Raft.Actions
import Vraft.Raft.Alignment
import Vraft.Raft.Cluster
import Vraft.Raft.Compaction
import Vraft.Raft.Core
import Vraft.Raft.Follow
import Vraft.Raft.Handlers
import Vraft.Raft.Log
import Vraft.Raft.Managers
import Vraft.Raft.Node
import Vraft.Raft.Overwrite
import Vraft.Raft.Quorum
import Vraft.Raft.Reconfigure
import Vraft.Raft.Server
import Vraft.Raft.Snapshots
import Vraft.Raft.Types
import Vraft.RaftLog.Configs
import Vraft.RaftLog.History
import Vraft.RaftLog.Image
import Vraft.RaftLog.KeyOrder
import Vraft.RaftLog.Operations
import Vraft.RaftLog.Record
import Vraft.RaftLog.Refinement
import Vraft.RaftLog.View
import Vraft.Refine.Commit
import Vraft.Refine.Election
import Vraft.Refine.LogWrites
import Vraft.Refine.Progress
import Vraft.Refine.Relation
import Vraft.Refine.Replication
import Vraft.Refine.Simulation
import Vraft.Replies.Late
import Vraft.Replies.Reign
import Vraft.Replies.Sent
import Vraft.Replies.Streams
import Vraft.Roles.Timers
import Vraft.Roles.Transfer
import Vraft.Safety.Application
import Vraft.Safety.Durability
import Vraft.Safety.Election
import Vraft.Safety.Logs
import Vraft.Safety.Provenance
import Vraft.Safety.StateMachine
import Vraft.Seda.Buffer
import Vraft.Seda.TcpConnection
import Vraft.Seda.WorkThread
import Vraft.Stored.Shelf
import Vraft.Stored.Twin
import Vraft.Stored.Writes
import Vraft.Util.Coding
import Vraft.Util.Decoding
import Vraft.Util.Slices
import Vraft.VectorDb.ByKey
import Vraft.VectorDb.Commands
import Vraft.VectorDb.Contents
import Vraft.VectorDb.Creation
import Vraft.VectorDb.Engine
import Vraft.VectorDb.Identifiers
import Vraft.VectorDb.KeyIds
import Vraft.VectorDb.Lookup
import Vraft.VectorDb.Metadata
import Vraft.VectorDb.Naming
import Vraft.VectorDb.Nearest
import Vraft.VectorDb.Objects
import Vraft.VectorDb.OnMessage
import Vraft.VectorDb.Partitions
import Vraft.VectorDb.Persistence
import Vraft.VectorDb.Records
import Vraft.VectorDb.Reopening
import Vraft.VectorDb.Replicas
import Vraft.VectorDb.Results
import Vraft.VectorDb.Room
import Vraft.VectorDb.Routing
import Vraft.VectorDb.Search
import Vraft.VectorDb.Serving
import Vraft.VectorDb.Session
import Vraft.VectorDb.Vectors
import Vraft.Votes.Leading
import Vraft.Votes.Life
import Vraft.Votes.PreVote
import Vraft.Votes.Trace
import Vraft.Votes.Turns
import Vraft.Vstore.Replicated
import Vraft.Vstore.VstoreSm
