import Vraft.Raft.Handlers
import Mathlib.Logic.Relation

/-!
# Restarts, inputs and clusters

A node survives on disk as its term and vote, its log and its state machine.
`boot` is the constructor followed by `Init` and `Start`.  An input is anything
that makes a node run a handler: a timer, a client request or a delivered
message.

A cluster is a fixed set of members.  Its state holds every node and everything
each of them has ever done; a message may be delivered whenever somebody has
sent it, so loss, duplication, delay and reordering need no steps of their own.
A node may crash after any prefix of a handler's effects, and what it had
written by then is what it boots from.
-/

namespace Vraft

/-! ## Disks and booting -/

/-- What survives a crash. -/
structure Disk where
  term : ℕ
  vote : Addr
  log : Log
  sm : Option StateMachine
  deriving DecidableEq, Repr

namespace Disk

/-- The first start of a node, with or without a state machine. -/
def fresh (sm : Bool) : Disk where
  term := 1
  vote := 0
  log := Log.empty
  sm := if sm then some ⟨0, 0⟩ else none

/-- Carry out one effect. -/
def perform (disk : Disk) : Effect → Disk
  | .persistTerm term => { disk with term := term }
  | .persistVote vote => { disk with vote := vote }
  | .appendLog entry => { disk with log := disk.log.appendOne entry }
  | .truncateLog from_ => { disk with log := disk.log.deleteFrom from_ }
  | .apply entry => { disk with sm := disk.sm.map fun sm => sm.apply entry }
  | .swapStateMachine lastIndex lastTerm _ =>
      { disk with sm := disk.sm.map fun _ => ⟨lastIndex, lastTerm⟩ }
  | .send _ => disk
  | .becomeLeader _ => disk
  | .countSelf _ _ => disk

/-- The last index of the state machine, `0` without one. -/
def smLast (disk : Disk) : ℕ :=
  disk.sm.elim 0 StateMachine.lastIndex

/-- The disk after several effects. -/
def performAll (disk : Disk) (effects : List Effect) : Disk :=
  effects.foldl perform disk

end Disk

/-- Settings a server applies to its node. -/
structure Flags where
  enablePreVote : Bool
  intervalCheck : Bool
  standby : Bool
  hooks : SnapshotHooks := {}

namespace Node

/-- Construct, initialise and start a node from its disk.  A configuration on
record takes the place of the one passed in; without one, the latter is
recorded first. -/
def boot (rc : RaftConfig) (flags : Flags) (disk : Disk) : Node :=
  let log := match disk.log.lastConfig with
    | some _ => disk.log
    | none => disk.log.appendFirstConfig rc
  let configMgr := match disk.log.lastConfig with
    | some recorded => ConfigManager.setCurrent ⟨rc, none⟩ recorded
    | none => ⟨rc, none⟩
  let peers := configMgr.current.peers
  { started := true
    state := .follower
    commit := 0
    lastApply := disk.smLast
    log := log
    solid := ⟨disk.term, disk.vote⟩
    leader := 0
    configMgr := configMgr
    voteMgr := VoteManager.reset peers
    indexMgr := ((IndexManager.reset peers).resetNext (log.last + 1)).resetMatch 0
    sm := disk.sm
    snapshotMgr := SnapshotManager.reset peers
    timerMgr := (TimerManager.reset peers).againElection
    hooks := flags.hooks
    enablePreVote := flags.enablePreVote
    preVoting := false
    leaderTransfer := false
    transferMaxTerm := 0
    intervalCheck := flags.intervalCheck
    lastHeartbeatTimestamp := 0
    changingIndex := 0
    standby := flags.standby
    effects := [] }

/-- The persistent part of a node. -/
def disk (n : Node) : Disk :=
  ⟨n.solid.term, n.solid.vote, n.log, n.sm⟩

end Node

/-! ## Inputs -/

/-- What makes a node run. -/
inductive Input
  | electionTimer
  | requestVoteTimer (dest : Addr)
  | heartbeatTimer (dest : Addr)
  | propose (value : Bytes)
  | leaderTransfer (dest : Addr)
  | setFlags (flags : Flags)
  | recv (msg : Message) (now : ℤ)

namespace Node

/-- Run the handler of an input. -/
def handle (n : Node) : Input → Outcome
  | .electionTimer => n.elect
  | .requestVoteTimer dest => n.requestVoteRpc dest
  | .heartbeatTimer dest => n.heartBeat dest
  | .propose value => n.propose value
  | .leaderTransfer dest => n.leaderTransferTo dest
  | .setFlags flags => .ok { n with
      enablePreVote := flags.enablePreVote
      intervalCheck := flags.intervalCheck
      standby := flags.standby }
  | .recv (.requestVote msg) now => n.onRequestVote msg now
  | .recv (.requestVoteReply msg) _ => n.onRequestVoteReply msg
  | .recv (.appendEntries msg) now => n.onAppendEntries msg now
  | .recv (.appendEntriesReply msg) _ => n.onAppendEntriesReply msg
  | .recv (.timeoutNow msg) _ => n.onTimeoutNow msg
  | .recv (.installSnapshot msg) now => n.onInstallSnapshot msg now
  | .recv (.installSnapshotReply msg) _ => n.onInstallSnapshotReply msg

end Node

/-- The node an outcome leaves behind, whether or not an assert failed. -/
def Outcome.node : Outcome → Node
  | .ok n => n
  | .error (_, n) => n

theorem ok_node {out : Outcome} (ended : out.isOk = true) : out = .ok out.node := by
  cases out with
  | error _ => contradiction
  | ok n => rfl

/-! ## Clusters -/

/-- A fixed membership: distinct addresses, none of them null. -/
structure Membership where
  members : List Addr
  nodup : members.Nodup
  null_not_mem : 0 ∉ members
  /-- Which members run a state machine. -/
  hasSm : Addr → Bool

namespace Membership

/-- The configuration a member is started with. -/
def config (m : Membership) (p : Addr) : RaftConfig :=
  ⟨p, m.members.filter fun q => q ≠ p⟩

/-- The number of members. -/
def size (m : Membership) : ℕ := m.members.length

/-- Members `1` to `count`, each with a state machine. -/
def upTo (count : ℕ) : Membership where
  members := (List.range count).map (· + 1)
  nodup := List.nodup_range.map fun _ _ same => Nat.succ.inj same
  null_not_mem := by simp
  hasSm _ := true

end Membership

/-- All nodes, and all effects each of them ever had. -/
structure Cluster where
  node : Addr → Node
  hist : Addr → List Effect

namespace Cluster

/-- Somebody has sent the message. -/
def InFlight (m : Membership) (s : Cluster) (msg : Message) : Prop :=
  ∃ p ∈ m.members, Effect.send msg ∈ s.hist p

/-- Replace the node of `p` and add to its history. -/
def update (s : Cluster) (p : Addr) (n : Node) (effects : List Effect) : Cluster where
  node := Function.update s.node p { n with effects := [] }
  hist := Function.update s.hist p (s.hist p ++ effects)

/-- Every member started on a fresh disk. -/
def init (m : Membership) (flags : Addr → Flags) : Cluster where
  node p := Node.boot (m.config p) (flags p) (Disk.fresh (m.hasSm p))
  hist _ := []

/-- The inputs a member can receive: timers of its peers, and messages on the
network that are addressed to it. -/
def Enabled (m : Membership) (s : Cluster) (p : Addr) : Input → Prop
  | .requestVoteTimer dest => dest ∈ m.members ∧ dest ≠ p
  | .heartbeatTimer dest => dest ∈ m.members ∧ dest ≠ p
  | .recv msg _ => s.InFlight m msg ∧ msg.dest = p
  | _ => True

/-- One step of a cluster: a member handles an input to the end, or crashes on
the way and restarts.  `crash` says after which effects of the handler a crash
may happen. -/
inductive Step (m : Membership) (crash : List Effect → Prop) (s : Cluster) : Cluster → Prop
  | handle (p : Addr) (mem : p ∈ m.members) (input : Input) (enabled : s.Enabled m p input)
      (n : Node) (done : (s.node p).handle input = .ok n) :
      Step m crash s (s.update p n n.effects)
  | crash (p : Addr) (mem : p ∈ m.members) (input : Input) (enabled : s.Enabled m p input)
      (performed : List Effect)
      (reached : performed <+: ((s.node p).handle input).node.effects)
      (allowed : crash performed) (flags : Flags) :
      Step m crash s (s.update p
        (Node.boot (m.config p) flags ((s.node p).disk.performAll performed)) performed)

/-- A run from the initial state. -/
abbrev Run (m : Membership) (crash : List Effect → Prop) : Cluster → Cluster → Prop :=
  Relation.ReflTransGen (Step m crash)

/-- A crash that does not separate the write of a term from the write of the
vote that belongs to it. -/
def Whole (performed : List Effect) : Prop :=
  ∀ term, performed.getLast? ≠ some (.persistTerm term)

/-- States reached from the start of a cluster with the given crashes. -/
def Reachable (m : Membership) (crash : List Effect → Prop) (s : Cluster) : Prop :=
  ∃ flags, Run m crash (init m flags) s

/-! ## Schedules -/

instance (m : Membership) (s : Cluster) (msg : Message) : Decidable (s.InFlight m msg) :=
  inferInstanceAs (Decidable (∃ p ∈ m.members, _))

instance (m : Membership) (s : Cluster) (p : Addr) (input : Input) :
    Decidable (s.Enabled m p input) :=
  match input with
  | .electionTimer => inferInstanceAs (Decidable True)
  | .requestVoteTimer dest => inferInstanceAs (Decidable (dest ∈ m.members ∧ dest ≠ p))
  | .heartbeatTimer dest => inferInstanceAs (Decidable (dest ∈ m.members ∧ dest ≠ p))
  | .propose _ => inferInstanceAs (Decidable True)
  | .leaderTransfer _ => inferInstanceAs (Decidable True)
  | .setFlags _ => inferInstanceAs (Decidable True)
  | .recv msg _ => inferInstanceAs (Decidable (s.InFlight m msg ∧ msg.dest = p))

/-- A step of a schedule: a member handles an input, or the last message that
a member has sent is delivered. -/
inductive Move
  | handle (p : Addr) (input : Input)
  | deliver (src : Addr)

/-- The last message of a history. -/
def lastSent (hist : List Effect) : Option Message :=
  hist.reverse.findSome? fun
    | .send msg => some msg
    | _ => none

/-- Who runs what in a move. -/
def Move.resolve (s : Cluster) : Move → Option (Addr × Input)
  | .handle p input => some (p, input)
  | .deliver src => (lastSent (s.hist src)).map fun msg => (msg.dest, .recv msg 0)

/-- Make a move if it is enabled and ends in no assert. -/
def move (m : Membership) (s : Cluster) (next : Move) : Option Cluster :=
  match next.resolve s with
  | none => none
  | some (p, input) =>
      if p ∈ m.members ∧ s.Enabled m p input then
        match (s.node p).handle input with
        | .ok n => some (s.update p n n.effects)
        | .error _ => none
      else none

/-- Make the moves of a schedule. -/
def play (m : Membership) (s : Cluster) : List Move → Option Cluster
  | [] => some s
  | next :: rest => (s.move m next).bind fun s' => s'.play m rest

theorem step_of_move {m : Membership} {crash : List Effect → Prop} {s s' : Cluster} {next : Move}
    (moved : s.move m next = some s') : Step m crash s s' := by
  rw [move] at moved
  split at moved
  · contradiction
  · rename_i p input _
    split at moved
    · rename_i ready
      split at moved
      · rename_i n done
        obtain rfl := Option.some.inj moved
        exact .handle p ready.1 input ready.2 n done
      · contradiction
    · contradiction

theorem run_of_play {m : Membership} {crash : List Effect → Prop} {s s' : Cluster}
    {schedule : List Move} (played : s.play m schedule = some s') : Run m crash s s' := by
  induction schedule generalizing s with
  | nil =>
      obtain rfl := Option.some.inj played
      exact .refl
  | cons next rest ih =>
      obtain ⟨mid, moved, played⟩ := Option.bind_eq_some_iff.mp played
      exact .head (step_of_move moved) (ih played)

/-- `p` stands for election and is answered by `voters` in turn. -/
def election (p : Addr) (voters : List Addr) : List Move :=
  .handle p .electionTimer ::
    voters.flatMap fun q => [.handle p (.requestVoteTimer q), .deliver p, .deliver q]

/-- The leader `p` sends to `q` and is answered. -/
def exchange (p q : Addr) : List Move :=
  [.handle p (.heartbeatTimer q), .deliver p, .deliver q]

/-- `1` is elected by `2`, takes a proposal and brings `2` up to date. -/
def replication : List Move :=
  election 1 [2] ++ [.handle 1 (.propose [7])] ++ exchange 1 2 ++ exchange 1 2 ++ exchange 1 2

/-- A cluster without optional checks at its start. -/
def start (m : Membership) : Cluster :=
  init m fun _ => { enablePreVote := false, intervalCheck := false, standby := false }

/-- What can be observed at the end of a schedule can be observed at the end of
a run. -/
theorem run_of_observed {m : Membership} {crash : List Effect → Prop} {s : Cluster}
    {schedule : List Move} {observed : Cluster → Bool}
    (played : (s.play m schedule).any observed = true) :
    ∃ s', Run m crash s s' ∧ observed s' = true := by
  cases final : s.play m schedule with
  | none => simp [final] at played
  | some s' => exact ⟨s', run_of_play final, by simpa [final] using played⟩

end Cluster

end Vraft
