import Vraft.Raft.Cluster
import Vraft.RaftLog.Record

/-!
# Membership requests, stopping and starting

The entry points of a node beside its inputs: `AddServer` and `RemoveServer`,
which propose the configuration as the leader sees it, and `Stop` and `Start` on
one object.  An operation is anything a running process does to its node.
-/

namespace Vraft

namespace Node

/-! ## Membership requests -/

/-- Propose a configuration, on a leader only. -/
def proposeConfig (n : Node) (rc : RaftConfig) : Outcome :=
  if n.state ≠ .leader ∨ !n.started then .ok n else n.doPropose rc.toString .config

/-- `Raft::AddServer`. -/
def addServer (n : Node) (addr : Addr) : Outcome :=
  if 0 < n.changingIndex then .ok n
  else if n.configMgr.current.inConfig addr then .ok n
  else n.proposeConfig { n.configMgr.current with peers := n.peers ++ [addr] }

/-- `Raft::RemoveServer`. -/
def removeServer (n : Node) (addr : Addr) : Outcome :=
  if 0 < n.changingIndex then .ok n
  else if !n.configMgr.current.inConfig addr then .ok n
  else if n.me = addr then .ok n
  else n.proposeConfig
    { n.configMgr.current with peers := n.peers.filter fun peer => peer ≠ addr }

/-! ## Starting and stopping -/

/-- `TimerManager::Stop`. -/
def stop (n : Node) : Node :=
  { n with
    started := false
    timerMgr := n.timerMgr.stopElection.stopRequestVote.stopHeartBeat
    sm := none }

/-- Start a stopped node with the state machine found on disk.  All timers are
made anew. -/
def start (n : Node) (sm : Option StateMachine) : Outcome :=
  stepDown { n with
    started := true
    sm := sm
    lastApply := sm.elim n.lastApply StateMachine.lastIndex
    timerMgr := n.timerMgr.stopElection.stopRequestVote.stopHeartBeat } n.solid.term

/-- The election timer fires once and is then no longer armed. -/
def electionExpired (n : Node) : Node :=
  { n with timerMgr := n.timerMgr.stopElection }

end Node

/-- What a process does to its node. -/
inductive Op
  | input (input : Input)
  | addServer (addr : Addr)
  | removeServer (addr : Addr)
  | stop
  | start (sm : Option StateMachine)

namespace Node

/-- One operation on a server. -/
def perform (n : Node) : Op → Outcome
  | .input .electionTimer => n.electionExpired.elect
  | .input input => n.handle input
  | .addServer addr => n.addServer addr
  | .removeServer addr => n.removeServer addr
  | .stop => .ok n.stop
  | .start sm => if n.started then .ok n else n.start sm

/-- The timer that makes an operation happen is armed. -/
def Armed (n : Node) : Op → Prop
  | .input .electionTimer => n.timerMgr.election = true
  | .input (.requestVoteTimer dest) => n.timerMgr.requestVotes.val dest = true
  | .input (.heartbeatTimer dest) => n.timerMgr.heartbeats.val dest = true
  | _ => True

instance (n : Node) (op : Op) : Decidable (n.Armed op) :=
  match op with
  | .input .electionTimer => inferInstanceAs (Decidable (_ = _))
  | .input (.requestVoteTimer _) => inferInstanceAs (Decidable (_ = _))
  | .input (.heartbeatTimer _) => inferInstanceAs (Decidable (_ = _))
  | .input (.propose _) => inferInstanceAs (Decidable True)
  | .input (.leaderTransfer _) => inferInstanceAs (Decidable True)
  | .input (.setFlags _) => inferInstanceAs (Decidable True)
  | .input (.recv _ _) => inferInstanceAs (Decidable True)
  | .addServer _ => inferInstanceAs (Decidable True)
  | .removeServer _ => inferInstanceAs (Decidable True)
  | .stop => inferInstanceAs (Decidable True)
  | .start _ => inferInstanceAs (Decidable True)

/-! ## Sequences of operations -/

variable (allowed : Node → Op → Prop)

/-- One operation that is allowed and ends. -/
def Operates (n n' : Node) : Prop :=
  ∃ op, allowed n op ∧ n.perform op = .ok n'

/-- Perform operations in turn, as far as they are allowed and end. -/
def play [∀ n op, Decidable (allowed n op)] (n : Node) : List Op → Option Node
  | [] => some n
  | op :: rest =>
      if allowed n op then
        match n.perform op with
        | .ok n' => play n' rest
        | .error _ => none
      else none

theorem operates_of_play [∀ n op, Decidable (allowed n op)] {n n' : Node} {ops : List Op}
    (played : n.play allowed ops = some n') :
    Relation.ReflTransGen (Operates allowed) n n' := by
  induction ops generalizing n with
  | nil =>
      obtain rfl := Option.some.inj played
      exact .refl
  | cons op rest ih =>
      rw [play] at played
      split at played
      · rename_i permitted
        split at played
        · rename_i n₁ done
          exact .head ⟨op, permitted, done⟩ (ih played)
        · contradiction
      · contradiction

/-- What can be observed after the operations have been performed is observed at
the end of a sequence of them. -/
theorem operates_of_observed [∀ n op, Decidable (allowed n op)] (n : Node) (ops : List Op)
    (observed : Node → Bool) (played : (n.play allowed ops).any observed = true) :
    ∃ n', Relation.ReflTransGen (Operates allowed) n n' ∧ observed n' = true := by
  cases final : n.play allowed ops with
  | none => simp [final] at played
  | some n' => exact ⟨n', operates_of_play allowed final, by simpa [final] using played⟩

end Node

end Vraft
