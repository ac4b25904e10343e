import Vraft.Availability.Answers

/-!
# Groups that are cut off

A group of members runs on its own when only its timers fire and only messages
between its members arrive.  The steps of such a run are put together from what
the handlers do: a request and its answer, and a heartbeat that tells a leader of a
past term that the others have moved on.
-/

namespace Vraft

/-- What happens by itself at the time `now` in a group that is cut off: timers fire,
and messages from the group arrive. -/
def Input.Unaided (group : Finset Addr) (now : ℤ) : Input → Prop
  | .electionTimer => True
  | .requestVoteTimer _ => True
  | .heartbeatTimer _ => True
  | .recv msg time => msg.src ∈ group ∧ time = now
  | _ => False

namespace Cluster

/-- A step of a group that is cut off.  Only timers that are armed fire. -/
inductive Among (m : Membership) (group : Finset Addr) (now : ℤ) (s : Cluster) : Cluster → Prop
  | handle (p : Addr) (mem : p ∈ group) (input : Input) (unaided : input.Unaided group now)
      (armed : (s.node p).Armed (.input input)) (enabled : s.Enabled m p input) (n : Node)
      (done : (s.node p).handle input = .ok n) : Among m group now s (s.update p n n.effects)

/-- A run of a group that is cut off. -/
abbrev AmongRun (m : Membership) (group : Finset Addr) (now : ℤ) : Cluster → Cluster → Prop :=
  Relation.ReflTransGen (Among m group now)

end Cluster

/-- A majority of an odd number of members, at a time after the first election
timeout. -/
structure Majority (m : Membership) (group : Finset Addr) (now : ℤ) : Prop where
  odd : Odd m.size
  sub : group ⊆ m.members.toFinset
  more : m.size < 2 * group.card
  late : Node.electionNs ≤ now

/-- What holds of every member between two steps. -/
structure Running (m : Membership) (p : Addr) (n : Node) : Prop where
  started : n.started = true
  me : n.me = p
  peers : n.peers = m.peersOf p
  votesOf : n.voteMgr.keys = m.peersOf p
  idle : n.effects = []
  agrees : n.Agrees
  ticking : Ticking (m.config p) n

section Group

variable {m : Membership} {group : Finset Addr} {now : ℤ} {s s' : Cluster} {p q : Addr}

theorem Majority.mem (maj : Majority m group now) (mem : p ∈ group) : p ∈ m.members :=
  List.mem_toFinset.mp (maj.sub mem)

theorem Majority.peer (maj : Majority m group now) (mem : q ∈ group) (ne : q ≠ p) :
    q ∈ m.peersOf p :=
  Membership.mem_peersOf.mpr ⟨maj.mem mem, ne⟩

/-- A run of a group is a run of the cluster. -/
theorem Cluster.AmongRun.run (maj : Majority m group now) {crash : List Effect → Prop}
    (run : Cluster.AmongRun m group now s s') : Cluster.Run m crash s s' := by
  induction run with
  | refl => exact .refl
  | tail _ step ih =>
      cases step with
      | handle p mem input unaided armed enabled n done =>
          exact ih.tail (.handle p (maj.mem mem) input enabled n done)

theorem Cluster.AmongRun.reachable (maj : Majority m group now)
    (reachable : s.Reachable m Cluster.Whole) (run : Cluster.AmongRun m group now s s') :
    s'.Reachable m Cluster.Whole := by
  obtain ⟨flags, before⟩ := reachable
  exact ⟨flags, before.trans (run.run maj)⟩

theorem running_of_reachable (odd : Odd m.size) (reachable : s.Reachable m Cluster.Whole)
    (mem : p ∈ m.members) : Running m p (s.node p) := by
  obtain ⟨a, sim⟩ := Sim.of_reachable (Or.inl odd) reachable
  obtain ⟨agrees, ticking⟩ := ticking_of_reachable (Or.inl odd) reachable mem
  have live := sim.live p mem
  exact ⟨live.started, (sim.start mem).me_eq, (sim.start mem).peers_eq, live.votesOf, sim.idle p mem,
    agrees, ticking⟩

/-! ## Updates -/

theorem Cluster.update_node_self (n : Node) (effects : List Effect) :
    (s.update p n effects).node p = { n with effects := [] } :=
  Function.update_self ..

theorem Cluster.update_node_of_ne (n : Node) (effects : List Effect) (ne : q ≠ p) :
    (s.update p n effects).node q = s.node q :=
  Function.update_of_ne ne ..

theorem Cluster.inFlight_update {n : Node} {effects : List Effect} {msg : Message}
    (mem : p ∈ m.members) (sent : .send msg ∈ effects) :
    (s.update p n effects).InFlight m msg := by
  refine ⟨p, mem, ?_⟩
  show _ ∈ Function.update s.hist p (s.hist p ++ effects) p
  rw [Function.update_self]
  exact List.mem_append_right _ sent

theorem Node.Kept.idle {n n' : Node} (kept : n.Kept n') : n.Kept { n' with effects := [] } :=
  ⟨kept.log, kept.sm, kept.standby⟩

theorem Node.Joined.idle {term : ℕ} {n n' : Node} (joined : n.Joined term n') :
    n.Joined term { n' with effects := [] } :=
  ⟨joined.kept.idle, joined.term, joined.state, joined.heartbeat⟩

/-! ## A request and its answer -/

/-- A candidate asks a member that is not ahead, and the member answers. -/
theorem ask (maj : Majority m group now) (reachable : s.Reachable m Cluster.Whole)
    (memP : p ∈ group) (memQ : q ∈ group) (ne : q ≠ p)
    (candidate : (s.node p).state = .candidate)
    (armed : (s.node p).timerMgr.requestVotes.val q = true)
    (le : (s.node q).solid.term ≤ (s.node p).solid.term) (rested : (s.node q).Rested now) :
    ∃ s' msg reply, Cluster.AmongRun m group now s s' ∧
      (∀ r, r ≠ p → r ≠ q → s'.node r = s.node r) ∧
      s'.node p = { s.node p with
        leaderTransfer := (s'.node p).leaderTransfer
        transferMaxTerm := (s'.node p).transferMaxTerm } ∧
      (s.node q).Joined (s.node p).solid.term (s'.node q) ∧
      RequestVote.Of (s.node p) q msg ∧ reply.To (s.node q) msg ∧
      s'.InFlight m (.requestVoteReply reply) := by
  have runP := running_of_reachable maj.odd reachable (maj.mem memP)
  have runQ := running_of_reachable maj.odd reachable (maj.mem memQ)
  obtain ⟨n, msg, asked, of, same⟩ := requestVoteRpc_eq candidate q
  have sends : Effect.send (.requestVote msg) ∈ n.effects := by
    rw [same]
    exact List.mem_append_right _ (List.mem_singleton_self _)
  set s₁ := s.update p n n.effects with s₁_eq
  have first : Cluster.Among m group now s s₁ :=
    .handle p memP (.requestVoteTimer q) trivial armed ⟨maj.mem memQ, ne⟩ n asked
  have nodeQ : s₁.node q = s.node q := Cluster.update_node_of_ne n _ ne
  have le : (s.node q).solid.term ≤ msg.term := by
    rw [of.term]
    exact le
  obtain ⟨n', reply, answered, replied, answers, joined⟩ := onRequestVote_eq runQ.started le rested
  have enabled : s₁.Enabled m q (.recv (.requestVote msg) now) :=
    ⟨Cluster.inFlight_update (maj.mem memP) sends, of.dest⟩
  have unaided : Input.Unaided group now (.recv (.requestVote msg) now) := by
    refine ⟨?_, rfl⟩
    show msg.src ∈ group
    rw [of.src, runP.me]
    exact memP
  have second : Cluster.Among m group now s₁ (s₁.update q n' n'.effects) := by
    refine .handle q memQ _ unaided trivial enabled n' ?_
    rw [nodeQ]
    exact answered
  refine ⟨s₁.update q n' n'.effects, msg, reply, .tail (.single first) second, ?_, ?_, ?_, of, answers,
    Cluster.inFlight_update (maj.mem memQ) replied⟩
  · intro r neP neQ
    rw [Cluster.update_node_of_ne _ _ neQ, Cluster.update_node_of_ne _ _ neP]
  · rw [Cluster.update_node_of_ne _ _ ne.symm, Cluster.update_node_self, same]
    dsimp only
    rw [← runP.idle]
  · rw [Cluster.update_node_self, ← of.term]
    exact joined.idle

end Group

end Vraft
