import Vraft.Refine.Replication

/-!
# Clusters simulate the protocol

Every step of a cluster, including a crash and restart anywhere between two
writes except between a term and its vote, is matched by moves of the abstract
protocol.  Along a run the related abstract states only extend their history.
-/

namespace Vraft

open Consensus (Committed Extends Inv Steps)

section Simulation

variable {m : Membership} {meets : m.Intersecting} {s s' : Cluster} {a : Ghost}

/-- Every member agrees with the abstract state. -/
structure Sim (m : Membership) (meets : m.Intersecting) (s : Cluster) (a : Ghost) : Prop where
  inv : Inv AppendEntry.term (m.quorums meets) a
  live : ∀ p ∈ m.members, Live m meets a p (s.hist p) (s.node p).view
  idle : ∀ p ∈ m.members, (s.node p).effects = []

/-! ## Handlers -/

/-- What a member may rely on when it handles an input. -/
theorem Sim.message (sim : Sim m meets s a) {msg : Message} (sent : s.InFlight m msg) :
    msg.src ∈ m.members ∧ MessageOk m meets a msg := by
  obtain ⟨q, mem, inHist⟩ := sent
  obtain ⟨src_eq, ok⟩ := (sim.live q mem).effects _ inHist
  exact ⟨src_eq ▸ mem, ok⟩

/-- The origin of a handler of `p`. -/
def Sim.origin (sim : Sim m meets s a) {p : Addr} (mem : p ∈ m.members) : Origin m meets where
  p := p
  mem := mem
  ghost := a
  inv := sim.inv
  hist := s.hist p
  disk := (s.node p).disk

theorem Sim.start (sim : Sim m meets s a) {p : Addr} (mem : p ∈ m.members) :
    At (sim.origin mem) a (s.node p) := by
  have live := sim.live p mem
  refine ⟨Moves.refl _ _, ?_, ?_, ?_⟩
  · rw [sim.idle p mem, List.append_nil]
    exact live
  · rw [sim.idle p mem]
    rfl
  · intro performed sub _
    rw [sim.idle p mem] at sub
    obtain rfl := List.prefix_nil.mp sub
    refine ⟨a, Moves.refl _ _, ?_⟩
    rw [List.append_nil]
    exact live.toStored

theorem Sim.handle (sim : Sim m meets s a) {p : Addr} (mem : p ∈ m.members) {input : Input}
    (enabled : s.Enabled m p input) :
    Settles (sim.origin mem) ((s.node p).handle input) := by
  have at_ := sim.start mem
  cases input with
  | electionTimer => exact elect_ends at_
  | requestVoteTimer dest => exact requestVoteRpc_ends at_ enabled.2
  | heartbeatTimer dest => exact heartBeat_ends at_ (Membership.mem_peersOf.mpr enabled)
  | propose value => exact propose_ends at_ value
  | leaderTransfer dest => exact leaderTransferTo_ends at_ dest
  | setFlags flags => exact Settles.ok (a := a) at_
  | recv msg now =>
      obtain ⟨sent, dest⟩ := enabled
      obtain ⟨src, ok⟩ := sim.message sent
      cases msg with
      | requestVote msg => exact onRequestVote_ends at_ now src dest ok
      | requestVoteReply msg => exact onRequestVoteReply_ends at_ src dest ok
      | appendEntries msg => exact onAppendEntries_ends at_ now dest ok
      | appendEntriesReply msg => exact onAppendEntriesReply_ends at_ src dest ok
      | timeoutNow msg => exact onTimeoutNow_ends at_ msg
      | installSnapshot msg => exact ok.elim
      | installSnapshotReply msg => exact ok.elim

/-- Asserts about the log, the commit index or the indices never fail. -/
theorem Sim.benign (sim : Sim m meets s a) {p : Addr} (mem : p ∈ m.members) {input : Input}
    (enabled : s.Enabled m p input) {site : AssertSite} {n : Node}
    (failed : (s.node p).handle input = .error (site, n)) : site.Benign := by
  have ends := sim.handle mem enabled
  rw [failed] at ends
  exact ends.1

/-! ## Restarts -/

/-- What a node is after a restart. -/
theorem Node.boot_view {p : Addr} {flags : Flags} {disk : Disk}
    (recorded : disk.log.lastConfig = some (m.config p)) :
    (Node.boot (m.config p) flags disk).view = {
      disk := disk
      started := true
      state := .follower
      commit := 0
      lastApply := disk.smLast
      leader := 0
      config := m.config p
      voteMgr := VoteManager.reset (m.peersOf p)
      indexMgr := ((IndexManager.reset (m.peersOf p)).resetNext (disk.log.last + 1)).resetMatch 0
      preVoting := false } := by
  simp only [Node.boot, Node.view, Node.disk, recorded]
  rfl

theorem Live.restart {p : Addr} {hist : List Effect} {disk : Disk}
    (stored : Stored m meets a p hist disk) (flags : Flags) :
    Live m meets a p hist (Node.boot (m.config p) flags disk).view := by
  have recorded : disk.log.lastConfig = some (m.config p) := by
    simp [Log.lastConfig, stored.configs]
  rw [Node.boot_view recorded]
  exact {
    toStored := stored
    started := rfl
    config := rfl
    votesOf := Table.ofKeys_keys (m.peersOf_nodup p) _
    indicesOf := Table.ofKeys_keys (m.peersOf_nodup p) _
    leads := by simp
    owns := by simp
    stands := by simp
    follows := by simp
    grants := by simp
    match_le := by simp
    next_pos := by simp
    next_le := by simp
    commits := Committed.zero
    applies := stored.settled
    sm_le := le_rfl
    sm_eq := fun _ => rfl }

/-! ## Steps and runs -/

/-- One member moves, the others keep what they have. -/
theorem Sim.update (sim : Sim m meets s a) {p : Addr} {n : Node} {effects : List Effect}
    {a' : Ghost} (moves : Moves m meets p a a')
    (live : Live m meets a' p (s.hist p ++ effects) n.view) :
    Sim m meets (s.update p n effects) a' where
  inv := sim.inv.steps moves.steps
  live q mem := by
    by_cases same : q = p
    · subst same
      simp only [Cluster.update, Function.update_self]
      exact live
    · simp only [Cluster.update, Function.update_of_ne same]
      exact (sim.live q mem).mono sim.inv moves.steps (moves.others q same)
  idle q mem := by
    by_cases same : q = p
    · subst same
      simp [Cluster.update]
    · simp only [Cluster.update, Function.update_of_ne same]
      exact sim.idle q mem

theorem Sim.step (sim : Sim m meets s a) (step : Cluster.Step m Cluster.Whole s s') :
    ∃ a', Steps AppendEntry.term (m.quorums meets) a a' ∧ Sim m meets s' a' := by
  cases step with
  | handle p mem input enabled n done =>
      have ends := sim.handle mem enabled
      rw [done] at ends
      obtain ⟨a', at_, -⟩ := ends
      exact ⟨a', at_.moves.steps, sim.update at_.moves at_.live⟩
  | crash p mem input enabled performed reached whole flags =>
      obtain ⟨a', moves, stored⟩ := (sim.handle mem enabled).covered performed reached whole
      exact ⟨a', moves.steps, sim.update moves (Live.restart stored flags)⟩

theorem Sim.run (sim : Sim m meets s a) (run : Cluster.Run m Cluster.Whole s s') :
    ∃ a', Steps AppendEntry.term (m.quorums meets) a a' ∧ Sim m meets s' a' := by
  induction run with
  | refl => exact ⟨a, .refl, sim⟩
  | tail _ step ih =>
      obtain ⟨b, steps, sim⟩ := ih
      obtain ⟨c, more, sim⟩ := sim.step step
      exact ⟨c, steps.trans more, sim⟩

/-- The disk of a first start, once the configuration is recorded. -/
theorem Stored.first (p : Addr) :
    Stored m meets (Consensus.State.init 1) p []
      { Disk.fresh (m.hasSm p) with log := Log.empty.appendFirstConfig (m.config p) } where
  term := rfl
  vote := rfl
  base := rfl
  entries := rfl
  configs := rfl
  plain := by simp [Consensus.State.init]
  hasSm := by cases running : m.hasSm p <;> simp [Disk.fresh]
  settled := by
    cases running : m.hasSm p <;> exact Committed.zero
  applied := by
    cases running : m.hasSm p <;> rfl
  effects := by simp

theorem Sim.init (flags : Addr → Flags) :
    Sim m meets (Cluster.init m flags) (Consensus.State.init 1) where
  inv := Inv.init 1
  live p _ := Live.restart (Stored.first p) (flags p)
  idle _ _ := rfl

theorem Sim.of_reachable (meets : m.Intersecting) (reachable : s.Reachable m Cluster.Whole) :
    ∃ a, Sim m meets s a := by
  obtain ⟨flags, run⟩ := reachable
  obtain ⟨a, -, sim⟩ := (Sim.init flags).run run
  exact ⟨a, sim⟩

end Simulation

end Vraft
