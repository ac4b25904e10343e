import Vraft.Refine.Simulation
import Vraft.Roles.Timers

/-!
# Armed timers in a cluster

Along the runs of a cluster timers agree with roles, and each member has a
heartbeat and a request-vote timer for every peer.  The heartbeats of a leader are
all armed, so a leader can reach every peer without waiting for anything else.
-/

namespace Vraft

/-! ## Handlers as operations -/

/-- What a candidate is once it leads. -/
theorem becomeLeader_eq {n : Node} (candidate : n.state = .candidate) :
    n.becomeLeader = .ok { n with
      leaderTransfer := false
      state := .leader
      leader := n.me
      lastHeartbeatTimestamp := int64Max
      timerMgr := n.timerMgr.stopElection.stopRequestVote.startHeartBeat
      indexMgr := (n.indexMgr.resetNext (n.lastIndex + 1)).resetMatch 0
      log := n.log.appendOne ⟨n.solid.term, .noop, Node.noopValue⟩
      effects := n.effects ++ [.becomeLeader n.solid.term] ++
        [.appendLog ⟨n.solid.term, .noop, Node.noopValue⟩] } := by
  unfold Node.becomeLeader
  dsimp only
  have plain : AppendEntry.Plain ⟨n.solid.term, .noop, Node.noopValue⟩ := .inr rfl
  rw [Node.check_of candidate, ok_bind]
  exact Node.appendOne_eq plain _

/-- A candidate in the next term that has voted for itself. -/
def Node.stood (n : Node) : Node :=
  { n with
    state := .candidate
    leader := 0
    voteMgr := n.voteMgr.clear
    solid := ⟨n.solid.term + 1, n.me⟩
    effects := n.effects ++ [.persistTerm (n.solid.term + 1)] ++ [.persistVote n.me] ++
      [.countSelf (n.solid.term + 1) n.me] }

theorem doRequestVote_stood (n : Node) :
    n.doRequestVote =
      if n.voteMgr.clear.quorumAll true then n.stood.becomeLeader
      else .ok { n.stood with timerMgr := n.timerMgr.startRequestVote.againElection } := by
  have own : (n.incrTerm.becomeCandidate.setVote n.incrTerm.becomeCandidate.me).ifSelfVote = true :=
    decide_eq_true rfl
  have counted : (n.incrTerm.becomeCandidate.setVote n.incrTerm.becomeCandidate.me).countSelf =
      n.stood := by
    rw [Node.countSelf, if_pos own]
    rfl
  have voted : n.stood.ifSelfVote = true := decide_eq_true rfl
  unfold Node.doRequestVote
  dsimp only
  rw [counted, voted]
  rfl

/-- Standing for election sets the election timer anew. -/
theorem doRequestVote_expired (n : Node) :
    n.electionExpired.doRequestVote = n.doRequestVote := by
  have candidate : n.electionExpired.stood.state = .candidate := rfl
  have candidate' : n.stood.state = .candidate := rfl
  rw [doRequestVote_stood, doRequestVote_stood, becomeLeader_eq candidate, becomeLeader_eq candidate']
  rfl

/-- It makes no difference to an election that goes ahead whether its timer still
counts as armed. -/
theorem performs_of_handles {n n' : Node} {input : Input} (done : n.handle input = .ok n') :
    n.perform (.input input) = .ok n' := by
  cases input with
  | electionTimer =>
      rw [← done]
      show n.electionExpired.elect = n.elect
      replace done : n.elect = .ok n' := done
      unfold Node.elect at done ⊢
      obtain ⟨n₁, checked, -⟩ := ok_of_bind_ok done
      obtain ⟨stands, -⟩ := of_check_ok checked
      rw [Node.check_of stands,
        Node.check_of (show n.electionExpired.state = .follower ∨ n.electionExpired.state = .candidate
          from stands)]
      simp only [ok_bind]
      have real := doRequestVote_expired { n with preVoting := false }
      split
      · rename_i standby
        exact (if_pos standby).symm
      · rename_i active
        refine Eq.trans ?_ (if_neg active).symm
        split
        · rename_i polls
          exact (if_pos polls).symm
        · rename_i stands
          exact real.trans (if_neg stands).symm
  | _ => exact done

/-! ## The timers of the peers -/

/-- Unless a configuration is written, there are timers for `peers`, and those of a
leader's heartbeats are armed. -/
structure Ticking (rc : RaftConfig) (n : Node) : Prop where
  configs : n.log.configs = [(0, rc)]
  requestVotes : n.timerMgr.requestVotes.keys = rc.peers
  heartbeats : n.timerMgr.heartbeats.keys = rc.peers
  beats : n.state = .leader → ∀ addr ∈ rc.peers, n.timerMgr.heartbeats.val addr = true

section Ticking

variable {rc : RaftConfig} {n n' : Node} {heard : Addr → Prop} {follows : Prop}

theorem Ticking.of_idle (ticking : Ticking rc n) (log : n'.log = n.log)
    (requestVotes : n'.timerMgr.requestVotes.keys = n.timerMgr.requestVotes.keys)
    (heartbeats : n'.timerMgr.heartbeats.keys = n.timerMgr.heartbeats.keys)
    (idle : n'.state ≠ .leader) : Ticking rc n' where
  configs := by rw [log, ticking.configs]
  requestVotes := requestVotes.trans ticking.requestVotes
  heartbeats := heartbeats.trans ticking.heartbeats
  beats leader := absurd leader idle

theorem Ticking.of_same (ticking : Ticking rc n) (log : n'.log = n.log)
    (requestVotes : n'.timerMgr.requestVotes.keys = n.timerMgr.requestVotes.keys)
    (heartbeats : n'.timerMgr.heartbeats = n.timerMgr.heartbeats)
    (state : n'.state = n.state) : Ticking rc n' where
  configs := by rw [log, ticking.configs]
  requestVotes := requestVotes.trans ticking.requestVotes
  heartbeats := by rw [heartbeats, ticking.heartbeats]
  beats leader := by
    rw [heartbeats]
    exact ticking.beats (state.symm.trans leader)

/-- Effects are only ever added. -/
theorem Act.effects_sub (act : Act heard follows n n') : n.effects ⊆ n'.effects := by
  cases act with
  | aside n' same =>
      obtain ⟨more, effects_eq, -⟩ := same.effects
      rw [effects_eq]
      exact List.subset_append_left _ _
  | stream dest known n' done =>
      unfold Node.sendInstallSnapshot at done
      dsimp only at done
      split at done
      · contradiction
      · obtain rfl := Except.ok.inj done
        refine List.subset_append_of_subset_left _ ?_
        unfold Node.openReader
        dsimp only
        split <;> exact List.Subset.refl _
  | append entry n' done quiet free =>
      rcases appendOne_cases done with ⟨-, rfl⟩ | ⟨rc, n₁, config, -, -, changed, rfl⟩
      · exact List.subset_append_left _ _
      · have resized : n₁ = _ := doConfigChange_resized changed
        rw [resized]
        exact List.subset_append_left _ _
  | truncate from_ n' done quiet open_ comes =>
      rcases deleteFrom_cases done with ⟨-, rfl⟩ | ⟨-, -, rfl⟩ | ⟨index, n₁, -, -, rolled, rfl⟩
      · exact List.Subset.refl _
      · exact List.subset_append_left _ _
      · obtain ⟨_, n₂, _, -, changed, rfl⟩ := configRollback_cases rolled
        have resized : n₂ = _ := doConfigChange_resized changed
        rw [resized]
        exact List.subset_append_left _ _
  | _ => exact List.Subset.refl _

/-- The entries that the effects have appended are no configurations. -/
def Unconfigured (effects : List Effect) : Prop :=
  ∀ entry : AppendEntry, Effect.appendLog entry ∈ effects → entry.type ≠ .config

theorem Ticking.appendOne (ticking : Ticking rc n) {entry : AppendEntry}
    (done : n.appendOne entry = .ok n') (plain : Unconfigured n'.effects) : Ticking rc n' := by
  rcases appendOne_cases done with ⟨notConfig, rfl⟩ | ⟨rc', n₁, config, isConfig, -, changed, rfl⟩
  · refine { ticking with configs := ?_ }
    show (n.log.appendOne entry).configs = _
    rw [Log.appendOne, if_neg notConfig]
    exact ticking.configs
  · have resized : n₁ = _ := doConfigChange_resized changed
    refine absurd isConfig (plain entry ?_)
    rw [resized]
    exact List.mem_append_right _ List.mem_cons_self

theorem Ticking.deleteFrom (ticking : Ticking rc n) {from_ : ℕ}
    (done : n.deleteFrom from_ = .ok n') : Ticking rc n' := by
  have first (something : ¬n.log.NothingFrom from_) : n.log.first = n.log.base + 1 :=
    if_neg fun empty => something (.inl empty)
  rcases deleteFrom_cases done with ⟨-, rfl⟩ | ⟨something, -, rfl⟩ | ⟨index, n₁, something, dropped, -, -⟩
  · exact ticking
  · refine { ticking with configs := ?_ }
    show (n.log.deleteFrom from_).configs = _
    rw [Log.deleteFrom, if_neg something]
    simp [ticking.configs, first something]
  · rw [Log.configsFrom, if_neg something, ticking.configs] at dropped
    simp [first something] at dropped

theorem Ticking.act (ticking : Ticking rc n) (act : Act heard follows n n')
    (plain : Unconfigured n'.effects) : Ticking rc n' := by
  cases act with
  | aside n' same => exact ticking.of_same same.log (by rw [same.timerMgr]) (by rw [same.timerMgr]) same.state
  | stream dest known n' done =>
      rw [sendInstallSnapshot_same done]
      exact ticking.of_same rfl rfl rfl rfl
  | stepDown => exact ticking.of_idle rfl rfl rfl (by simp)
  | campaign stands => exact ticking.of_idle rfl rfl rfl (by simp)
  | lead =>
      refine { ticking with beats := fun _ addr mem => ?_ }
      rw [← ticking.heartbeats] at mem
      exact Table.mapValues_val_of_mem n.timerMgr.heartbeats (fun _ => true) mem
  | rearm follower => exact ticking.of_same rfl rfl rfl rfl
  | again stands => exact ticking.of_same rfl rfl rfl rfl
  | start follower => exact ticking.of_same rfl rfl rfl rfl
  | stopRequestVoteOf addr => exact ticking.of_same rfl (Table.modify_keys _ _ _) rfl rfl
  | beat addr leads =>
      refine ⟨ticking.configs, ticking.requestVotes,
        (Table.modify_keys _ _ _).trans ticking.heartbeats, fun leader other mem => ?_⟩
      have known : other ∈ n.timerMgr.heartbeats.keys := by
        rw [ticking.heartbeats]
        exact mem
      show (n.timerMgr.heartbeats.modify addr fun _ => true).val other = true
      rw [Table.modify_val]
      split
      · rfl
      · exact ticking.beats leader other mem
  | append entry n' done quiet free => exact ticking.appendOne done plain
  | truncate from_ n' done quiet open_ comes => exact ticking.deleteFrom done
  | _ => exact ticking.of_same rfl rfl rfl rfl

theorem Ticking.acts (ticking : Ticking rc n) (acts : Acts heard follows n n')
    (plain : Unconfigured n'.effects) : Ticking rc n' := by
  induction acts with
  | refl => exact ticking
  | tail _ act ih => exact (ih fun entry mem => plain entry (act.effects_sub mem)).act act plain

end Ticking

theorem Ticking.handle {rc : RaftConfig} {n n' : Node} {input : Input} (ticking : Ticking rc n)
    (done : n.handle input = .ok n') (plain : Unconfigured n'.effects) : Ticking rc n' := by
  have running : ¬(Op.input input).Lifecycle := id
  exact ticking.acts (perform_acts running (performs_of_handles done)) plain

/-! ## Along runs -/

section Cluster

variable {m : Membership} {meets : m.Intersecting} {s s' : Cluster}

/-- Without membership changes a handler appends no configuration. -/
theorem Sim.unconfigured {a : Ghost} {p : Addr} (sim : Sim m meets s a) (mem : p ∈ m.members)
    {input : Input} (enabled : s.Enabled m p input) {n : Node}
    (done : (s.node p).handle input = .ok n) : Unconfigured n.effects := by
  intro entry appended isConfig
  have settles := sim.handle mem enabled
  rw [done] at settles
  obtain ⟨before, after, split_eq⟩ := List.append_of_mem appended
  have reached : before ++ [.appendLog entry] <+: n.effects :=
    ⟨after, by rw [split_eq, List.append_assoc, List.singleton_append]⟩
  obtain ⟨a', -, stored⟩ := settles.covered _ reached (by simp [Cluster.Whole])
  have plain : entry.Plain := by
    refine stored.plain entry ?_
    rw [← stored.entries, performAll_append]
    exact List.mem_append_right _ (List.mem_singleton_self entry)
  rcases plain with data | noop
  · simp [data] at isConfig
  · simp [noop] at isConfig

theorem Ticking.boot {p : Addr} {flags : Flags} {disk : Disk} (configs : disk.log.configs = [] ∨
    disk.log.configs = [(0, m.config p)]) :
    Ticking (m.config p) (Node.boot (m.config p) flags disk) := by
  have keys : (TimerManager.reset (m.peersOf p)).requestVotes.keys = m.peersOf p ∧
      (TimerManager.reset (m.peersOf p)).heartbeats.keys = m.peersOf p :=
    ⟨Table.ofKeys_keys (m.peersOf_nodup p) _, Table.ofKeys_keys (m.peersOf_nodup p) _⟩
  have idle : State.follower ≠ .leader := by decide
  rcases configs with none_ | one
  · have last : disk.log.lastConfig = none := by simp [Log.lastConfig, none_]
    have first : (disk.log.appendFirstConfig (m.config p)).configs = [(0, m.config p)] :=
      congrArg ((0, m.config p) :: ·) none_
    simp only [Node.boot, last]
    exact ⟨first, keys.1, keys.2, fun leader => absurd leader idle⟩
  · have last : disk.log.lastConfig = some (m.config p) := by simp [Log.lastConfig, one]
    simp only [Node.boot, last]
    exact ⟨one, keys.1, keys.2, fun leader => absurd leader idle⟩

/-- In every reachable state timers agree with roles, and every member has its
timers. -/
theorem ticking_of_reachable (meets : m.Intersecting) (reachable : s.Reachable m Cluster.Whole)
    {p : Addr} (mem : p ∈ m.members) : (s.node p).Agrees ∧ Ticking (m.config p) (s.node p) := by
  obtain ⟨flags, run⟩ := reachable
  induction run with
  | refl => exact ⟨.boot _ _ _, .boot (.inl rfl)⟩
  | @tail s s' before step ih =>
      obtain ⟨a, sim⟩ := Sim.of_reachable meets ⟨flags, before⟩
      obtain ⟨agrees, ticking⟩ := ih
      cases step with
      | handle q memQ input enabled n done =>
          by_cases same : p = q
          · subst same
            simp only [Cluster.update, Function.update_self]
            have agrees' := TimersAgree.perform agrees (performs_of_handles done)
            have ticking' := ticking.handle done (sim.unconfigured mem enabled done)
            exact ⟨agrees', ticking'.of_same rfl rfl rfl rfl⟩
          · simp only [Cluster.update, Function.update_of_ne same]
            exact ⟨agrees, ticking⟩
      | crash q memQ input enabled performed reached whole flags =>
          by_cases same : p = q
          · subst same
            simp only [Cluster.update, Function.update_self]
            obtain ⟨a', -, stored⟩ := (sim.handle mem enabled).covered performed reached whole
            exact ⟨.boot _ _ _, .boot (.inr stored.configs)⟩
          · simp only [Cluster.update, Function.update_of_ne same]
            exact ⟨agrees, ticking⟩

end Cluster

end Vraft
