import Vraft.Availability.Timers

/-!
# What nodes answer in an election

The handlers of an election, followed forward from nodes of which enough is known:
a request in a term that is not old brings the receiver into that term and is
granted if the term is new to it, and the answers bring the candidate on.
-/

namespace Vraft

namespace Node

/-- An election timeout has passed since the node heard of a leader. -/
def Rested (n : Node) (now : ℤ) : Prop :=
  electionNs ≤ now - n.lastHeartbeatTimestamp

/-- The log of the second node is at least as up to date as that of the first. -/
def Behind (n n' : Node) : Prop :=
  n.lastTerm < n'.lastTerm ∨ n'.lastTerm = n.lastTerm ∧ n.lastIndex ≤ n'.lastIndex

/-- What an election leaves alone until it is won. -/
structure Kept (n n' : Node) : Prop where
  log : n'.log = n.log
  sm : n'.sm = n.sm
  standby : n'.standby = n.standby

/-- The node has stepped down into a term. -/
structure Stepped (newTerm : ℕ) (n n' : Node) : Prop where
  kept : n.Kept n'
  term : n'.solid.term = newTerm
  state : n'.state = .follower
  vote : n.solid.term < newTerm ∨ n.solid.vote = 0 → n'.solid.vote = 0
  heartbeat : n'.lastHeartbeatTimestamp =
    if n.lastHeartbeatTimestamp = int64Max then 0 else n.lastHeartbeatTimestamp

end Node

open Node

section Answers

variable {n n₁ n' : Node} {now : ℤ}

theorem Node.Kept.refl (n : Node) : n.Kept n :=
  ⟨rfl, rfl, rfl⟩

theorem Node.Kept.trans (first : n.Kept n₁) (second : n₁.Kept n') : n.Kept n' :=
  ⟨second.log.trans first.log, second.sm.trans first.sm, second.standby.trans first.standby⟩

theorem Node.Kept.smLast (kept : n.Kept n') : n'.smLast = n.smLast := by
  rw [Node.smLast, Node.smLast, kept.sm]

theorem Node.Kept.lastIndex (kept : n.Kept n') : n'.lastIndex = n.lastIndex := by
  rw [Node.lastIndex, Node.lastIndex, kept.smLast, kept.log]

theorem Node.Kept.lastTerm (kept : n.Kept n') : n'.lastTerm = n.lastTerm := by
  rw [Node.lastTerm, Node.lastTerm, kept.smLast, kept.log, kept.sm]

theorem Node.Behind.kept {p p' : Node} (behind : n.Behind p) (keptN : n.Kept n')
    (keptP : p.Kept p') : n'.Behind p' := by
  rw [Node.Behind, keptN.lastTerm, keptN.lastIndex, keptP.lastTerm, keptP.lastIndex]
  exact behind

/-! ## Stepping down -/

theorem stepDown_eq {term : ℕ} (le : n.solid.term ≤ term) :
    ∃ n', n.stepDown term = .ok n' ∧ n.Stepped term n' := by
  rw [Node.stepDown, Node.check_of le, ok_bind]
  by_cases later : n.solid.term < term
  · simp only [if_pos later]
    exact ⟨_, rfl, ⟨rfl, rfl, rfl⟩, rfl, rfl, fun _ => rfl, rfl⟩
  · simp only [if_neg later]
    refine ⟨_, rfl, ⟨rfl, rfl, rfl⟩, ?_, rfl, fun free => ?_, rfl⟩
    · exact le_antisymm le (Nat.le_of_not_lt later)
    · exact free.resolve_left later

/-- Whoever has heard of no leader for long, or has led until now, is ready to vote. -/
theorem Node.Stepped.rested {term : ℕ} (stepped : n.Stepped term n')
    (late : electionNs ≤ now) (rested : n.Rested now ∨ n.lastHeartbeatTimestamp = int64Max) :
    n'.Rested now := by
  rw [Node.Rested, stepped.heartbeat]
  split
  · omega
  · rename_i other
    exact rested.resolve_right other

/-! ## Requests -/

/-- The request of a candidate. -/
structure RequestVote.Of (n : Node) (dest : Addr) (msg : RequestVote) : Prop where
  src : msg.src = n.me
  dest : msg.dest = dest
  term : msg.term = n.solid.term
  lastLogIndex : msg.lastLogIndex = n.lastIndex
  lastLogTerm : msg.lastLogTerm = n.lastTerm
  preVote : msg.preVote = n.preVoting

/-- Asking changes nothing but what is remembered of a leadership transfer. -/
theorem requestVoteRpc_eq (candidate : n.state = .candidate) (dest : Addr) :
    ∃ n' msg, n.requestVoteRpc dest = .ok n' ∧ RequestVote.Of n dest msg ∧
      n' = { n with
        leaderTransfer := n'.leaderTransfer
        transferMaxTerm := n'.transferMaxTerm
        effects := n.effects ++ [.send (.requestVote msg)] } := by
  rw [Node.requestVoteRpc, Node.check_of candidate, ok_bind]
  unfold Node.sendRequestVote
  dsimp only
  split
  · exact ⟨_, _, rfl, ⟨rfl, rfl, rfl, rfl, rfl, rfl⟩, rfl⟩
  · exact ⟨_, _, rfl, ⟨rfl, rfl, rfl, rfl, rfl, rfl⟩, rfl⟩

/-- The answer to a request that is neither old nor too early. -/
structure RequestVoteReply.To (n : Node) (msg : RequestVote) (reply : RequestVoteReply) :
    Prop where
  src : reply.src = msg.dest
  dest : reply.dest = msg.src
  term : reply.term = msg.term
  reqTerm : reply.reqTerm = msg.term
  preVote : reply.preVote = msg.preVote
  logOk : reply.logOk = n.logOk msg
  intervalOk : reply.intervalOk = true
  granted : n.solid.term < msg.term → n.logOk msg = true → msg.preVote = false →
    reply.granted = true

/-- A node that has come into the term of a request, and its role. -/
structure Node.Joined (newTerm : ℕ) (n n' : Node) : Prop where
  kept : n.Kept n'
  term : n'.solid.term = newTerm
  state : n'.state = n.state ∨ n'.state = .follower
  heartbeat : n'.lastHeartbeatTimestamp = n.lastHeartbeatTimestamp ∨
    n.lastHeartbeatTimestamp = int64Max ∧ n'.lastHeartbeatTimestamp = 0

theorem Node.Stepped.joined {term : ℕ} (stepped : n.Stepped term n') : n.Joined term n' where
  kept := stepped.kept
  term := stepped.term
  state := .inr stepped.state
  heartbeat := by
    rw [stepped.heartbeat]
    split
    · rename_i leads
      exact .inr ⟨leads, rfl⟩
    · exact .inl rfl

theorem Node.Joined.rested {term : ℕ} (joined : n.Joined term n') (late : electionNs ≤ now)
    (rested : n.Rested now) : n'.Rested now := by
  unfold Node.Rested at rested ⊢
  rcases joined.heartbeat with same | ⟨-, zero⟩
  · rw [same]
    exact rested
  · rw [zero]
    omega

theorem maybeStepDown_eq {term : ℕ} (le : n.solid.term ≤ term) :
    ∃ n', n.maybeStepDown term = .ok n' ∧ n.Joined term n' ∧
      (n.solid.term < term → n'.solid.vote = 0) := by
  unfold Node.maybeStepDown
  split
  · obtain ⟨n', done, stepped⟩ := stepDown_eq le
    exact ⟨n', done, stepped.joined, fun later => stepped.vote (.inl later)⟩
  · rename_i current
    refine ⟨n, rfl, ⟨.refl n, ?_, .inl rfl, .inl rfl⟩, fun later => absurd later current⟩
    exact le_antisymm le (Nat.le_of_not_lt current)

/-- A vote that is free is given, and a pre-vote request leaves it free. -/
theorem maybeVote_eq {msg : RequestVote} (current : n.solid.term = msg.term) (ok : Bool) :
    ∃ n', n.maybeVote msg ok = .ok n' ∧ n.Joined msg.term n' ∧
      (ok = true → n.solid.vote = 0 → msg.preVote = false → n'.solid.vote = msg.src) := by
  unfold Node.maybeVote
  rw [if_pos current.symm]
  split
  · obtain ⟨n₁, done, stepped⟩ := stepDown_eq (n := n) le_rfl
    rw [done, ok_bind]
    have joined : n.Joined msg.term n₁ := by
      rw [← current]
      exact stepped.joined
    dsimp only
    by_cases polls : msg.preVote = true
    · rw [if_pos polls]
      exact ⟨_, rfl, ⟨⟨joined.kept.log, joined.kept.sm, joined.kept.standby⟩, joined.term,
        joined.state, joined.heartbeat⟩, fun _ _ real => absurd polls (by simp [real])⟩
    · rw [if_neg polls]
      exact ⟨_, rfl, ⟨⟨joined.kept.log, joined.kept.sm, joined.kept.standby⟩, joined.term,
        joined.state, joined.heartbeat⟩, fun _ _ _ => rfl⟩
  · rename_i refused
    exact ⟨n, rfl, ⟨.refl n, current, .inl rfl, .inl rfl⟩,
      fun good free _ => absurd ⟨good, free⟩ refused⟩

theorem Node.Joined.trans {term term' : ℕ} (first : n.Joined term n₁)
    (second : n₁.Joined term' n') : n.Joined term' n' where
  kept := first.kept.trans second.kept
  term := second.term
  state := by
    rcases second.state with same | follower
    · rw [same]
      exact first.state
    · exact .inr follower
  heartbeat := by
    rcases first.heartbeat with same | ⟨leads, zero⟩
    · rw [← same]
      exact second.heartbeat
    · rcases second.heartbeat with same | ⟨leads', -⟩
      · exact .inr ⟨leads, same.trans zero⟩
      · rw [zero] at leads'
        simp [int64Max] at leads'

theorem onRequestVote_eq {msg : RequestVote} (started : n.started = true)
    (le : n.solid.term ≤ msg.term) (rested : n.Rested now) :
    ∃ n' reply, n.onRequestVote msg now = .ok n' ∧
      .send (.requestVoteReply reply) ∈ n'.effects ∧ reply.To n msg ∧ n.Joined msg.term n' := by
  have intervalOk : n.intervalOk msg now = true := by
    unfold Node.intervalOk
    rw [show decide (electionNs ≤ now - n.lastHeartbeatTimestamp) = true from
      decide_eq_true rested, Bool.or_true]
  obtain ⟨n₁, down, joined, freed⟩ := maybeStepDown_eq le
  obtain ⟨n₂, voted, joined', given⟩ := maybeVote_eq joined.term (n.logOk msg)
  unfold Node.onRequestVote
  rw [started]
  simp only [Bool.not_true, Bool.false_eq_true, if_false, intervalOk, if_true, down, ok_bind]
  rw [Node.check_of joined.term.ge, ok_bind, voted, ok_bind]
  have both := joined.trans joined'
  refine ⟨_, _, rfl, List.mem_append_right _ (List.mem_singleton_self _), ?_,
    ⟨⟨both.kept.log, both.kept.sm, both.kept.standby⟩, both.term, both.state, both.heartbeat⟩⟩
  refine ⟨rfl, rfl, joined'.term, rfl, rfl, rfl, rfl, fun later good real => ?_⟩
  exact decide_eq_true ⟨joined'.term.symm, given good (freed later) real⟩

/-! ## Candidacies -/

/-- The node stands, in a term and by a real vote or a pre-vote, and nobody has been
asked yet. -/
structure Node.Campaigns (newTerm : ℕ) (polls : Bool) (n n' : Node) : Prop where
  kept : n.Kept n'
  heartbeat : n'.lastHeartbeatTimestamp = n.lastHeartbeatTimestamp
  state : n'.state = .candidate
  term : n'.solid.term = newTerm
  preVoting : n'.preVoting = polls
  vote : polls = false → n'.solid.vote = n'.me
  votes : ∀ q, n'.voteMgr.val q = {}
  asks : ∀ q ∈ n.timerMgr.requestVotes.keys, n'.timerMgr.requestVotes.val q = true

theorem clear_val (votes : VoteManager) (q : Addr) : votes.clear.val q = {} := by
  rw [VoteManager.clear, Table.mapValues_val]
  split <;> rfl

/-- A node without peers leads at once, and any other stands. -/
theorem doRequestVote_eq (n : Node) :
    ∃ n', Node.doRequestVote { n with preVoting := false } = .ok n' ∧
      (n.voteMgr.keys ≠ [] ∧ n.Campaigns (n.solid.term + 1) false n' ∨
        n'.state = .leader ∧ n'.solid.term = n.solid.term + 1 ∧ n.voteMgr.keys = []) := by
  set standing := (Node.becomeCandidate (Node.incrTerm { n with preVoting := false })) with standing_eq
  have own : (standing.setVote standing.me).ifSelfVote = true := decide_eq_true rfl
  unfold Node.doRequestVote
  simp only [← standing_eq, Node.countSelf, own, if_true]
  split
  · rename_i all
    rw [becomeLeader_eq rfl]
    refine ⟨_, rfl, .inr ⟨rfl, rfl, ?_⟩⟩
    rw [List.eq_nil_iff_forall_not_mem]
    intro q mem
    have granted := List.all_eq_true.mp (Bool.and_eq_true_iff.mp all).2 q mem
    have cleared : (n.voteMgr.clear.val q).grant = false := by rw [clear_val]
    exact absurd (granted.symm.trans cleared) (by simp)
  · rename_i missing
    refine ⟨_, rfl, .inl ⟨fun alone => missing (Bool.and_eq_true_iff.mpr ⟨own, ?_⟩),
      ⟨rfl, rfl, rfl⟩, rfl, rfl, rfl, rfl, fun _ => rfl, clear_val n.voteMgr,
      fun q mem => Table.mapValues_val_of_mem n.timerMgr.requestVotes (fun _ => true) mem⟩⟩
    rw [List.all_eq_true]
    intro q mem
    replace mem : q ∈ n.voteMgr.keys := mem
    simp [alone] at mem

/-- An election that is due brings a pre-vote, a candidacy or at once a leader. -/
theorem elect_eq (stands : n.state = .follower ∨ n.state = .candidate)
    (active : n.standby = false) :
    ∃ n', n.elect = .ok n' ∧ (n.peers ≠ [] ∧ n.Campaigns n.solid.term true n' ∨
      n.voteMgr.keys ≠ [] ∧ n.Campaigns (n.solid.term + 1) false n' ∨
        n'.state = .leader ∧ n'.solid.term = n.solid.term + 1 ∧ n.voteMgr.keys = []) := by
  rw [Node.elect, Node.check_of stands, ok_bind, if_neg (by simp [active])]
  split
  · rename_i polls
    exact ⟨_, rfl, .inl ⟨List.length_pos_iff.mp polls.2, ⟨rfl, rfl, rfl⟩, rfl, rfl, rfl, rfl, nofun,
      clear_val n.voteMgr, fun q mem => Table.mapValues_val_of_mem n.timerMgr.requestVotes (fun _ => true) mem⟩⟩
  · obtain ⟨n', done, stood⟩ := doRequestVote_eq n
    exact ⟨n', done, .inr stood⟩

/-! ## Counting -/

/-- What makes an answer count, in a pre-vote or in a vote. -/
def VoteItem.counts (polls : Bool) (item : VoteItem) : Bool :=
  if polls then item.logok && item.intervalOk else item.grant

/-- The candidate has counted one more answer, and it still stands: there are not
enough of them. -/
structure Node.Counted (polls : Bool) (src : Addr) (n n' : Node) : Prop where
  kept : n.Kept n'
  heartbeat : n'.lastHeartbeatTimestamp = n.lastHeartbeatTimestamp
  state : n'.state = n.state
  solid : n'.solid = n.solid
  preVoting : n'.preVoting = n.preVoting
  configMgr : n'.configMgr = n.configMgr
  mine : (n'.voteMgr.val src).counts polls = true
  others : ∀ q, q ≠ src → n'.voteMgr.val q = n.voteMgr.val q
  asks : ∀ q, q ≠ src → n'.timerMgr.requestVotes.val q = n.timerMgr.requestVotes.val q
  short : n'.voteMgr.reaches true (VoteItem.counts polls) = false

/-- An answer that counts. -/
structure RequestVoteReply.Good (n : Node) (msg : RequestVoteReply) : Prop where
  term : msg.term = n.solid.term
  reqTerm : msg.reqTerm = n.solid.term
  preVote : msg.preVote = n.preVoting
  logOk : msg.logOk = true
  intervalOk : msg.intervalOk = true
  granted : n.preVoting = false → msg.granted = true

theorem stopRequestVoteOf_val (timers : TimerManager) {src q : Addr} (ne : q ≠ src) :
    (timers.stopRequestVoteOf src).requestVotes.val q = timers.requestVotes.val q := by
  show (timers.requestVotes.modify src fun _ => false).val q = _
  rw [Table.modify_val, if_neg fun both => ne both.1]

/-- With enough votes the candidate leads. -/
theorem onRealVote_counted {msg : RequestVoteReply} (candidate : n.state = .candidate)
    (own : n.solid.vote = n.me) (granted : msg.granted = true) :
    ∃ n', n.onRealVote msg = .ok n' ∧ (n.Counted false msg.src n' ∨
      n'.state = .leader ∧ n'.solid.term = n.solid.term) := by
  unfold Node.onRealVote
  set voted : Node := { n with
    voteMgr := VoteManager.getVote (n.voteMgr.done msg.src) msg.src
    timerMgr := n.timerMgr.stopRequestVoteOf msg.src } with voted_eq
  have self : voted.ifSelfVote = true := decide_eq_true own
  rw [if_pos granted]
  simp only [← voted_eq, Node.countSelf, self, if_true]
  split
  · rw [becomeLeader_eq (by exact candidate)]
    exact ⟨_, rfl, .inr ⟨rfl, rfl⟩⟩
  · rename_i missing
    refine ⟨_, rfl, .inl ⟨⟨rfl, rfl, rfl⟩, rfl, rfl, rfl, rfl, rfl, ?_, fun q ne => ?_, fun q ne => ?_,
      ?_⟩⟩
    · show (((n.voteMgr.done msg.src).getVote msg.src).val msg.src).grant = true
      rw [VoteManager.getVote, Table.set_val_self]
    · show ((n.voteMgr.done msg.src).getVote msg.src).val q = n.voteMgr.val q
      rw [VoteManager.getVote, Table.set_val_of_ne _ ne, VoteManager.done, Table.set_val_of_ne _ ne]
    · exact stopRequestVoteOf_val n.timerMgr ne
    · rw [Bool.eq_false_iff]
      intro reached
      refine missing ⟨?_, candidate⟩
      show voted.voteMgr.majority voted.ifSelfVote = true
      rw [self]
      exact reached

/-- With enough pre-votes the candidate stands for a real vote. -/
theorem onPreVote_counted {msg : RequestVoteReply} (candidate : n.state = .candidate)
    (polls : n.preVoting = true) (logOk : msg.logOk = true) (intervalOk : msg.intervalOk = true) :
    ∃ n', n.onPreVote msg = .ok n' ∧ (n.Counted true msg.src n' ∨
      n.Campaigns (n.solid.term + 1) false n' ∨ n'.state = .leader ∧ n'.solid.term = n.solid.term + 1) := by
  unfold Node.onPreVote
  set noted : Node := { n with
    voteMgr := VoteManager.intervalOK (n.voteMgr.logOK msg.src) msg.src
    timerMgr := n.timerMgr.stopRequestVoteOf msg.src } with noted_eq
  simp only [logOk, intervalOk, if_true, ← noted_eq]
  split
  · obtain ⟨n', done, stood⟩ := doRequestVote_eq noted
    refine ⟨n', done, .inr ?_⟩
    rcases stood with ⟨-, stood⟩ | ⟨leads, term, -⟩
    · have keys : noted.timerMgr.requestVotes.keys = n.timerMgr.requestVotes.keys :=
        Table.modify_keys _ _ _
      exact .inl { stood with
        kept := ⟨stood.kept.log, stood.kept.sm, stood.kept.standby⟩
        asks := fun q mem => stood.asks q (keys ▸ mem) }
    · exact .inr ⟨leads, term⟩
  · rename_i missing
    refine ⟨noted, rfl, .inl ⟨⟨rfl, rfl, rfl⟩, rfl, rfl, rfl, rfl, rfl, ?_, fun q ne => ?_,
      fun q ne => ?_, ?_⟩⟩
    · show ((((n.voteMgr.logOK msg.src).intervalOK msg.src).val msg.src).logok &&
        (((n.voteMgr.logOK msg.src).intervalOK msg.src).val msg.src).intervalOk) = true
      simp [VoteManager.intervalOK, VoteManager.logOK]
    · show ((n.voteMgr.logOK msg.src).intervalOK msg.src).val q = n.voteMgr.val q
      rw [VoteManager.intervalOK, Table.set_val_of_ne _ ne, VoteManager.logOK,
        Table.set_val_of_ne _ ne]
    · exact stopRequestVoteOf_val n.timerMgr ne
    · rw [Bool.eq_false_iff]
      exact fun reached => missing ⟨trivial, reached, candidate, polls⟩

/-- What a good answer does to a candidate: it is counted, or it ends the vote. -/
theorem onRequestVoteReply_eq {msg : RequestVoteReply} (started : n.started = true)
    (candidate : n.state = .candidate) (own : n.preVoting = false → n.solid.vote = n.me)
    (good : msg.Good n) :
    ∃ n', n.onRequestVoteReply msg = .ok n' ∧ (n.Counted n.preVoting msg.src n' ∨
      n.preVoting = true ∧ n.Campaigns (n.solid.term + 1) false n' ∨
        n'.state = .leader ∧ n.solid.term ≤ n'.solid.term) := by
  unfold Node.onRequestVoteReply
  rw [started]
  simp only [Bool.not_true, Bool.false_eq_true, if_false]
  rw [if_neg good.term.not_lt, if_neg (not_not.mpr good.reqTerm), if_neg good.term.not_gt,
    Node.check_of good.term, ok_bind, good.preVote]
  cases polls : n.preVoting with
  | false =>
      obtain ⟨n', done, counted | ⟨leads, term⟩⟩ := onRealVote_counted candidate (own polls)
        (good.granted polls)
      · exact ⟨n', done, .inl counted⟩
      · exact ⟨n', done, .inr (.inr ⟨leads, term.ge⟩)⟩
  | true =>
      obtain ⟨n', done, counted | stands | ⟨leads, term⟩⟩ := onPreVote_counted candidate polls good.logOk
        good.intervalOk
      · exact ⟨n', done, .inl counted⟩
      · exact ⟨n', done, .inr (.inl ⟨rfl, stands⟩)⟩
      · exact ⟨n', done, .inr (.inr ⟨leads, by omega⟩)⟩

end Answers

end Vraft
