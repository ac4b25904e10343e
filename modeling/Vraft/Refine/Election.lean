import Vraft.Refine.LogWrites

/-!
# Elections refine the protocol

Every function on the election path moves the abstract protocol: stepping down
adopts a term, standing for election stands, giving a vote grants it, and
becoming leader wins the term unless the node has already won it before a
restart.
-/

namespace Vraft

open Consensus (AsUpToDate Inv Solicited Steps)

section Election

variable {m : Membership} {meets : m.Intersecting} {o : Origin m meets} {a a' : Ghost} {n : Node}

/-! ## Abstract moves of the election -/

theorem moves_adopt {p : Addr} {t : ℕ} (later : a.term p < t) :
    Moves m meets p a (a.adopt p t) :=
  Moves.single (.adopt p t later) fun q ne =>
    ⟨by simp [Consensus.State.adopt, ne], by simp [Consensus.State.adopt, ne], rfl⟩

theorem moves_stand (p : Addr) : Moves m meets p a (a.stand p) :=
  Moves.single (.stand p) fun q ne =>
    ⟨by simp [Consensus.State.stand, Consensus.State.adopt, Consensus.State.cast, ne],
      by simp [Consensus.State.stand, Consensus.State.adopt, Consensus.State.cast, ne], rfl⟩

theorem moves_grant {p c : Addr} {index term : ℕ}
    (solicited : Solicited AppendEntry.term a (a.term p) c index term) (free : a.vote p = none)
    (current : AsUpToDate AppendEntry.term index term (a.log p)) :
    Moves m meets p a (a.cast p c) :=
  Moves.single (.grant p c index term solicited free current) fun q ne =>
    ⟨rfl, by simp [Consensus.State.cast, ne], rfl⟩

theorem moves_ack {p : Addr} {count : ℕ} (bound : count ≤ (a.tlog (a.term p)).length)
    (holds : (a.tlog (a.term p)).take count <+: a.log p) : Moves m meets p a (a.ack p count) :=
  Moves.single (.ack p count bound holds) fun _ _ => ⟨rfl, rfl, rfl⟩

/-- A node that has collected a quorum of ballots leads its term and has
acknowledged its own log.  It may win a term twice, with a restart in between. -/
theorem moves_win {p : Addr} (inv : Inv AppendEntry.term (m.quorums meets) a)
    {voters : Finset Addr} (quorum : (m.quorums meets).vote voters)
    (granted : ∀ q ∈ voters, ∃ log, a.ballot (a.term p) q = some (p, log)) :
    ∃ a', Moves m meets p a a' ∧ Same p a a' ∧ a'.leader (a'.term p) = some p ∧
      (a'.log p).length ≤ a'.acked (a'.term p) p := by
  obtain ⟨b, moves, same, leads⟩ : ∃ b, Moves m meets p a b ∧ Same p a b ∧
      b.leader (b.term p) = some p := by
    cases led : a.leader (a.term p) with
    | none =>
        refine ⟨a.elect p, Moves.single (.elect p voters quorum granted led)
          fun _ _ => ⟨rfl, rfl, rfl⟩, ⟨rfl, rfl, rfl⟩, ?_⟩
        exact Consensus.elect_leader_self
    | some d =>
        obtain rfl := inv.leader_unique led quorum granted
        exact ⟨a, Moves.refl _ _, Same.refl _ _, led⟩
  have log_eq := (inv.steps moves.steps).logs.leader_log leads rfl
  refine ⟨b.ack p (b.log p).length, moves.trans (moves_ack ?_ ?_),
    same.trans ⟨rfl, rfl, rfl⟩, leads, ?_⟩
  · rw [← log_eq]
  · rw [← log_eq]
    exact List.take_prefix _ _
  · simp [Consensus.State.ack]

/-! ## Stepping down -/

theorem stepDown_ends (at_ : At o a n) {newTerm : ℕ} (le : n.solid.term ≤ newTerm) :
    Ends o (n.stepDown newTerm) fun a' n' =>
      n'.solid.term = newTerm ∧ n'.state = .follower ∧ n'.log = n.log ∧ n'.sm = n.sm ∧
        (n.solid.term = newTerm → a' = a ∧ n'.solid = n.solid) := by
  rw [Node.stepDown, Node.check_of le, ok_bind]
  by_cases later : n.solid.term < newTerm
  · simp only [if_pos later]
    have moves : Moves m meets o.p a (a.adopt o.p newTerm) :=
      moves_adopt (by rw [← at_.term_eq]; exact later)
    have stored : Stored m meets (a.adopt o.p newTerm) o.p (o.hist ++ n.effects)
        { n.disk with term := newTerm, vote := 0 } :=
      at_.live.toStored.revote at_.inv moves.steps (by simp [Consensus.State.adopt])
        (by simp [Consensus.State.adopt]) rfl
    refine Ends.ok (a := a.adopt o.p newTerm) ?_
      ⟨rfl, rfl, rfl, rfl, fun same => absurd same later.ne⟩
    refine at_.write moves (unbroken_termVote newTerm 0) (by simp [Node.setVote, Node.setTerm, Node.emit])
      rfl rfl (by simp [EffectOk]) ?_
    exact at_.live.follower at_.inv moves.steps stored rfl 0 (by simp)
  · simp only [if_neg later]
    refine Ends.ok (a := a) ?_
      ⟨by simp only; omega, rfl, rfl, rfl, fun _ => ⟨rfl, rfl⟩⟩
    exact at_.quiet rfl rfl
      (at_.live.follower at_.inv .refl at_.live.toStored rfl _ at_.live.follows)

theorem maybeStepDown_ends (at_ : At o a n) (newTerm : ℕ) :
    Ends o (n.maybeStepDown newTerm) fun _ n' =>
      newTerm ≤ n'.solid.term ∧ n'.log = n.log ∧ n'.sm = n.sm := by
  rw [Node.maybeStepDown]
  split
  · rename_i later
    refine (stepDown_ends at_ later.le).weaken ?_
    rintro a n - ⟨term_eq, -, log_eq, sm_eq, -⟩
    exact ⟨term_eq.ge, log_eq, sm_eq⟩
  · rename_i current
    exact Ends.ok at_ ⟨by omega, rfl, rfl⟩

theorem onTimeoutNow_ends (at_ : At o a n) (msg : TimeoutNow) :
    Settles o (n.onTimeoutNow msg) := by
  unfold Node.onTimeoutNow
  split
  · exact Settles.ok at_
  · refine Ends.bind (maybeStepDown_ends (a := a) ?_ msg.term) ?_
    · exact at_
    rintro a n at_ ⟨le, -, -⟩
    rw [Node.check_of le, ok_bind]
    split
    · exact Settles.ok at_
    · split <;> exact Settles.ok (a := a) at_

/-! ## Standing and winning -/

/-- The tables of a new leader: nothing is known to match, and every peer is
sent what follows the leader's log. -/
theorem At.lead (at_ : At o a n) (leads : a.leader (a.term o.p) = some o.p)
    (owns : (a.log o.p).length ≤ a.acked (a.term o.p) o.p) :
    At o a { n with
      state := .leader
      leader := n.me
      indexMgr := (n.indexMgr.resetNext (n.lastIndex + 1)).resetMatch 0 } := by
  have keys : ∀ {q}, q ∈ m.peersOf o.p → q ∈ n.indexMgr.keys := by
    intro q mem
    rw [show n.indexMgr.keys = m.peersOf o.p from at_.live.indicesOf]
    exact mem
  have item : ∀ {q}, q ∈ m.peersOf o.p →
      ((n.indexMgr.resetNext (n.lastIndex + 1)).resetMatch 0).val q =
        ⟨(a.log o.p).length + 1, 0⟩ := by
    intro q mem
    have next_mem : q ∈ (n.indexMgr.resetNext (n.lastIndex + 1)).keys := keys mem
    rw [IndexManager.resetMatch, Table.mapValues_val_of_mem _ _ next_mem,
      IndexManager.resetNext, Table.mapValues_val_of_mem _ _ (keys mem), at_.lastIndex_eq]
  exact at_.quiet rfl rfl { at_.live with
    indicesOf := at_.live.indicesOf
    leads := fun _ => leads
    owns := fun _ => owns
    stands := fun candidate => absurd candidate (by simp [Node.view])
    follows := fun _ => leads.trans (congrArg some at_.me_eq.symm)
    grants := fun candidate => absurd candidate (by simp [Node.view])
    match_le := fun _ q mem => (congrArg IndexItem.match_ (item mem)).le.trans (Nat.zero_le _)
    next_pos := fun _ q mem => (congrArg IndexItem.next (item mem)).ge.trans' (Nat.le_add_left _ _)
    next_le := fun _ q mem => (congrArg IndexItem.next (item mem)).le }

theorem becomeLeader_ends (at_ : At o a n) (candidate : n.state = .candidate)
    {v : Finset Addr} (quorum : (m.quorums meets).vote v)
    (granted : ∀ q ∈ v, ∃ log, a.ballot (a.term o.p) q = some (o.p, log)) :
    Settles o n.becomeLeader := by
  obtain ⟨b, moves, same, leads, owns⟩ := moves_win at_.inv quorum granted
  have leading := (at_.shift moves same).lead leads owns
  rw [Node.becomeLeader]
  simp only [Node.check, candidate, if_true, ok_bind]
  have announced := leading.emit (e := .becomeLeader n.solid.term)
    (by rw [EffectOk, at_.term_eq, ← same.term]; exact leads) rfl rfl
  exact (appendOne_leader announced rfl ⟨n.solid.term, .noop, Node.noopValue⟩ rfl
    (Or.inr rfl)).weaken fun _ _ => trivial

/-- A real candidacy, whether or not a pre-vote came before it. -/
theorem doRequestVote_ends (at_ : At o a n) :
    Settles o (Node.doRequestVote { n with preVoting := false }) := by
  have moves : Moves m meets o.p a (a.stand o.p) := moves_stand o.p
  have nonzero := m.ne_zero_of_mem o.mem
  set real : Node := { n with preVoting := false } with real_eq
  have stood : At o (a.stand o.p) ((real.incrTerm.becomeCandidate).setVote o.p) := by
    have stored : Stored m meets (a.stand o.p) o.p (o.hist ++ n.effects)
        { n.disk with term := n.solid.term + 1, vote := o.p } :=
      at_.live.toStored.revote at_.inv moves.steps
        (by simp [Consensus.State.stand, Consensus.State.adopt, Consensus.State.cast, at_.term_eq])
        (by simp [Consensus.State.stand, Consensus.State.cast, nonzero]) rfl
    refine at_.write moves (unbroken_termVote (n.solid.term + 1) o.p)
      (by simp [real_eq, Node.setVote, Node.incrTerm, Node.becomeCandidate, Node.setTerm,
        Node.emit])
      rfl rfl (by simp [EffectOk]) ?_
    refine at_.live.candidate at_.inv moves.steps stored rfl false fun _ => ?_
    simp [Consensus.State.stand, Consensus.State.cast]
  have me_eq : real.incrTerm.becomeCandidate.me = o.p := at_.me_eq
  have selfVote : ((real.incrTerm.becomeCandidate).setVote o.p).ifSelfVote = true := by
    simp only [Node.ifSelfVote, decide_eq_true_eq]
    exact me_eq.symm
  have counted := stood.emit (e := .countSelf (n.solid.term + 1) n.me) trivial rfl rfl
  rw [Node.doRequestVote]
  simp only [me_eq, Node.countSelf, selfVote, if_true]
  split
  · rename_i all
    have alone : m.peersOf o.p = [] := by
      rw [← at_.live.votesOf, List.eq_nil_iff_forall_not_mem]
      intro q mem
      have granted := (List.all_eq_true.mp (Bool.and_eq_true_iff.mp all).2) q mem
      have cleared : ((n.voteMgr.clear).val q).grant = false := by
        rw [VoteManager.clear, Table.mapValues_val_of_mem n.voteMgr _ mem]
      exact absurd (granted.symm.trans cleared) (by simp)
    have size_eq : m.size = 1 := by
      rw [← Membership.length_peersOf o.mem, alone]
      rfl
    refine becomeLeader_ends counted rfl (v := {o.p}) ⟨?_, ?_, Or.inr size_eq.le⟩ ?_
    · simpa using o.mem
    · simp [size_eq]
    · intro q mem
      obtain rfl := Finset.mem_singleton.mp mem
      exact ⟨_, Consensus.ballot_cast_self⟩
  · exact Settles.ok (a := a.stand o.p) counted

theorem doPreVote_at (at_ : At o a n) : At o a (Node.doPreVote { n with preVoting := true }) :=
  at_.quiet rfl rfl (at_.live.candidate at_.inv .refl at_.live.toStored rfl true
    (by simp))

theorem elect_ends (at_ : At o a n) : Settles o n.elect := by
  unfold Node.elect
  refine Ends.guard at_ (Or.inl rfl) fun _ => ?_
  split
  · exact Settles.ok (a := a) at_
  · split
    · exact Settles.ok (doPreVote_at at_)
    · exact doRequestVote_ends at_

/-! ## Votes -/

theorem requestVoteRpc_ends (at_ : At o a n) {dest : Addr} (ne : dest ≠ o.p) :
    Settles o (n.requestVoteRpc dest) := by
  unfold Node.requestVoteRpc
  refine Ends.guard at_ (Or.inr (Or.inl rfl)) fun candidate => ?_
  refine Settles.ok (a := a) ?_
  have solicited : n.preVoting = false →
      Solicited AppendEntry.term a n.solid.term n.me n.lastIndex n.lastTerm := by
    intro real
    have vote_eq := at_.inv.votes.vote_eq o.p
    rw [at_.live.stands candidate real] at vote_eq
    obtain ⟨⟨c, log⟩, cast, rfl⟩ := Option.map_eq_some_iff.mp vote_eq.symm
    rw [at_.term_eq, at_.me_eq, at_.lastIndex_eq, at_.lastTerm_eq]
    refine ⟨log, cast, fun vacant => ?_⟩
    rw [at_.inv.logs.candidate_log vacant cast rfl]
    exact ⟨rfl, rfl⟩
  have ok : n.me ≠ dest ∧ (n.preVoting = false →
      Solicited AppendEntry.term a n.solid.term n.me n.lastIndex n.lastTerm) :=
    ⟨by rw [at_.me_eq]; exact ne.symm, solicited⟩
  unfold Node.sendRequestVote
  dsimp only
  split
  · exact at_.send at_.me_eq ok
  · exact At.send (n := { n with leaderTransfer := false, transferMaxTerm := 0 }) at_ at_.me_eq ok

/-- The vote goes to a candidate whose log is good enough. -/
theorem maybeVote_ends (at_ : At o a n) {msg : RequestVote} {ok : Bool} (src : msg.src ≠ 0)
    (upToDate : ok = true →
      AsUpToDate AppendEntry.term msg.lastLogIndex msg.lastLogTerm (a.log o.p))
    (solicited : msg.preVote = false →
      Solicited AppendEntry.term a msg.term msg.src msg.lastLogIndex msg.lastLogTerm) :
    Settles o (n.maybeVote msg ok) := by
  unfold Node.maybeVote
  split
  · rename_i current
    split
    · rename_i free
      refine Ends.bind (stepDown_ends at_ le_rfl) ?_
      rintro b n' at' ⟨-, follower, -, -, same⟩
      obtain ⟨rfl, solid_eq⟩ := same rfl
      dsimp only
      by_cases real : msg.preVote = true
      · rw [if_pos real]
        exact Settles.ok (a := b) at'
      · rw [if_neg real]
        have real : msg.preVote = false := by simpa using real
        have term_eq : msg.term = b.term o.p := current.trans at_.term_eq
        have unused : b.vote o.p = none := by
          rw [at_.live.vote]
          exact if_pos free.2
        have moves : Moves m meets o.p b (b.cast o.p msg.src) :=
          moves_grant (term_eq ▸ solicited real) unused (upToDate free.1)
        have stored : Stored m meets (b.cast o.p msg.src) o.p (o.hist ++ n'.effects)
            { n'.disk with vote := msg.src } :=
          at'.live.toStored.revote at'.inv moves.steps at'.term_eq.symm
            (by simp [Consensus.State.cast, src]) rfl
        have live := at'.live.follower at'.inv moves.steps stored rfl _ at'.live.follows
        rw [show State.follower = n'.view.state from follower.symm] at live
        refine Settles.ok (a := b.cast o.p msg.src) ?_
        exact at'.write moves (unbroken_singleton (.persistVote msg.src)) rfl rfl rfl
          (by simp [EffectOk]) live
    · exact Settles.ok at_
  · exact Settles.ok at_

theorem At.upToDate (at_ : At o a n) {msg : RequestVote} (ok : n.logOk msg = true) :
    AsUpToDate AppendEntry.term msg.lastLogIndex msg.lastLogTerm (a.log o.p) := by
  simp only [Node.logOk, logOkOn, Bool.or_eq_true, Bool.and_eq_true, decide_eq_true_eq] at ok
  rw [at_.lastTerm_eq, at_.lastIndex_eq] at ok
  exact ok.imp_right fun same => ⟨same.1.symm, same.2⟩

theorem Node.logOk_congr {n' : Node} (log_eq : n'.log = n.log) (sm_eq : n'.sm = n.sm)
    (msg : RequestVote) : n'.logOk msg = n.logOk msg := by
  have lastTerm_eq : n'.lastTerm = n.lastTerm := by
    unfold Node.lastTerm Node.smLast
    rw [log_eq, sm_eq]
  have lastIndex_eq : n'.lastIndex = n.lastIndex := by
    simp only [Node.lastIndex, Node.smLast, log_eq, sm_eq]
  rw [Node.logOk, Node.logOk, lastTerm_eq, lastIndex_eq]

theorem onRequestVote_ends (at_ : At o a n) {msg : RequestVote} (now : ℤ)
    (src : msg.src ∈ m.members) (dest : msg.dest = o.p)
    (sent : MessageOk m meets o.ghost (.requestVote msg)) :
    Settles o (n.onRequestVote msg now) := by
  have ne : msg.dest ≠ msg.src := sent.1.symm
  unfold Node.onRequestVote
  split
  · exact Settles.ok at_
  · dsimp only
    split
    · refine Ends.bind (maybeStepDown_ends at_ msg.term) ?_
      rintro b n₁ at₁ ⟨le, log_eq, sm_eq⟩
      rw [Node.check_of le, ok_bind]
      refine Ends.bind (maybeVote_ends at₁ (m.ne_zero_of_mem src) ?_ ?_) ?_
      · intro ok
        rw [← Node.logOk_congr log_eq sm_eq] at ok
        exact at₁.upToDate ok
      · intro real
        exact solicited_mono at₁.extends (sent.2 real)
      · rintro d n₂ at₂ -
        refine Settles.ok (a := d) (at₂.send dest ⟨ne, fun granted real => ?_⟩)
        obtain ⟨term_eq, vote_eq⟩ := of_decide_eq_true granted
        have vote : d.vote o.p = some msg.src := by
          rw [at₂.live.vote]
          show (if n₂.solid.vote = 0 then none else some n₂.solid.vote) = _
          rw [vote_eq, if_neg (m.ne_zero_of_mem src)]
        rw [at₂.inv.votes.vote_eq] at vote
        obtain ⟨⟨c, log⟩, cast, rfl⟩ := Option.map_eq_some_iff.mp vote
        refine ⟨log, ?_⟩
        show d.ballot msg.term msg.dest = _
        rw [term_eq, dest, at₂.term_eq]
        exact cast
    · exact Settles.ok (a := a) (at_.send dest ⟨ne, by simp⟩)

/-! ## Replies -/

/-- New entries in the tally, each grant backed by a ballot. -/
theorem At.tally (at_ : At o a n) {votes : VoteManager} (keys : votes.keys = m.peersOf o.p)
    (granted : n.state = .candidate → ∀ q ∈ m.peersOf o.p, (votes.val q).grant = true →
      ∃ log, a.ballot (a.term o.p) q = some (o.p, log)) :
    At o a { n with voteMgr := votes } :=
  at_.quiet rfl rfl { at_.live with votesOf := keys, grants := granted }

/-- Marks that are not grants. -/
theorem At.mark (at_ : At o a n) {q : Addr} (mem : q ∈ m.peersOf o.p) {item : VoteItem}
    (grant_eq : item.grant = (n.voteMgr.val q).grant) :
    At o a { n with voteMgr := n.voteMgr.set q item } := by
  have keys : n.voteMgr.keys = m.peersOf o.p := at_.live.votesOf
  refine at_.tally ((Table.set_keys_of_mem _ (keys ▸ mem) _).trans keys) ?_
  intro candidate r memR granted
  by_cases same : r = q
  · subst same
    rw [Table.set_val_self, grant_eq] at granted
    exact at_.live.grants candidate r memR granted
  · rw [Table.set_val_of_ne _ same] at granted
    exact at_.live.grants candidate r memR granted

/-- The vote of a peer that has cast a ballot for this node. -/
theorem At.granted (at_ : At o a n) {q : Addr} (mem : q ∈ m.peersOf o.p)
    {log : List AppendEntry} (cast : a.ballot (a.term o.p) q = some (o.p, log)) :
    At o a { n with voteMgr := n.voteMgr.getVote q } := by
  have keys : n.voteMgr.keys = m.peersOf o.p := at_.live.votesOf
  refine at_.tally ((Table.set_keys_of_mem _ (keys ▸ mem) _).trans keys) ?_
  intro candidate r memR granted
  by_cases same : r = q
  · subst same
    exact ⟨log, cast⟩
  · rw [VoteManager.getVote, Table.set_val_of_ne _ same] at granted
    exact at_.live.grants candidate r memR granted

/-- A majority in the tally is a quorum of ballots.  Whoever has a ballot of a
peer has stood, so the own ballot is always among them. -/
theorem At.quorum_of_majority (at_ : At o a n) (candidate : n.state = .candidate) {q : Addr}
    (mem : q ∈ m.peersOf o.p) (granted : (n.voteMgr.val q).grant = true) {selfVote : Bool}
    (majority : n.voteMgr.majority selfVote = true) :
    ∃ voters, (m.quorums meets).vote voters ∧
      ∀ r ∈ voters, ∃ log, a.ballot (a.term o.p) r = some (o.p, log) := by
  have keys : n.voteMgr.keys = m.peersOf o.p := at_.live.votesOf
  set granters := n.voteMgr.keys.toFinset.filter fun k => (n.voteMgr.val k).grant = true
    with granters_eq
  have fresh : o.p ∉ granters := by
    simp [granters_eq, keys, Membership.mem_peersOf]
  have mem_granters : q ∈ granters := by
    simp only [granters_eq, Finset.mem_filter, List.mem_toFinset, keys]
    exact ⟨mem, granted⟩
  have card_eq : (insert o.p granters).card = granters.card + 1 :=
    Finset.card_insert_of_notMem fresh
  have enough : (m.size + 1) / 2 ≤ granters.card + 1 := by
    have reached := of_decide_eq_true majority
    have count_eq : n.voteMgr.count (fun item => item.grant) = granters.card :=
      Table.count_eq_card _ _
    rw [count_eq, keys, Membership.length_peersOf o.mem] at reached
    have self_le : (if selfVote then 1 else 0) ≤ 1 := by split <;> omega
    omega
  have positive : 0 < granters.card := Finset.card_pos.mpr ⟨q, mem_granters⟩
  refine ⟨insert o.p granters, ⟨?_, by omega, Or.inl (by omega)⟩, ?_⟩
  · intro r memR
    rcases Finset.mem_insert.mp memR with rfl | memR
    · simpa using o.mem
    · simp only [granters_eq, Finset.mem_filter, List.mem_toFinset, keys] at memR
      simpa using (Membership.mem_peersOf.mp memR.1).1
  · intro r memR
    rcases Finset.mem_insert.mp memR with rfl | memR
    · obtain ⟨log, cast⟩ := at_.live.grants candidate q mem granted
      exact at_.inv.votes.stood cast
    · simp only [granters_eq, Finset.mem_filter, List.mem_toFinset, keys] at memR
      exact at_.live.grants candidate r memR.1 memR.2

theorem onRealVote_ends (at_ : At o a n) {msg : RequestVoteReply}
    (src : msg.src ∈ m.peersOf o.p)
    (ballot : msg.granted = true → ∃ log, a.ballot (a.term o.p) msg.src = some (o.p, log)) :
    Settles o (n.onRealVote msg) := by
  unfold Node.onRealVote
  dsimp only
  have done : At o a { n with
      voteMgr := n.voteMgr.done msg.src
      timerMgr := n.timerMgr.stopRequestVoteOf msg.src } := at_.mark src rfl
  split
  · rename_i isGranted
    obtain ⟨log, cast⟩ := ballot isGranted
    have noted := done.granted src cast
    set voted : Node := { n with
      voteMgr := VoteManager.getVote (n.voteMgr.done msg.src) msg.src
      timerMgr := n.timerMgr.stopRequestVoteOf msg.src } with voted_eq
    have counted : At o a voted.countSelf := by
      unfold Node.countSelf
      split
      · exact noted.emit trivial rfl rfl
      · exact noted
    have isNoted : (voted.voteMgr.val msg.src).grant = true := by
      simp [voted_eq, VoteManager.getVote]
    have votes_eq : voted.countSelf.voteMgr = voted.voteMgr := by
      unfold Node.countSelf
      split <;> rfl
    split
    · rename_i won
      obtain ⟨voters, quorum, cast⟩ := counted.quorum_of_majority won.2 src
        (by rw [votes_eq]; exact isNoted) won.1
      exact becomeLeader_ends counted won.2 quorum cast
    · exact Settles.ok (a := a) counted
  · exact Settles.ok done

theorem onPreVote_ends (at_ : At o a n) {msg : RequestVoteReply}
    (src : msg.src ∈ m.peersOf o.p) : Settles o (n.onPreVote msg) := by
  unfold Node.onPreVote
  dsimp only
  set stopped : Node := { n with timerMgr := n.timerMgr.stopRequestVoteOf msg.src } with stopped_eq
  have at₀ : At o a stopped := at_
  set logged : Node :=
    if msg.logOk then { stopped with voteMgr := stopped.voteMgr.logOK msg.src } else stopped
    with logged_eq
  have at₁ : At o a logged := by
    rw [logged_eq]
    split
    · exact at₀.mark src rfl
    · exact at₀
  set timed : Node :=
    if msg.intervalOk then { logged with voteMgr := logged.voteMgr.intervalOK msg.src } else logged
    with timed_eq
  have at₂ : At o a timed := by
    rw [timed_eq]
    split
    · exact at₁.mark src rfl
    · exact at₁
  split
  · exact doRequestVote_ends at₂
  · exact Settles.ok at₂

theorem onRequestVoteReply_ends (at_ : At o a n) {msg : RequestVoteReply}
    (src : msg.src ∈ m.members) (dest : msg.dest = o.p)
    (sent : MessageOk m meets o.ghost (.requestVoteReply msg)) :
    Settles o (n.onRequestVoteReply msg) := by
  have peer : msg.src ∈ m.peersOf o.p :=
    Membership.mem_peersOf.mpr ⟨src, fun same => sent.1 (same.trans dest.symm)⟩
  unfold Node.onRequestVoteReply
  split
  · exact Settles.ok at_
  split
  · exact Settles.ok at_
  split
  · exact Settles.ok at_
  split
  · rename_i later
    exact (stepDown_ends at_ later.le).weaken fun _ _ => trivial
  · rename_i _ notOlder current notLater
    rw [Node.check_of (by omega), ok_bind]
    split
    · exact onPreVote_ends at_ peer
    · rename_i real
      refine onRealVote_ends at_ peer fun granted => ?_
      obtain ⟨log, cast⟩ := sent.2 granted (by simpa using real)
      refine ⟨log, at_.extends.ballot ?_⟩
      rw [← at_.term_eq, ← not_not.mp current, ← dest]
      exact cast

end Election

end Vraft
