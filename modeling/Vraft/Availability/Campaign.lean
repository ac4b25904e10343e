import Vraft.Availability.Group

/-!
# Winning an election

A member of a majority that nobody in the group is ahead of asks one member after
the other.  Each answer is counted, and once all of them have been, there are enough
of them: a pre-vote leads to a real vote in the next term, and that to a leader.
-/

namespace Vraft

/-- A candidate whose answers from `rest` are still outstanding. -/
structure Standing (m : Membership) (group : Finset Addr) (now : ℤ) (p : Addr) (inTerm : ℕ)
    (polls : Bool) (rest : List Addr) (s : Cluster) : Prop where
  reachable : s.Reachable m Cluster.Whole
  candidate : (s.node p).state = .candidate
  term : (s.node p).solid.term = inTerm
  preVoting : (s.node p).preVoting = polls
  own : polls = false → (s.node p).solid.vote = p
  asks : ∀ q ∈ rest, (s.node p).timerMgr.requestVotes.val q = true
  rest_sub : ∀ q ∈ rest, q ∈ group ∧ q ≠ p
  nodup : rest.Nodup
  terms : ∀ q ∈ group, (s.node q).solid.term ≤ inTerm
  fresh : polls = false → ∀ q ∈ rest, (s.node q).solid.term < inTerm
  rested : ∀ q ∈ group, q ≠ p → (s.node q).Rested now
  behind : ∀ q ∈ group, (s.node q).Behind (s.node p)
  counted : ∀ q ∈ group, q ≠ p → q ∉ rest → ((s.node p).voteMgr.val q).counts polls = true
  short : (s.node p).voteMgr.reaches true (VoteItem.counts polls) = false

/-- A leader whose term is not behind that of any member of the group. -/
structure Leading (group : Finset Addr) (p : Addr) (s : Cluster) : Prop where
  leader : (s.node p).state = .leader
  terms : ∀ q ∈ group, (s.node q).solid.term ≤ (s.node p).solid.term

section Campaign

variable {m : Membership} {group : Finset Addr} {now : ℤ} {s s' : Cluster} {p q : Addr}
  {term : ℕ} {polls : Bool} {rest : List Addr}

/-! ## Counting answers -/

/-- Nobody has answered yet. -/
theorem reaches_of_clear {votes : VoteManager} (clear : ∀ q, votes.val q = {})
    (keys : 2 ≤ votes.keys.length) (polls : Bool) :
    votes.reaches true (VoteItem.counts polls) = false := by
  have none_ : votes.count (VoteItem.counts polls) = 0 := by
    refine List.countP_eq_zero.mpr fun q _ => ?_
    rw [clear q]
    cases polls <;> simp [VoteItem.counts]
  rw [VoteManager.reaches, none_, decide_eq_false_iff_not]
  simp only [if_true]
  omega

/-- All members of the group have answered. -/
theorem reaches_of_all (maj : Majority m group now) (memP : p ∈ group) {votes : VoteManager}
    (keys : votes.keys = m.peersOf p)
    (all : ∀ q ∈ group, q ≠ p → (votes.val q).counts polls = true) :
    votes.reaches true (VoteItem.counts polls) = true := by
  have peers := m.length_peersOf (maj.mem memP)
  have sub : group.erase p ⊆
      votes.keys.toFinset.filter fun q => (votes.val q).counts polls = true := by
    intro q mem
    obtain ⟨ne, mem⟩ := Finset.mem_erase.mp mem
    refine Finset.mem_filter.mpr ⟨?_, all q mem ne⟩
    rw [List.mem_toFinset, keys]
    exact maj.peer mem ne
  have enough := Finset.card_le_card sub
  rw [Finset.card_erase_of_mem memP, ← Table.count_eq_card] at enough
  have more := maj.more
  have card_pos := Finset.card_pos.mpr ⟨p, memP⟩
  rw [VoteManager.reaches, keys, decide_eq_true_eq, peers]
  simp only [if_true]
  omega

/-- With an odd number of members a candidate that has a peer has two. -/
theorem Majority.two_peers (maj : Majority m group now) (memP : p ∈ group)
    (some_ : m.peersOf p ≠ []) : 2 ≤ (m.peersOf p).length := by
  have peers := m.length_peersOf (maj.mem memP)
  have positive := List.length_pos_iff.mpr some_
  obtain ⟨k, odd⟩ := maj.odd
  omega

/-! ## Asking -/

/-- A candidacy that has just begun. -/
theorem Standing.begin (maj : Majority m group now) (memP : p ∈ group)
    (reachable : s'.Reachable m Cluster.Whole) (run : Running m p (s.node p))
    (some_ : m.peersOf p ≠ []) {n : Node} (campaigns : (s.node p).Campaigns term polls n)
    (node : s'.node p = { n with effects := [] })
    (terms : ∀ q ∈ group, q ≠ p →
      (s'.node q).solid.term ≤ term ∧ (polls = false → (s'.node q).solid.term < term))
    (rested : ∀ q ∈ group, q ≠ p → (s'.node q).Rested now)
    (behind : ∀ q ∈ group, q ≠ p → (s'.node q).Behind (s.node p)) :
    Standing m group now p term polls (group.erase p).toList s' := by
  have run' := running_of_reachable maj.odd reachable (maj.mem memP)
  have kept : (s.node p).Kept (s'.node p) := by
    rw [node]
    exact campaigns.kept.idle
  have inside {q : Addr} (mem : q ∈ (group.erase p).toList) : q ∈ group ∧ q ≠ p :=
    (Finset.mem_erase.mp (Finset.mem_toList.mp mem)).symm
  refine {
    reachable := reachable
    candidate := by rw [node]; exact campaigns.state
    term := by rw [node]; exact campaigns.term
    preVoting := by rw [node]; exact campaigns.preVoting
    own := fun real => ?own
    asks := fun q mem => ?asks
    rest_sub := fun q mem => inside mem
    nodup := Finset.nodup_toList _
    terms := fun q mem => ?terms
    fresh := fun real q mem => (terms q (inside mem).1 (inside mem).2).2 real
    rested := rested
    behind := fun q mem => ?behind
    counted := fun q mem ne missing => ?counted
    short := ?short }
  case own =>
    have me : n.me = p := by
      have me := run'.me
      rw [node] at me
      exact me
    rw [node]
    exact (campaigns.vote real).trans me
  case asks =>
    rw [node]
    refine campaigns.asks q ?_
    rw [run.ticking.requestVotes]
    exact maj.peer (inside mem).1 (inside mem).2
  case terms =>
    by_cases same : q = p
    · rw [same, node]
      exact campaigns.term.le
    · exact (terms q mem same).1
  case behind =>
    by_cases same : q = p
    · rw [same]
      exact .inr ⟨rfl, le_rfl⟩
    · exact (behind q mem same).kept (.refl _) kept
  case counted =>
    exact absurd (Finset.mem_toList.mpr (Finset.mem_erase.mpr ⟨ne, mem⟩)) missing
  case short =>
    refine reaches_of_clear (fun q => ?_) ?_ polls
    · rw [node]
      exact campaigns.votes q
    · rw [run'.votesOf]
      exact maj.two_peers memP some_

/-- The candidate asks the next member and hears its answer: one answer is counted,
a pre-vote is won, or the candidate leads. -/
theorem Standing.next (maj : Majority m group now) (memP : p ∈ group)
    (standing : Standing m group now p term polls (q :: rest) s) :
    ∃ s', Cluster.AmongRun m group now s s' ∧
      (Standing m group now p term polls rest s' ∨
        polls = true ∧ Standing m group now p (term + 1) false (group.erase p).toList s' ∨
          Leading group p s') := by
  obtain ⟨memQ, ne⟩ := standing.rest_sub q List.mem_cons_self
  obtain ⟨s₁, msg, reply, run₁, others, nodeP, joined, request, answers, sent⟩ :=
    ask maj standing.reachable memP memQ ne standing.candidate
      (standing.asks q List.mem_cons_self) (by rw [standing.term]; exact standing.terms q memQ)
      (standing.rested q memQ ne)
  have reachable₁ := run₁.reachable maj standing.reachable
  have before := running_of_reachable maj.odd standing.reachable (maj.mem memP)
  have runP := running_of_reachable maj.odd reachable₁ (maj.mem memP)
  rw [standing.term] at joined
  have kept (r : Addr) : (s.node r).Kept (s₁.node r) := by
    by_cases sameP : r = p
    · rw [sameP, nodeP]
      exact ⟨rfl, rfl, rfl⟩
    · by_cases sameQ : r = q
      · rw [sameQ]
        exact joined.kept
      · rw [others r sameP sameQ]
        exact .refl _
  have terms (r : Addr) (mem : r ∈ group) : (s₁.node r).solid.term ≤ term := by
    by_cases sameP : r = p
    · rw [sameP, nodeP]
      exact standing.term.le
    · by_cases sameQ : r = q
      · rw [sameQ]
        exact joined.term.le
      · rw [others r sameP sameQ]
        exact standing.terms r mem
  have rested (r : Addr) (mem : r ∈ group) (neP : r ≠ p) : (s₁.node r).Rested now := by
    by_cases sameQ : r = q
    · rw [sameQ]
      exact joined.rested maj.late (standing.rested q memQ ne)
    · rw [others r neP sameQ]
      exact standing.rested r mem neP
  have behind (r : Addr) (mem : r ∈ group) : (s₁.node r).Behind (s₁.node p) :=
    (standing.behind r mem).kept (kept r) (kept p)
  have candidate : (s₁.node p).state = .candidate := by rw [nodeP]; exact standing.candidate
  have preVoting : (s₁.node p).preVoting = polls := by rw [nodeP]; exact standing.preVoting
  have termP : (s₁.node p).solid.term = term := by rw [nodeP]; exact standing.term
  have own : (s₁.node p).preVoting = false → (s₁.node p).solid.vote = (s₁.node p).me := by
    rw [preVoting, runP.me, nodeP]
    exact standing.own
  have logOk : (s.node q).logOk msg = true := by
    rw [Node.logOk, logOkOn, request.lastLogTerm, request.lastLogIndex]
    simpa [Node.Behind] using standing.behind q memQ
  have good : reply.Good (s₁.node p) := by
    refine ⟨?_, ?_, ?_, answers.logOk.trans logOk, answers.intervalOk, fun real => ?_⟩
    · rw [answers.term, request.term, standing.term, termP]
    · rw [answers.reqTerm, request.term, standing.term, termP]
    · rw [answers.preVote, request.preVote, standing.preVoting, preVoting]
    · rw [preVoting] at real
      refine answers.granted ?_ logOk (by rw [request.preVote, standing.preVoting, real])
      rw [request.term, standing.term]
      exact standing.fresh real q List.mem_cons_self
  obtain ⟨n, heard, result⟩ := onRequestVoteReply_eq runP.started candidate own good
  have src : reply.src = q := by rw [answers.src, request.dest]
  have dest : reply.dest = p := by rw [answers.dest, request.src, before.me]
  set s₂ := s₁.update p n n.effects with s₂_eq
  have step : Cluster.Among m group now s₁ s₂ := by
    refine .handle p memP (.recv (.requestVoteReply reply) now) ⟨?_, rfl⟩ trivial ⟨sent, dest⟩ n heard
    show reply.src ∈ group
    rw [src]
    exact memQ
  have nodeP₂ : s₂.node p = { n with effects := [] } := Cluster.update_node_self n _
  have others₂ (r : Addr) (neP : r ≠ p) : s₂.node r = s₁.node r :=
    Cluster.update_node_of_ne n _ neP
  have reachable₂ := Cluster.AmongRun.reachable maj standing.reachable (run₁.tail step)
  refine ⟨s₂, run₁.tail step, ?_⟩
  rcases result with counted | ⟨polled, stands⟩ | ⟨leads, later⟩
  · refine .inl ?_
    rw [preVoting, src] at counted
    have kept₂ : (s₁.node p).Kept (s₂.node p) := by
      rw [nodeP₂]
      exact counted.kept.idle
    have new {r : Addr} (mem : r ∈ rest) : r ≠ q :=
      fun same => (List.nodup_cons.mp standing.nodup).1 (same ▸ mem)
    refine {
      reachable := reachable₂
      candidate := by rw [nodeP₂]; exact counted.state.trans candidate
      term := by rw [nodeP₂]; exact (congrArg SolidData.term counted.solid).trans termP
      preVoting := by rw [nodeP₂]; exact counted.preVoting.trans preVoting
      own := fun real => ?own
      asks := fun r mem => ?asks
      rest_sub := fun r mem => standing.rest_sub r (List.mem_cons_of_mem _ mem)
      nodup := (List.nodup_cons.mp standing.nodup).2
      terms := fun r mem => ?terms
      fresh := fun real r mem => ?fresh
      rested := fun r mem neP => by rw [others₂ r neP]; exact rested r mem neP
      behind := fun r mem => ?behind
      counted := fun r mem neP missing => ?counted
      short := by rw [nodeP₂]; exact counted.short }
    case own =>
      have vote : (s₁.node p).solid.vote = p := by
        rw [nodeP]
        exact standing.own real
      rw [nodeP₂]
      exact (congrArg SolidData.vote counted.solid).trans vote
    case asks =>
      rw [nodeP₂]
      refine (counted.asks r (new mem)).trans ?_
      rw [nodeP]
      exact standing.asks r (List.mem_cons_of_mem _ mem)
    case terms =>
      by_cases sameP : r = p
      · rw [sameP, nodeP₂]
        exact ((congrArg SolidData.term counted.solid).trans termP).le
      · rw [others₂ r sameP]
        exact terms r mem
    case fresh =>
      have neP := (standing.rest_sub r (List.mem_cons_of_mem _ mem)).2
      rw [others₂ r neP, others r neP (new mem)]
      exact standing.fresh real r (List.mem_cons_of_mem _ mem)
    case behind =>
      by_cases sameP : r = p
      · rw [sameP]
        exact .inr ⟨rfl, le_rfl⟩
      · rw [others₂ r sameP]
        exact (behind r mem).kept (.refl _) kept₂
    case counted =>
      rw [nodeP₂]
      by_cases sameQ : r = q
      · rw [sameQ]
        exact counted.mine
      · show (n.voteMgr.val r).counts polls = true
        rw [counted.others r sameQ, nodeP]
        exact standing.counted r mem neP fun listed => missing ((List.mem_cons.mp listed).resolve_left sameQ)
  · refine .inr (.inl ⟨by rw [← preVoting]; exact polled, ?_⟩)
    rw [termP] at stands
    refine Standing.begin maj memP reachable₂ runP ?_ stands nodeP₂ ?_ ?_ ?_
    · exact List.ne_nil_of_mem (maj.peer memQ ne)
    · intro r mem neP
      rw [others₂ r neP]
      have := terms r mem
      exact ⟨by omega, fun _ => by omega⟩
    · intro r mem neP
      rw [others₂ r neP]
      exact rested r mem neP
    · intro r mem neP
      rw [others₂ r neP]
      exact behind r mem
  · refine .inr (.inr ⟨by rw [nodeP₂]; exact leads, fun r mem => ?_⟩)
    by_cases sameP : r = p
    · rw [sameP]
    · rw [others₂ r sameP, nodeP₂]
      refine (terms r mem).trans ?_
      rw [← termP]
      exact later

/-- Once everybody has answered, there are enough answers. -/
theorem Standing.elects (maj : Majority m group now) (memP : p ∈ group)
    (standing : Standing m group now p term false rest s) :
    ∃ s', Cluster.AmongRun m group now s s' ∧ Leading group p s' := by
  induction rest generalizing s with
  | nil =>
      have run := running_of_reachable maj.odd standing.reachable (maj.mem memP)
      have reached := reaches_of_all maj memP run.votesOf fun q mem ne =>
        standing.counted q mem ne List.not_mem_nil
      exact absurd (reached.symm.trans standing.short) (by simp)
  | cons q rest ih =>
      obtain ⟨s₁, run, standing | ⟨impossible, -⟩ | leading⟩ := standing.next maj memP
      · obtain ⟨s', more, leading⟩ := ih standing
        exact ⟨s', run.trans more, leading⟩
      · contradiction
      · exact ⟨s₁, run, leading⟩

/-- A pre-vote that everybody answers leads to a vote. -/
theorem Standing.polled (maj : Majority m group now) (memP : p ∈ group)
    (standing : Standing m group now p term true rest s) :
    ∃ s', Cluster.AmongRun m group now s s' ∧ Leading group p s' := by
  induction rest generalizing s with
  | nil =>
      have run := running_of_reachable maj.odd standing.reachable (maj.mem memP)
      have reached := reaches_of_all maj memP run.votesOf fun q mem ne =>
        standing.counted q mem ne List.not_mem_nil
      exact absurd (reached.symm.trans standing.short) (by simp)
  | cons q rest ih =>
      obtain ⟨s₁, run, standing | ⟨-, real⟩ | leading⟩ := standing.next maj memP
      · obtain ⟨s', more, leading⟩ := ih standing
        exact ⟨s', run.trans more, leading⟩
      · obtain ⟨s', more, leading⟩ := real.elects maj memP
        exact ⟨s', run.trans more, leading⟩
      · exact ⟨s₁, run, leading⟩

end Campaign

end Vraft
