import Vraft.Availability.Campaign
import Vraft.Availability.Heartbeats
import Mathlib.Data.Prod.Lex

/-!
# A majority elects a leader

Unless one of them leads in the last term that the group knows of, a majority that has
waited for an election timeout gets a new leader.  Leaders of past terms are told to
step down, a member that nobody is ahead of comes into the last term, and it wins the
next one.
-/

namespace Vraft

/-- Every member of the group has waited for an election timeout or is a leader, and
none of them stands by. -/
structure Cluster.Waits (s : Cluster) (group : Finset Addr) (now : ℤ) : Prop where
  rested : ∀ q ∈ group, (s.node q).Rested now ∨
    (s.node q).state = .leader ∧ (s.node q).lastHeartbeatTimestamp = int64Max
  active : ∀ q ∈ group, (s.node q).standby = false

/-- Nobody in the group leads, and `top` is in its last term. -/
structure Leaderless (m : Membership) (group : Finset Addr) (now : ℤ) (top : Addr) (s : Cluster) :
    Prop where
  reachable : s.Reachable m Cluster.Whole
  idle : ∀ q ∈ group, (s.node q).state ≠ .leader
  terms : ∀ q ∈ group, (s.node q).solid.term ≤ (s.node top).solid.term
  rested : ∀ q ∈ group, (s.node q).Rested now
  active : ∀ q ∈ group, (s.node q).standby = false

section Election

variable {m : Membership} {group : Finset Addr} {now : ℤ} {s s' : Cluster} {p q top : Addr}

/-! ## Leaders of past terms -/

/-- The leaders among `rest` step down one after the other. -/
theorem retire_all (maj : Majority m group now) (memTop : top ∈ group) {rest : List Addr}
    (sub : ∀ q ∈ rest, q ∈ group) (reachable : s.Reachable m Cluster.Whole)
    (waits : s.Waits group now)
    (terms : ∀ q ∈ group, (s.node q).solid.term ≤ (s.node top).solid.term)
    (past : ∀ q ∈ group, (s.node q).state = .leader →
      (s.node q).solid.term < (s.node top).solid.term)
    (others : ∀ q ∈ group, q ∉ rest → (s.node q).state ≠ .leader) :
    ∃ s', Cluster.AmongRun m group now s s' ∧ Leaderless m group now top s' := by
  induction rest generalizing s with
  | nil =>
      refine ⟨s, .refl, reachable, fun q mem => others q mem List.not_mem_nil, terms, fun q mem => ?_,
        waits.active⟩
      exact (waits.rested q mem).resolve_right fun leads => others q mem List.not_mem_nil leads.1
  | cons q rest ih =>
      have memQ := sub q List.mem_cons_self
      have sub := fun r mem => sub r (List.mem_cons_of_mem _ mem)
      by_cases leader : (s.node q).state = .leader
      · have later := past q memQ leader
        have neTop : top ≠ q := fun same => lt_irrefl _ (same ▸ later)
        obtain ⟨s₁, run, same, stepped⟩ := retire maj reachable memQ memTop leader later
        have topSame : s₁.node top = s.node top := same top neTop
        have down : (s₁.node q).state ≠ .leader := by simp [stepped.state]
        have waits₁ : s₁.Waits group now := by
          constructor
          · intro r mem
            by_cases isQ : r = q
            · rw [isQ]
              refine .inl (stepped.rested maj.late ?_)
              exact (waits.rested q memQ).imp_right And.right
            · rw [same r isQ]
              exact waits.rested r mem
          · intro r mem
            by_cases isQ : r = q
            · rw [isQ, stepped.kept.standby]
              exact waits.active q memQ
            · rw [same r isQ]
              exact waits.active r mem
        have terms₁ : ∀ r ∈ group, (s₁.node r).solid.term ≤ (s₁.node top).solid.term := by
          intro r mem
          rw [topSame]
          by_cases isQ : r = q
          · rw [isQ]
            exact stepped.term.le
          · rw [same r isQ]
            exact terms r mem
        have past₁ : ∀ r ∈ group, (s₁.node r).state = .leader →
            (s₁.node r).solid.term < (s₁.node top).solid.term := by
          intro r mem leads
          rw [topSame]
          by_cases isQ : r = q
          · rw [isQ] at leads
            exact absurd leads down
          · rw [same r isQ] at leads ⊢
            exact past r mem leads
        have others₁ : ∀ r ∈ group, r ∉ rest → (s₁.node r).state ≠ .leader := by
          intro r mem missing
          by_cases isQ : r = q
          · rw [isQ]
            exact down
          · rw [same r isQ]
            refine others r mem fun listed => missing ?_
            exact (List.mem_cons.mp listed).resolve_left isQ
        obtain ⟨s', more, leaderless⟩ := ih sub (Cluster.AmongRun.reachable maj reachable run) waits₁
          terms₁ past₁ others₁
        exact ⟨s', run.trans more, leaderless⟩
      · refine ih sub reachable waits terms past fun r mem missing => ?_
        by_cases isQ : r = q
        · rw [isQ]
          exact leader
        · refine others r mem fun listed => missing ?_
          exact (List.mem_cons.mp listed).resolve_left isQ

/-! ## The last term -/

/-- The election timer of a member that does not lead is armed, and when it fires
there is a pre-vote, a candidate or, without peers, a leader. -/
theorem expire (maj : Majority m group now) (reachable : s.Reachable m Cluster.Whole)
    (memP : p ∈ group) (idle : (s.node p).state ≠ .leader) (active : (s.node p).standby = false) :
    ∃ s' n, Cluster.Among m group now s s' ∧ (∀ r, r ≠ p → s'.node r = s.node r) ∧
      s'.node p = { n with effects := [] } ∧
      (m.peersOf p ≠ [] ∧ (s.node p).Campaigns (s.node p).solid.term true n ∨
        m.peersOf p ≠ [] ∧ (s.node p).Campaigns ((s.node p).solid.term + 1) false n ∨
          n.state = .leader ∧ n.solid.term = (s.node p).solid.term + 1 ∧ m.peersOf p = []) := by
  have run := running_of_reachable maj.odd reachable (maj.mem memP)
  have stands : (s.node p).state = .follower ∨ (s.node p).state = .candidate := by
    rcases run.agrees.role with follower | candidate | leader
    · exact .inl follower
    · exact .inr candidate
    · exact absurd leader idle
  obtain ⟨n, done, result⟩ := elect_eq stands active
  rw [run.peers, run.votesOf] at result
  refine ⟨s.update p n n.effects, n, ?_, fun r ne => Cluster.update_node_of_ne _ _ ne,
    Cluster.update_node_self _ _, result⟩
  exact .handle p memP .electionTimer trivial (run.agrees.waits run.started idle) trivial n done

/-- A member that is behind is asked for its vote and so comes into the last term,
which may be a new one. -/
theorem Leaderless.catch_up (maj : Majority m group now) (memTop : top ∈ group) (memP : p ∈ group)
    (leaderless : Leaderless m group now top s) :
    ∃ s', Cluster.AmongRun m group now s s' ∧ Leaderless m group now p s' ∧
      ∀ r ∈ group, (s.node r).Kept (s'.node r) := by
  by_cases ne : p = top
  · subst ne
    exact ⟨s, .refl, leaderless, fun r _ => .refl _⟩
  obtain ⟨s₁, n, first, others, node, result⟩ := expire maj leaderless.reachable memTop
    (leaderless.idle top memTop) (leaderless.active top memTop)
  have some_ : m.peersOf top ≠ [] := List.ne_nil_of_mem (maj.peer memP ne)
  obtain ⟨term, polls, campaigns, le⟩ : ∃ term polls, (s.node top).Campaigns term polls n ∧
      (s.node top).solid.term ≤ term := by
    rcases result with ⟨-, polls⟩ | ⟨-, stands⟩ | ⟨-, -, alone⟩
    · exact ⟨_, _, polls, le_rfl⟩
    · exact ⟨_, _, stands, Nat.le_succ _⟩
    · exact absurd alone some_
  have reachable₁ := Cluster.AmongRun.reachable maj leaderless.reachable (.single first)
  have before := running_of_reachable maj.odd leaderless.reachable (maj.mem memTop)
  have candidate : (s₁.node top).state = .candidate := by rw [node]; exact campaigns.state
  have termTop : (s₁.node top).solid.term = term := by rw [node]; exact campaigns.term
  have armed : (s₁.node top).timerMgr.requestVotes.val p = true := by
    rw [node]
    refine campaigns.asks p ?_
    rw [before.ticking.requestVotes]
    exact maj.peer memP ne
  have samep := others p ne
  obtain ⟨s₂, -, -, run, others₂, nodeTop, joined, -⟩ := ask maj reachable₁ memTop memP ne candidate
    armed (by rw [samep, termTop]; exact (leaderless.terms p memP).trans le)
    (by rw [samep]; exact leaderless.rested p memP)
  rw [samep, termTop] at joined
  have termP := joined.term
  have keptTop : (s.node top).Kept (s₂.node top) := by
    rw [nodeTop, node]
    exact ⟨campaigns.kept.log, campaigns.kept.sm, campaigns.kept.standby⟩
  refine ⟨s₂, .trans (.single first) run, ⟨?_, ?_, ?_, ?_, ?_⟩, ?_⟩
  · exact run.reachable maj reachable₁
  · intro r mem
    by_cases isP : r = p
    · rw [isP]
      rcases joined.state with same | follower
      · rw [same]
        exact leaderless.idle p memP
      · simp [follower]
    · by_cases isTop : r = top
      · rw [isTop, nodeTop]
        simp [candidate]
      · rw [others₂ r isTop isP, others r isTop]
        exact leaderless.idle r mem
  · intro r mem
    rw [termP]
    by_cases isP : r = p
    · rw [isP]
      exact termP.le
    · by_cases isTop : r = top
      · rw [isTop, nodeTop]
        exact termTop.le
      · rw [others₂ r isTop isP, others r isTop]
        exact (leaderless.terms r mem).trans le
  · intro r mem
    by_cases isP : r = p
    · rw [isP]
      exact joined.rested maj.late (leaderless.rested p memP)
    · by_cases isTop : r = top
      · have rested := leaderless.rested top memTop
        rw [Node.Rested, ← campaigns.heartbeat] at rested
        rw [isTop, nodeTop, node]
        exact rested
      · rw [others₂ r isTop isP, others r isTop]
        exact leaderless.rested r mem
  · intro r mem
    by_cases isP : r = p
    · rw [isP, joined.kept.standby]
      exact leaderless.active p memP
    · by_cases isTop : r = top
      · rw [isTop, keptTop.standby]
        exact leaderless.active top memTop
      · rw [others₂ r isTop isP, others r isTop]
        exact leaderless.active r mem
  · intro r mem
    by_cases isP : r = p
    · rw [isP]
      exact joined.kept
    · by_cases isTop : r = top
      · rw [isTop]
        exact keptTop
      · rw [others₂ r isTop isP, others r isTop]
        exact .refl _

/-! ## The election -/

/-- A member that nobody is ahead of, neither in term nor in its log, wins. -/
theorem Leaderless.elects (maj : Majority m group now) (memP : p ∈ group)
    (leaderless : Leaderless m group now p s)
    (behind : ∀ q ∈ group, (s.node q).Behind (s.node p)) :
    ∃ s', Cluster.AmongRun m group now s s' ∧ Leading group p s' := by
  obtain ⟨s₁, n, first, others, node, result⟩ := expire maj leaderless.reachable memP
    (leaderless.idle p memP) (leaderless.active p memP)
  have reachable₁ := Cluster.AmongRun.reachable maj leaderless.reachable (.single first)
  have before := running_of_reachable maj.odd leaderless.reachable (maj.mem memP)
  have rested : ∀ q ∈ group, q ≠ p → (s₁.node q).Rested now := by
    intro q mem ne
    rw [others q ne]
    exact leaderless.rested q mem
  have behind : ∀ q ∈ group, q ≠ p → (s₁.node q).Behind (s.node p) := by
    intro q mem ne
    rw [others q ne]
    exact behind q mem
  have terms : ∀ q ∈ group, q ≠ p → (s₁.node q).solid.term ≤ (s.node p).solid.term := by
    intro q mem ne
    rw [others q ne]
    exact leaderless.terms q mem
  rcases result with ⟨some_, polls⟩ | ⟨some_, stands⟩ | ⟨leads, term, -⟩
  · have standing := Standing.begin maj memP reachable₁ before some_ polls node
      (fun q mem ne => ⟨terms q mem ne, nofun⟩) rested behind
    obtain ⟨s', more, leading⟩ := standing.polled maj memP
    exact ⟨s', .trans (.single first) more, leading⟩
  · have standing := Standing.begin maj memP reachable₁ before some_ stands node
      (fun q mem ne => ⟨Nat.le_succ_of_le (terms q mem ne), fun _ => Nat.lt_succ_of_le (terms q mem ne)⟩)
      rested behind
    obtain ⟨s', more, leading⟩ := standing.elects maj memP
    exact ⟨s', .trans (.single first) more, leading⟩
  · refine ⟨s₁, .single first, by rw [node]; exact leads, fun q mem => ?_⟩
    by_cases same : q = p
    · rw [same]
    · rw [node]
      show _ ≤ n.solid.term
      rw [term]
      exact Nat.le_succ_of_le (terms q mem same)

/-- Some member is not behind any other. -/
theorem exists_ahead (nonempty : group.Nonempty) (s : Cluster) :
    ∃ p ∈ group, ∀ q ∈ group, (s.node q).Behind (s.node p) := by
  obtain ⟨p, mem, greatest⟩ := group.exists_max_image
    (fun q => toLex ((s.node q).lastTerm, (s.node q).lastIndex)) nonempty
  refine ⟨p, mem, fun q memQ => ?_⟩
  rcases Prod.Lex.le_iff.mp (greatest q memQ) with lt | ⟨eq, le⟩
  · exact .inl lt
  · exact .inr ⟨eq.symm, le⟩

/-- A majority that is cut off from the others and has waited for an election timeout
comes to have a leader in the last term that it knows of. -/
theorem majority_elects (maj : Majority m group now) (reachable : s.Reachable m Cluster.Whole)
    (waits : s.Waits group now) :
    ∃ s' p, Cluster.AmongRun m group now s s' ∧ p ∈ group ∧ Leading group p s' := by
  have nonempty : group.Nonempty := by
    have := maj.more
    exact Finset.card_pos.mp (by omega)
  obtain ⟨top, memTop, terms⟩ := group.exists_max_image (fun q => (s.node q).solid.term) nonempty
  by_cases leads : ∃ p ∈ group, (s.node p).state = .leader ∧
      (s.node p).solid.term = (s.node top).solid.term
  · obtain ⟨p, mem, leader, same⟩ := leads
    exact ⟨s, p, .refl, mem, leader, fun q memQ => by rw [same]; exact terms q memQ⟩
  · have past : ∀ q ∈ group, (s.node q).state = .leader →
        (s.node q).solid.term < (s.node top).solid.term := by
      intro q mem leader
      exact lt_of_le_of_ne (terms q mem) fun same => leads ⟨q, mem, leader, same⟩
    have listed : ∀ q ∈ group.toList, q ∈ group := fun q mem => Finset.mem_toList.mp mem
    obtain ⟨s₁, run₁, leaderless⟩ := retire_all maj memTop listed reachable waits terms past
      fun q mem missing => absurd (Finset.mem_toList.mpr mem) missing
    obtain ⟨p, mem, behind⟩ := exists_ahead nonempty s₁
    obtain ⟨s₂, run₂, leaderless, kept⟩ := leaderless.catch_up maj memTop mem
    obtain ⟨s₃, run₃, leading⟩ := leaderless.elects maj mem
      fun q memQ => (behind q memQ).kept (kept q memQ) (kept p mem)
    exact ⟨s₃, p, (run₁.trans run₂).trans run₃, mem, leading⟩

end Election

end Vraft
