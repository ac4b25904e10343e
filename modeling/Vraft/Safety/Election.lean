import Vraft.Refine.Simulation

/-!
# Election safety

At most one node becomes leader in a term, for every odd membership and for two
members.  A candidate wins with `(n + 1) / 2` votes, which for even `n` is only
half of the members: with four of them two candidates can win one term.
-/

namespace Vraft

namespace Cluster

/-- Restarts only happen between two handlers. -/
def Between (performed : List Effect) : Prop :=
  performed = []

/-- In every run, at most one member ever becomes leader in a term. -/
def ElectionSafe (m : Membership) (crash : List Effect → Prop) : Prop :=
  ∀ s : Cluster, s.Reachable m crash → ∀ term p q, p ∈ m.members → q ∈ m.members →
    Effect.becomeLeader term ∈ s.hist p → Effect.becomeLeader term ∈ s.hist q → p = q

theorem whole_of_between {performed : List Effect} (between : Between performed) :
    Whole performed := by
  intro term
  simp [show performed = [] from between]

/-- Fewer crashes, fewer runs. -/
theorem Reachable.mono {m : Membership} {crash crash' : List Effect → Prop} {s : Cluster}
    (weaker : ∀ performed, crash performed → crash' performed)
    (reachable : s.Reachable m crash) : s.Reachable m crash' := by
  obtain ⟨flags, run⟩ := reachable
  refine ⟨flags, Relation.ReflTransGen.mono (fun before after step => ?_) _ _ run⟩
  cases step with
  | handle p mem input enabled n done => exact .handle p mem input enabled n done
  | crash p mem input enabled performed reached allowed flags =>
      exact .crash p mem input enabled performed reached (weaker performed allowed) flags

/-- Election safety holds with an odd number of members, and with two. -/
theorem election_safety {m : Membership} (meets : m.Intersecting) :
    ElectionSafe m Whole ∧ ElectionSafe m Between := by
  have safe : ElectionSafe m Whole := by
    intro s reachable term p q memP memQ ledP ledQ
    obtain ⟨a, sim⟩ := Sim.of_reachable meets reachable
    have byP : a.leader term = some p := (sim.live p memP).effects _ ledP
    have byQ : a.leader term = some q := (sim.live q memQ).effects _ ledQ
    exact Option.some.inj (byP.symm.trans byQ)
  exact ⟨safe, fun s reachable =>
    safe s (reachable.mono fun _ between => whole_of_between between)⟩

/-- Three members elect one of them. -/
theorem election_safety_three :
    (∃ s, Reachable (.upTo 3) Whole s ∧ Effect.becomeLeader 2 ∈ s.hist 1) ∧
      ElectionSafe (.upTo 3) Whole ∧ ElectionSafe (.upTo 3) Between := by
  refine ⟨?_, election_safety (Or.inl (by decide))⟩
  have observed : ((start (.upTo 3)).play (.upTo 3) (election 1 [2])).any
      (fun s => decide (Effect.becomeLeader 2 ∈ s.hist 1)) = true := by decide +kernel
  obtain ⟨s, run, led⟩ := run_of_observed observed
  exact ⟨s, ⟨_, run⟩, of_decide_eq_true led⟩

/-- With four members, one vote beside the own one makes a leader, and two
candidates find one each. -/
theorem not_electionSafe_four : 1 ≤ (Membership.upTo 4).size ∧ ¬ElectionSafe (.upTo 4) Between := by
  refine ⟨by decide, fun safe => ?_⟩
  have observed : ((start (.upTo 4)).play (.upTo 4) (election 1 [3] ++ election 2 [4])).any
      (fun s => decide (Effect.becomeLeader 2 ∈ s.hist 1 ∧ Effect.becomeLeader 2 ∈ s.hist 2)) =
        true := by decide +kernel
  obtain ⟨s, run, led⟩ := run_of_observed observed
  obtain ⟨led₁, led₂⟩ := of_decide_eq_true led
  exact absurd (safe s ⟨_, run⟩ 2 1 2 (by decide) (by decide) led₁ led₂) (by decide)

end Cluster

end Vraft
