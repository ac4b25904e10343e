import Vraft.Lib.Majority
import Vraft.Raft.Managers

/-!
# The quorums of commits and of votes

`MajorityMax` is the largest index that more than half of the members have reached, and a
vote needs half of the members, rounded up.  For an even number of members a vote is won
with exactly half of them; it is the other quorum that has the member more.
-/

namespace Vraft

/-- The peers of one of the members. -/
structure PeersOf (members : Finset Addr) (own : Addr) (peers : List Addr) : Prop where
  mem : own ∈ members
  mem_iff : ∀ addr, addr ∈ peers ↔ addr ∈ members ∧ addr ≠ own

section Quorums

variable {members : Finset Addr} {own : Addr} {peers : List Addr}

theorem peersOf_of_toFinset (mem : own ∈ members) (others : peers.toFinset = members.erase own) :
    PeersOf members own peers := by
  refine ⟨mem, fun addr => ?_⟩
  rw [← List.mem_toFinset, others, Finset.mem_erase, and_comm]

theorem PeersOf.nodup (peersOf : PeersOf members own peers) (nodup : peers.Nodup) :
    (own :: peers).Nodup :=
  List.nodup_cons.mpr ⟨fun mem => ((peersOf.mem_iff own).mp mem).2 rfl, nodup⟩

theorem PeersOf.toFinset (peersOf : PeersOf members own peers) :
    (own :: peers).toFinset = members := by
  ext addr
  rw [List.mem_toFinset, List.mem_cons, peersOf.mem_iff]
  by_cases same : addr = own
  · simp [same, peersOf.mem]
  · simp [same]

theorem PeersOf.card (peersOf : PeersOf members own peers) (nodup : peers.Nodup) :
    members.card = peers.length + 1 := by
  rw [← peersOf.toFinset, List.toFinset_card_of_nodup (peersOf.nodup nodup), List.length_cons]

/-- Members with a property are counted in the list of one of them and its peers. -/
theorem PeersOf.card_filter (peersOf : PeersOf members own peers) (nodup : peers.Nodup)
    (p : Addr → Bool) : (members.filter fun addr => p addr).card = (own :: peers).countP p := by
  rw [← peersOf.toFinset, ← List.toFinset_filter, List.countP_eq_length_filter,
    List.toFinset_card_of_nodup ((peersOf.nodup nodup).filter _)]

end Quorums

namespace IndexManager

variable (indices : IndexManager) (leader : Addr) (lastIndex : ℕ)

/-- The match index of a member, where the leader counts with its own last index. -/
def matchOf (addr : Addr) : ℕ :=
  if addr = leader then lastIndex else indices.getMatch addr

/-- The members that have reached an index. -/
def reached (members : Finset Addr) (index : ℕ) : Finset Addr :=
  members.filter fun addr => index ≤ indices.matchOf leader lastIndex addr

variable {indices leader lastIndex} {members : Finset Addr}

theorem matches_eq (peersOf : PeersOf members leader indices.keys) :
    indices.matches_ lastIndex = (leader :: indices.keys).map (indices.matchOf leader lastIndex) := by
  rw [matches_, List.map_cons, matchOf, if_pos rfl, List.cons.injEq]
  refine ⟨rfl, List.map_congr_left fun addr mem => ?_⟩
  rw [matchOf, if_neg ((peersOf.mem_iff addr).mp mem).2, getMatch]

theorem card_reached (peersOf : PeersOf members leader indices.keys) (index : ℕ) :
    (indices.reached leader lastIndex members index).card =
      (indices.matches_ lastIndex).countP fun y => index ≤ y := by
  have counted := peersOf.card_filter indices.nodup fun addr =>
    decide (index ≤ indices.matchOf leader lastIndex addr)
  simp only [decide_eq_true_eq] at counted
  rw [matches_eq peersOf, List.countP_map]
  exact counted

theorem length_matches (lastIndex : ℕ) :
    (indices.matches_ lastIndex).length = indices.keys.length + 1 := by
  rw [matches_, List.length_cons, List.length_map]

theorem majorityMax_eq (lastIndex : ℕ) : indices.majorityMax lastIndex =
    ((indices.matches_ lastIndex).insertionSort (· ≤ ·)).getD
      (((indices.matches_ lastIndex).length - 1) / 2) 0 := by
  rw [majorityMax, List.length_insertionSort]

/-- `MajorityMax` is the largest index that more than half of the members have reached. -/
theorem majorityMax_greatest (peersOf : PeersOf members leader indices.keys) :
    IsGreatest {index | members.card < 2 * (indices.reached leader lastIndex members index).card}
      (indices.majorityMax lastIndex) := by
  have nonempty : indices.matches_ lastIndex ≠ [] := List.cons_ne_nil _ _
  have card : members.card = (indices.matches_ lastIndex).length := by
    rw [peersOf.card indices.nodup, length_matches]
  constructor
  · rw [Set.mem_ofPred_eq, card_reached peersOf, card, majorityMax_eq]
    exact Majority.length_lt_two_mul_countP nonempty
  · intro index more
    rw [Set.mem_ofPred_eq, card_reached peersOf, card] at more
    rw [majorityMax_eq]
    by_contra above
    have few := Majority.two_mul_countP_le_length nonempty (Nat.not_le.mp above)
    exact absurd more (Nat.not_lt.mpr few)

end IndexManager

namespace VoteManager

variable {votes : VoteManager} {candidate : Addr} {members : Finset Addr}

/-- The members that have voted for the candidate, itself among them. -/
def voters (votes : VoteManager) (candidate : Addr) (members : Finset Addr) : Finset Addr :=
  members.filter fun addr => addr = candidate ∨ (votes.val addr).grant = true

theorem card_voters (peersOf : PeersOf members candidate votes.keys) :
    (votes.voters candidate members).card = 1 + votes.count fun item => item.grant := by
  have counted := peersOf.card_filter votes.nodup fun addr =>
    decide (addr = candidate ∨ (votes.val addr).grant = true)
  simp only [decide_eq_true_eq] at counted
  rw [voters, counted, List.countP_cons_of_pos (by simp), Nat.add_comm, Table.count]
  congr 1
  refine List.countP_congr fun addr mem => ?_
  have other := ((peersOf.mem_iff addr).mp mem).2
  simp [other]

/-- A vote is won with half of the members, rounded up. -/
theorem majority_iff (peersOf : PeersOf members candidate votes.keys) :
    votes.majority true = true ↔
      (members.card + 1) / 2 ≤ (votes.voters candidate members).card := by
  rw [majority, reaches, card_voters peersOf, peersOf.card votes.nodup, if_pos rfl,
    decide_eq_true_eq]

end VoteManager

section Agreement

variable {members : Finset Addr} {leader candidate : Addr} {indices : IndexManager}
  {votes : VoteManager} {lastIndex : ℕ}

/-- The members that a commit index rests on are met by every set that wins a vote, for
any number of members: they are more than half, and the voters at least half. -/
theorem quorums_agree (follow : PeersOf members leader indices.keys)
    (vote : PeersOf members candidate votes.keys) :
    IsGreatest {index | members.card < 2 * (indices.reached leader lastIndex members index).card}
        (indices.majorityMax lastIndex) ∧
      (votes.majority true = true → ∃ addr ∈ votes.voters candidate members,
        addr ∈ indices.reached leader lastIndex members (indices.majorityMax lastIndex)) := by
  have greatest : IsGreatest
      {index | members.card < 2 * (indices.reached leader lastIndex members index).card}
      (indices.majorityMax lastIndex) := IndexManager.majorityMax_greatest follow
  refine ⟨greatest, fun majority => ?_⟩
  have committed := greatest.1
  have voted := (VoteManager.majority_iff vote).mp majority
  rw [Set.mem_ofPred_eq] at committed
  apply Majority.exists_mem_of_card_lt (Finset.filter_subset _ _) (Finset.filter_subset _ _)
  change members.card < (votes.voters candidate members).card +
    (indices.reached leader lastIndex members (indices.majorityMax lastIndex)).card
  omega

/-- Four members: three have reached the index, two vote. -/
theorem quorums_agree_four :
    IsGreatest {index | ({1, 2, 3, 4} : Finset Addr).card <
        2 * (((IndexManager.reset [2, 3, 4]).setMatch 2 5).setMatch 3 7
          |>.reached 1 9 {1, 2, 3, 4} index).card} 5 ∧
      ((VoteManager.reset [1, 2, 3]).getVote 2).majority true = true := by
  have follow : PeersOf {1, 2, 3, 4} 1
      (((IndexManager.reset [2, 3, 4]).setMatch 2 5).setMatch 3 7).keys :=
    peersOf_of_toFinset (by decide) (by decide)
  have vote : PeersOf {1, 2, 3, 4} 4 ((VoteManager.reset [1, 2, 3]).getVote 2).keys :=
    peersOf_of_toFinset (by decide) (by decide)
  exact ⟨(quorums_agree follow vote).1, by decide⟩

end Agreement

end Vraft
