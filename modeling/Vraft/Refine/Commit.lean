import Vraft.Raft.Quorum
import Vraft.Refine.LogWrites

/-!
# Commitment and application refine the protocol

The index a leader computes from its table is held by a majority, and it is only
used when the entry there belongs to the leader's term, so it is chosen.  What is
applied is the next data entry of a committed prefix, and the state machine keeps
up with the node's own record.
-/

namespace Vraft

open Consensus (Chosen Committed)

section Commit

variable {m : Membership} {meets : m.Intersecting} {o : Origin m meets} {a : Ghost} {n : Node}

/-! ## Application -/

/-- The state machine moves on by one data entry. -/
theorem Live.apply {p : Addr} {hist : List Effect} {v : View} (live : Live m meets a p hist v)
    {index : ℕ} (reached : v.lastApply = index) {entry : AppendEntry}
    (at_index : (a.log p)[index]? = some entry) (data : entry.type = .data) {sm : StateMachine}
    (running : v.disk.sm = some sm)
    (committed : Committed AppendEntry.term (m.quorums meets) a p (index + 1)) :
    Live m meets a p (hist ++ [.apply ⟨index + 1, entry⟩]) { v with
      disk := { v.disk with sm := some (sm.apply ⟨index + 1, entry⟩) }
      lastApply := index + 1 } :=
  { live with
    hasSm := by simpa [running] using live.hasSm
    settled := committed
    applied := by
      rw [appliedEntries_append, live.applied, ← live.sm_eq (by simp [running]), reached]
      show _ = dataEntries (a.log p) (index + 1)
      rw [dataEntries_succ at_index, if_pos data]
      rfl
    effects := fun effect mem => by
      rcases List.mem_append.mp mem with mem | mem
      · exact live.effects effect mem
      · obtain rfl := List.mem_singleton.mp mem
        trivial
    applies := committed
    sm_le := le_rfl
    sm_eq := fun _ => rfl }

/-- An entry that the state machine does not see. -/
theorem Live.skip {p : Addr} {hist : List Effect} {v : View} (live : Live m meets a p hist v)
    {index : ℕ} (reached : v.lastApply = index) {entry : AppendEntry}
    (at_index : (a.log p)[index]? = some entry)
    (unseen : v.disk.sm = none ∨ entry.type ≠ .data)
    (committed : Committed AppendEntry.term (m.quorums meets) a p (index + 1)) :
    Live m meets a p hist { v with lastApply := index + 1 } :=
  { live with
    applies := committed
    sm_le := by
      have := live.sm_le
      show v.disk.smLast ≤ index + 1
      omega
    sm_eq := fun running => by
      have notData : entry.type ≠ .data := by
        rcases unseen with stopped | notData
        · simp [stopped] at running
        · exact notData
      rw [← live.sm_eq running, reached]
      show dataEntries (a.log p) (index + 1) = _
      rw [dataEntries_succ at_index, if_neg notData, List.append_nil] }

/-- What application leaves alone. -/
structure Undisturbed (n n' : Node) : Prop where
  state : n'.state = n.state
  commit : n'.commit = n.commit
  indexMgr : n'.indexMgr = n.indexMgr

theorem applyOne_at {index : ℕ} (at_ : At o a { n with lastApply := index })
    (committed : Committed AppendEntry.term (m.quorums meets) a o.p (index + 1)) :
    ∃ n', n.applyOne (index + 1) = .ok n' ∧ At o a { n' with lastApply := index + 1 } ∧
      Undisturbed n n' := by
  have lt : index < (a.log o.p).length := committed.length_le
  obtain ⟨entry, at_index⟩ : ∃ entry, (a.log o.p)[index]? = some entry :=
    ⟨_, List.getElem?_eq_getElem lt⟩
  have found : n.log.get (index + 1) = some ⟨index + 1, entry⟩ := by
    have entry_eq : n.log.entryAt (index + 1) = some entry :=
      (at_.entryAt_eq (Nat.succ_pos index)).trans at_index
    rw [Log.get, entry_eq]
    rfl
  rw [Node.applyOne, found]
  rcases at_.live.plain entry (List.mem_of_getElem? at_index) with data | noop
  · simp only [data]
    cases running : n.sm with
    | none =>
        refine ⟨n, rfl, at_.quiet rfl rfl ?_, ⟨rfl, rfl, rfl⟩⟩
        exact at_.live.skip rfl at_index (Or.inl running) committed
    | some sm =>
        refine ⟨_, rfl, ?_, ⟨rfl, rfl, rfl⟩⟩
        refine at_.advance (Moves.refl _ _) (unbroken_singleton (.apply ⟨index + 1, entry⟩)) rfl ?_
          (at_.live.apply rfl at_index data running committed)
        simp [Node.disk, Node.emit, Disk.performAll, Disk.perform, running]
  · simp only [noop]
    refine ⟨n, rfl, at_.quiet rfl rfl ?_, ⟨rfl, rfl, rfl⟩⟩
    exact at_.live.skip rfl at_index (Or.inr (by simp [noop])) committed

theorem applyFrom_at (index count : ℕ) (at_ : At o a { n with lastApply := index })
    (committed : Committed AppendEntry.term (m.quorums meets) a o.p (index + count)) :
    ∃ n', n.applyFrom (index + 1) count = .ok n' ∧ At o a { n' with lastApply := index + count } ∧
      Undisturbed n n' := by
  induction count generalizing n index with
  | zero => exact ⟨n, rfl, at_, ⟨rfl, rfl, rfl⟩⟩
  | succ count ih =>
      obtain ⟨n₁, ran, at₁, kept⟩ := applyOne_at at_ (committed.of_le (by omega))
      rw [← Nat.add_assoc, Nat.add_right_comm] at committed
      obtain ⟨n₂, rest, at₂, kept'⟩ := ih _ at₁ committed
      refine ⟨n₂, ?_, ?_, ⟨kept'.state.trans kept.state, kept'.commit.trans kept.commit,
        kept'.indexMgr.trans kept.indexMgr⟩⟩
      · rw [Node.applyFrom, ran, ok_bind]
        exact rest
      · rw [← Nat.add_assoc, Nat.add_right_comm]
        exact at₂

theorem stateMachineApply_ends (at_ : At o a n) :
    Ends o n.stateMachineApply fun a' n' =>
      a' = a ∧ n'.state = n.state ∧ n'.indexMgr = n.indexMgr := by
  rw [Node.stateMachineApply]
  split
  · rename_i behind
    have sum_eq : n.lastApply + (n.commit - n.lastApply) = n.commit := by omega
    obtain ⟨n', ran, at', kept⟩ := applyFrom_at (n := n) n.lastApply
      (n.commit - n.lastApply) at_ (by rw [sum_eq]; exact at_.live.commits)
    rw [sum_eq, ← kept.commit] at at'
    rw [ran, ok_bind]
    exact Ends.ok at' ⟨rfl, kept.state, kept.indexMgr⟩
  · exact Ends.ok at_ ⟨rfl, rfl, rfl⟩

/-! ## Commitment -/

/-- More than half of the members have acknowledged what the table of a leader
says. -/
theorem At.acked_of_majorityMax (at_ : At o a n) (leader : n.state = .leader) :
    ∃ holders, (m.quorums meets).ack holders ∧
      ∀ q ∈ holders, n.indexMgr.majorityMax n.lastIndex ≤ a.acked (a.term o.p) q := by
  have keys : n.indexMgr.keys = m.peersOf o.p := at_.live.indicesOf
  have follow : PeersOf m.members.toFinset o.p n.indexMgr.keys :=
    ⟨List.mem_toFinset.mpr o.mem, fun q => by
      rw [keys, Membership.mem_peersOf, List.mem_toFinset]⟩
  have more : n.indexMgr.majorityMax n.lastIndex ∈ {index | m.members.toFinset.card <
      2 * (n.indexMgr.reached o.p n.lastIndex m.members.toFinset index).card} :=
    (IndexManager.majorityMax_greatest follow).1
  rw [Set.mem_ofPred_eq, m.card_members] at more
  refine ⟨_, ⟨Finset.filter_subset _ _, more⟩, fun q mem => ?_⟩
  obtain ⟨mem, le⟩ := Finset.mem_filter.mp mem
  rw [IndexManager.matchOf] at le
  split at le
  · rename_i same
    rw [same]
    exact (le.trans_eq at_.lastIndex_eq).trans (at_.live.owns leader)
  · rename_i other
    exact le.trans (at_.live.match_le leader q
      (Membership.mem_peersOf.mpr ⟨List.mem_toFinset.mp mem, other⟩))

theorem maybeCommit_ends (at_ : At o a n) (leader : n.state = .leader) :
    Ends o n.maybeCommit fun _ n' => n'.state = .leader ∧ n'.indexMgr = n.indexMgr := by
  obtain ⟨holders, quorum, acked⟩ := at_.acked_of_majorityMax leader
  have log_eq := at_.inv.logs.leader_log (at_.live.leads leader) rfl
  rw [Node.maybeCommit, Node.check_of leader, ok_bind]
  set newCommit := n.indexMgr.majorityMax n.lastIndex
  dsimp only
  split
  · exact Ends.ok at_ ⟨leader, rfl⟩
  · rename_i advances
    have bound : newCommit ≤ (a.log o.p).length := by
      obtain ⟨q, mem⟩ := Finset.card_pos.mp (show 0 < holders.card by have := quorum.2; omega)
      rw [log_eq]
      exact (acked q mem).trans (at_.inv.acks.acked_le _ _)
    have first_le : n.log.first ≤ newCommit := by
      have := Log.first_le_one (l := n.log) at_.live.base
      omega
    rw [Node.check_of first_le, ok_bind]
    obtain ⟨entry, at_commit⟩ : ∃ entry, (a.log o.p)[newCommit - 1]? = some entry :=
      ⟨_, List.getElem?_eq_getElem (by omega)⟩
    have meta_eq : n.log.getMeta newCommit = some ⟨entry.term, entry.type⟩ := by
      rw [Log.getMeta, at_.entryAt_eq (by omega), at_commit]
      rfl
    simp only [meta_eq]
    split
    · exact Ends.ok at_ ⟨leader, rfl⟩
    · rename_i own
      have own : entry.term = a.term o.p := (not_not.mp own).trans at_.term_eq
      have chosen : Chosen AppendEntry.term (m.quorums meets) a (a.term o.p) newCommit :=
        ⟨⟨entry, by omega, log_eq ▸ at_commit, own⟩, holders, quorum, acked⟩
      have committed : Committed AppendEntry.term (m.quorums meets) a o.p newCommit := by
        refine Or.inr ⟨a.term o.p, newCommit, chosen, le_rfl, le_rfl, ?_⟩
        rw [log_eq]
        exact List.take_prefix _ _
      have at' : At o a { n with commit := newCommit } :=
        at_.quiet rfl rfl { at_.live with commits := committed }
      rw [Node.check_of (by show newCommit ≤ n.log.last; rw [at_.last_eq]; exact bound), ok_bind]
      refine (stateMachineApply_ends at').weaken ?_
      rintro _ n' - ⟨-, state_eq, index_eq⟩
      exact ⟨state_eq.trans leader, index_eq⟩

end Commit

end Vraft
