import Vraft.Refine.Simulation

/-!
# Log matching and leader bookkeeping

Logs with an entry of one term at one index agree up to it, and so do a log and
an append request on the network.  A leader's table stays within the bounds of
its log, and a peer in the leader's term holds what the table says it holds.
-/

namespace Vraft

section Logs

variable {m : Membership} {meets : m.Intersecting} {s : Cluster} {a : Ghost} {p q : Addr}

/-- The entry of a member at an index. -/
theorem Sim.get_eq (sim : Sim m meets s a) (mem : p ∈ m.members) (index : ℕ) :
    (s.node p).log.get index =
      if index = 0 then none else ((a.log p)[index - 1]?).map fun entry => ⟨index, entry⟩ := by
  have base : (s.node p).log.base = 0 := (sim.live p mem).base
  have entries : (s.node p).log.entries = a.log p := (sim.live p mem).entries
  rw [Log.get, Log.entryAt_of_base_zero base, entries]
  split <;> rfl

theorem Sim.get_eq_some (sim : Sim m meets s a) (mem : p ∈ m.members) {index : ℕ}
    {entry : LogEntry} : (s.node p).log.get index = some entry ↔
      0 < index ∧ entry.index = index ∧ (a.log p)[index - 1]? = some entry.appendEntry := by
  rw [sim.get_eq mem]
  split
  · rename_i zero
    simp [zero]
  · rename_i positive
    rw [Option.map_eq_some_iff]
    constructor
    · rintro ⟨found, at_index, rfl⟩
      exact ⟨by omega, rfl, at_index⟩
    · rintro ⟨-, rfl, at_index⟩
      exact ⟨entry.appendEntry, at_index, rfl⟩

/-- Members whose logs agree on a prefix agree at every index in it. -/
theorem Sim.get_congr (sim : Sim m meets s a) (memP : p ∈ m.members) (memQ : q ∈ m.members)
    {count : ℕ} (agree : (a.log p).take count = (a.log q).take count) {index : ℕ}
    (inside : index ≤ count) : (s.node p).log.get index = (s.node q).log.get index := by
  rw [sim.get_eq memP, sim.get_eq memQ]
  split
  · rfl
  · rw [← List.getElem?_take_of_lt (show index - 1 < count by omega), agree,
      List.getElem?_take_of_lt (by omega)]

/-! ## Log matching -/

/-- The entries of a slice sit at their indices. -/
theorem SliceAt.getElem? {log : List AppendEntry} {index : ℕ} {entries : List LogEntry}
    (slice : SliceAt log index entries) {entry : LogEntry} (mem : entry ∈ entries) :
    index < entry.index ∧ log[entry.index - 1]? = some entry.appendEntry := by
  induction entries generalizing index with
  | nil => contradiction
  | cons head rest ih =>
      obtain ⟨index_eq, at_index, slice⟩ := slice
      rcases List.mem_cons.mp mem with rfl | mem
      · rw [index_eq]
        exact ⟨Nat.lt_succ_self _, at_index⟩
      · obtain ⟨lt, at_entry⟩ := ih slice mem
        exact ⟨by omega, at_entry⟩

/-- Log matching, between two members and between a member and an append request
on the network. -/
theorem log_matching (odd : Odd m.size) (reachable : s.Reachable m Cluster.Whole)
    (memP : p ∈ m.members) :
    (∀ q ∈ m.members, ∀ index entry entry',
      (s.node p).log.get index = some entry → (s.node q).log.get index = some entry' →
      entry.appendEntry.term = entry'.appendEntry.term →
        entry = entry' ∧
          ∀ smaller ≤ index, (s.node p).log.get smaller = (s.node q).log.get smaller) ∧
    ∀ msg, s.InFlight m (.appendEntries msg) → ∀ sent ∈ msg.entries, ∀ entry,
      (s.node p).log.get sent.index = some entry →
      entry.appendEntry.term = sent.appendEntry.term →
        entry = sent ∧
          (∀ earlier ∈ msg.entries, earlier.index ≤ sent.index →
            (s.node p).log.get earlier.index = some earlier) ∧
          (0 < msg.preLogIndex → ∃ preceding,
            (s.node p).log.get msg.preLogIndex = some preceding ∧
              preceding.appendEntry.term = msg.preLogTerm) := by
  obtain ⟨a, sim⟩ := Sim.of_reachable (Or.inl odd) reachable
  have genuine := sim.inv.logs.log_genuine
  constructor
  · intro q memQ index entry entry' found found' same
    obtain ⟨positive, index_eq, at_index⟩ := (sim.get_eq_some memP).mp found
    obtain ⟨-, index_eq', at_index'⟩ := (sim.get_eq_some memQ).mp found'
    have agree := (genuine p).take_eq (genuine q) at_index at_index' same
    rw [Nat.sub_add_cancel positive] at agree
    have all := fun smaller (le : smaller ≤ index) => sim.get_congr memP memQ agree le
    refine ⟨?_, all⟩
    exact Option.some.inj (found.symm.trans ((all index le_rfl).trans found'))
  · intro msg inFlight sent mem entry found same
    have ok : AppendOk m (Or.inl odd) a msg := (sim.message inFlight).2
    obtain ⟨positive, index_eq, at_index⟩ := (sim.get_eq_some memP).mp found
    obtain ⟨above, at_sent⟩ := ok.slice.getElem? mem
    have agree := (genuine p).take_eq (sim.inv.logs.tlog_genuine msg.term) at_index at_sent same
    rw [Nat.sub_add_cancel positive] at agree
    have all : ∀ {index : ℕ}, index < sent.index →
        (a.log p)[index]? = (a.tlog msg.term)[index]? := by
      intro index lt
      rw [← List.getElem?_take_of_lt lt, agree, List.getElem?_take_of_lt lt]
    have earlier : ∀ earlier ∈ msg.entries, earlier.index ≤ sent.index →
        (s.node p).log.get earlier.index = some earlier := by
      intro earlier memE le
      obtain ⟨aboveE, at_earlier⟩ := ok.slice.getElem? memE
      refine (sim.get_eq_some memP).mpr ⟨by omega, rfl, ?_⟩
      rw [all (by omega)]
      exact at_earlier
    refine ⟨Option.some.inj (found.symm.trans (earlier sent mem le_rfl)), earlier, ?_⟩
    intro positivePre
    have pre_le := ok.pre_le
    obtain ⟨preceding, at_pre⟩ : ∃ e, (a.tlog msg.term)[msg.preLogIndex - 1]? = some e :=
      ⟨_, List.getElem?_eq_getElem (by omega)⟩
    refine ⟨⟨msg.preLogIndex, preceding⟩, ?_, ?_⟩
    · refine (sim.get_eq_some memP).mpr ⟨positivePre, rfl, ?_⟩
      rw [all (by omega)]
      exact at_pre
    · rw [ok.preTerm, termAt, if_neg (by omega), at_pre]
      rfl

/-- A leader and a follower of three with a data entry of one term at index two. -/
theorem log_matching_three :
    ∃ s : Cluster, s.Reachable (.upTo 3) Cluster.Whole ∧
      (s.node 1).log.get 2 = some ⟨2, 2, .data, [7]⟩ ∧
      ∀ smaller ≤ 2, (s.node 1).log.get smaller = (s.node 2).log.get smaller := by
  have observed : ((Cluster.start (.upTo 3)).play (.upTo 3) Cluster.replication).any
      (fun s => decide ((s.node 1).log.get 2 = some ⟨2, 2, .data, [7]⟩ ∧
        (s.node 2).log.get 2 = some ⟨2, 2, .data, [7]⟩)) = true := by decide +kernel
  obtain ⟨s, run, found⟩ := Cluster.run_of_observed observed
  obtain ⟨found₁, found₂⟩ := of_decide_eq_true found
  have reachable : s.Reachable (.upTo 3) Cluster.Whole := ⟨_, run⟩
  exact ⟨s, reachable, found₁, ((log_matching (by decide) reachable (by decide)).1 2 (by decide) 2
    _ _ found₁ found₂ rfl).2⟩

/-! ## Leader bookkeeping -/

/-- The table of a leader: bounded by its log, and true of every peer that is
still in the leader's term. -/
theorem leader_bookkeeping (odd : Odd m.size) (reachable : s.Reachable m Cluster.Whole)
    (memP : p ∈ m.members) (memQ : q ∈ m.members) (ne : q ≠ p)
    (leader : (s.node p).state = .leader) :
    (s.node p).indexMgr.getMatch q ≤ (s.node p).lastIndex ∧
    1 ≤ (s.node p).indexMgr.getNext q ∧
    (s.node p).indexMgr.getNext q ≤ (s.node p).lastIndex + 1 ∧
    (∀ input n, s.Enabled m p input →
      (s.node p).handle input ≠ .error (.sendPreIndex, n)) ∧
    ((s.node q).solid.term = (s.node p).solid.term →
      ∀ index, 1 ≤ index → index ≤ (s.node p).indexMgr.getMatch q →
        ∃ entry, (s.node p).log.get index = some entry ∧
          (s.node q).log.get index = some entry) := by
  obtain ⟨a, sim⟩ := Sim.of_reachable (Or.inl odd) reachable
  have at_ := sim.start memP
  have peer : q ∈ m.peersOf p := Membership.mem_peersOf.mpr ⟨memQ, ne⟩
  have acked : (s.node p).indexMgr.getMatch q ≤ a.acked (a.term p) q :=
    (sim.live p memP).match_le leader q peer
  have match_le : (s.node p).indexMgr.getMatch q ≤ (a.log p).length :=
    at_.match_le_last leader acked
  rw [show (s.node p).lastIndex = (a.log p).length from at_.lastIndex_eq]
  refine ⟨match_le, at_.live.next_pos leader q peer, at_.live.next_le leader q peer, ?_, ?_⟩
  · intro input n enabled failed
    have benign := sim.benign memP enabled failed
    simp [AssertSite.Benign] at benign
  · intro sameTerm index positive inside
    have term_eq : a.term q = a.term p :=
      (sim.live q memQ).term.symm.trans (sameTerm.trans (sim.live p memP).term)
    have held := sim.inv.acks.kept acked fun w after le _ => absurd le (by rw [term_eq]; omega)
    rw [← sim.inv.logs.leader_log ((sim.live p memP).leads leader) rfl] at held
    obtain ⟨entry, at_index⟩ : ∃ entry, (a.log p)[index - 1]? = some entry :=
      ⟨_, List.getElem?_eq_getElem (by omega)⟩
    refine ⟨⟨index, entry⟩, (sim.get_eq_some memP).mpr ⟨positive, rfl, at_index⟩,
      (sim.get_eq_some memQ).mpr ⟨positive, rfl, ?_⟩⟩
    obtain ⟨rest, log_eq⟩ := held
    rw [← log_eq, List.getElem?_append_left (by rw [List.length_take]; omega),
      List.getElem?_take_of_lt (by omega)]
    exact at_index

/-- A leader of three whose table says that a peer holds two entries. -/
theorem leader_bookkeeping_three :
    ∃ s : Cluster, s.Reachable (.upTo 3) Cluster.Whole ∧ (s.node 1).state = .leader ∧
      (s.node 1).indexMgr.getMatch 2 = 2 ∧
      ∃ entry, (s.node 1).log.get 2 = some entry ∧ (s.node 2).log.get 2 = some entry := by
  have observed : ((Cluster.start (.upTo 3)).play (.upTo 3) Cluster.replication).any
      (fun s => decide ((s.node 1).state = .leader ∧ (s.node 1).indexMgr.getMatch 2 = 2 ∧
        (s.node 2).solid.term = (s.node 1).solid.term)) = true := by decide +kernel
  obtain ⟨s, run, found⟩ := Cluster.run_of_observed observed
  obtain ⟨leader, match_eq, sameTerm⟩ := of_decide_eq_true found
  have reachable : s.Reachable (.upTo 3) Cluster.Whole := ⟨_, run⟩
  have kept := leader_bookkeeping (q := 2) (by decide) reachable (by decide) (by decide)
    (by decide) leader
  exact ⟨s, reachable, leader, match_eq, kept.2.2.2.2 sameTerm 2 (by decide) match_eq.ge⟩

end Logs

end Vraft
