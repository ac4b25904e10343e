import Vraft.Safety.Logs

/-!
# State machine safety

Whatever a member has committed or applied, no other member ever commits or
applies something else in its place, at the same moment or at any other.  Later
leaders have it, so neither the truncation of a committed entry nor a commit
index past the end of the log is ever attempted.  Every state machine is handed
the data entries of the committed log once, in order.
-/

namespace Vraft

open Consensus (Committed Extends)

/-- The commit index or the apply index has reached `index`. -/
def Node.Covers (n : Node) (index : ℕ) : Prop :=
  index ≤ n.commit ∨ index ≤ n.lastApply

namespace Cluster

/-- `p` has applied the entry, or holds it at an index that it takes for committed
or applied. -/
def Settled (s : Cluster) (p : Addr) (entry : LogEntry) : Prop :=
  Effect.apply entry ∈ s.hist p ∨
    (s.node p).Covers entry.index ∧ (s.node p).log.get entry.index = some entry

end Cluster

section StateMachine

variable {m : Membership} {meets : m.Intersecting} {s s' : Cluster} {a a' : Ghost} {p q : Addr}

/-! ## Settled entries -/

theorem mem_indexed {index : ℕ} {log : List AppendEntry} {entry : LogEntry}
    (mem : entry ∈ indexed index log) :
    index ≤ entry.index ∧ log[entry.index - index]? = some entry.appendEntry := by
  induction log generalizing index with
  | nil => contradiction
  | cons head rest ih =>
      rcases List.mem_cons.mp mem with rfl | mem
      · simp
      · obtain ⟨le, at_entry⟩ := ih mem
        refine ⟨by omega, ?_⟩
        rw [show entry.index - index = entry.index - (index + 1) + 1 by omega]
        exact at_entry

theorem Sim.committed_of_covers (sim : Sim m meets s a) (mem : p ∈ m.members) {index : ℕ}
    (covers : (s.node p).Covers index) :
    Committed AppendEntry.term (m.quorums meets) a p index := by
  rcases covers with le | le
  · exact (sim.live p mem).commits.of_le le
  · exact (sim.live p mem).applies.of_le le

theorem Sim.settled (sim : Sim m meets s a) (mem : p ∈ m.members) {entry : LogEntry}
    (settled : s.Settled p entry) :
    0 < entry.index ∧ Committed AppendEntry.term (m.quorums meets) a p entry.index ∧
      (a.log p)[entry.index - 1]? = some entry.appendEntry := by
  have live := sim.live p mem
  rcases settled with applied | ⟨covers, found⟩
  · have inApplied : entry ∈ appliedEntries (s.hist p) :=
      List.mem_filterMap.mpr ⟨_, applied, rfl⟩
    rw [live.applied] at inApplied
    obtain ⟨positive, at_entry⟩ := mem_indexed (List.mem_of_mem_filter inApplied)
    have lt := (List.getElem?_eq_some_iff.mp at_entry).1
    rw [List.length_take] at lt
    refine ⟨positive, live.settled.of_le (by omega), ?_⟩
    rw [List.getElem?_take_of_lt (by omega)] at at_entry
    exact at_entry
  · obtain ⟨positive, -, at_entry⟩ := (sim.get_eq_some mem).mp found
    exact ⟨positive, sim.committed_of_covers mem covers, at_entry⟩

/-- A prefix that is part of a member's log has its entries there. -/
theorem Sim.get_of_taken (sim : Sim m meets s a) (mem : q ∈ m.members) {log : List AppendEntry}
    {entry : LogEntry} (positive : 0 < entry.index)
    (at_entry : log[entry.index - 1]? = some entry.appendEntry)
    (held : log.take entry.index <+: a.log q) :
    (s.node q).log.get entry.index = some entry := by
  refine (sim.get_eq_some mem).mpr ⟨positive, rfl, ?_⟩
  have lt := (List.getElem?_eq_some_iff.mp at_entry).1
  obtain ⟨rest, log_eq⟩ := held
  rw [← log_eq, List.getElem?_append_left (by rw [List.length_take]; omega),
    List.getElem?_take_of_lt (by omega)]
  exact at_entry

/-! ## Safety -/

/-- State machine safety, for any two moments of a run.  What is settled has an entry, and it
is the same for everybody.  A leader of a later term has it, whichever of the two is seen
first.  The asserts that depend on it never fail. -/
theorem state_machine_safety (odd : Odd m.size) (reachable : s.Reachable m Cluster.Whole)
    (run : Cluster.Run m Cluster.Whole s s') (memP : p ∈ m.members) (memQ : q ∈ m.members) :
    (∀ index, 0 < index → (s.node p).Covers index → ∃ entry, entry.index = index ∧
      s.Settled p entry) ∧
    (∀ entry entry', s.Settled p entry → s'.Settled q entry' → entry.index = entry'.index →
      entry = entry') ∧
    (∀ entry, s.Settled p entry → (s'.node q).state = .leader →
      (s.node p).solid.term < (s'.node q).solid.term →
        (s'.node q).log.get entry.index = some entry) ∧
    (∀ entry, s'.Settled p entry → (s.node q).state = .leader →
      (s'.node p).solid.term < (s.node q).solid.term →
        (s.node q).log.get entry.index = some entry) ∧
    ∀ input site n, s.Enabled m p input → (s.node p).handle input = .error (site, n) →
      site ≠ .truncateCommitted ∧ site ≠ .commitAboveLast := by
  obtain ⟨a, sim⟩ := Sim.of_reachable (Or.inl odd) reachable
  obtain ⟨a', steps, sim'⟩ := sim.run run
  have ext := Extends.of_steps sim.inv steps
  refine ⟨?_, ?_, ?_, ?_, ?_⟩
  · intro index positive covers
    have bound := (sim.committed_of_covers memP covers).length_le
    obtain ⟨entry, at_index⟩ : ∃ entry, (a.log p)[index - 1]? = some entry :=
      ⟨_, List.getElem?_eq_getElem (by omega)⟩
    exact ⟨⟨index, entry⟩, rfl, Or.inr ⟨covers,
      (sim.get_eq_some memP).mpr ⟨positive, rfl, at_index⟩⟩⟩
  · intro entry entry' settled settled' same
    obtain ⟨positive, committed, at_entry⟩ := sim.settled memP settled
    obtain ⟨-, committed', at_entry'⟩ := sim'.settled memQ settled'
    rw [← same] at committed' at_entry'
    have agree := committed.agree sim.inv sim'.inv ext committed'
    rw [← List.getElem?_take_of_lt (show entry.index - 1 < entry.index by omega), agree,
      List.getElem?_take_of_lt (by omega), at_entry'] at at_entry
    obtain ⟨index, found⟩ := entry
    obtain ⟨index', found'⟩ := entry'
    obtain rfl : index = index' := same
    exact congrArg (LogEntry.mk index) (Option.some.inj at_entry).symm
  · intro entry settled leader later
    obtain ⟨positive, committed, at_entry⟩ := sim.settled memP settled
    have leads := (sim'.live q memQ).leads leader
    have later : a.term p < a'.term q := by
      rw [← (sim.live p memP).term, ← (sim'.live q memQ).term]
      exact later
    refine sim'.get_of_taken memQ positive at_entry ?_
    rw [sim'.inv.logs.leader_log leads rfl]
    exact (committed.prefix_base sim.inv sim'.inv ext later (by simp [leads])).trans
      (sim'.inv.logs.base_tlog (by simp [leads]))
  · intro entry settled leader later
    obtain ⟨positive, committed, at_entry⟩ := sim'.settled memP settled
    have leads := (sim.live q memQ).leads leader
    have led : a.leader (a.term q) ≠ none := by simp [leads]
    have later : a'.term p < a.term q := by
      rw [← (sim'.live p memP).term, ← (sim.live q memQ).term]
      exact later
    refine sim.get_of_taken memQ positive at_entry ?_
    rw [sim.inv.logs.leader_log leads rfl]
    have inBase := committed.prefix_base sim'.inv sim'.inv (Extends.refl a') later
      (ext.leader_ne led)
    rw [ext.base led] at inBase
    exact inBase.trans (sim.inv.logs.base_tlog led)
  · intro input site n enabled failed
    have benign := sim.benign memP enabled failed
    constructor <;> rintro rfl <;> simp [AssertSite.Benign] at benign

/-- A leader of three commits, and its follower does so later. -/
theorem state_machine_safety_three :
    ∃ s s' : Cluster, s.Reachable (.upTo 3) Cluster.Whole ∧
      Cluster.Run (.upTo 3) Cluster.Whole s s' ∧
      ∃ entry, s.Settled 1 entry ∧ entry.index = 2 ∧ (s.node 2).commit = 1 ∧
        s'.Settled 2 entry := by
  have observed : ((Cluster.start (.upTo 3)).play (.upTo 3) (Cluster.replication.take 11)).any
      (fun s => decide ((s.node 1).commit = 2 ∧ (s.node 2).commit = 1) &&
        (s.play (.upTo 3) (Cluster.replication.drop 11)).any
          (fun s' => decide ((s'.node 2).commit = 2))) = true := by decide +kernel
  obtain ⟨s, run, found⟩ := Cluster.run_of_observed observed
  obtain ⟨now, thereafter⟩ := Bool.and_eq_true_iff.mp found
  obtain ⟨s', run', found'⟩ := Cluster.run_of_observed thereafter
  obtain ⟨commit₁, commit₂⟩ := of_decide_eq_true now
  have reachable : s.Reachable (.upTo 3) Cluster.Whole := ⟨_, run⟩
  have safe := state_machine_safety (p := 1) (q := 2) (by decide) reachable run' (by decide)
    (by decide)
  have safe' := state_machine_safety (p := 2) (q := 2) (by decide)
    (show s'.Reachable (.upTo 3) Cluster.Whole from ⟨_, run.trans run'⟩) .refl (by decide)
    (by decide)
  obtain ⟨entry, index_eq, settled⟩ := safe.1 2 (by decide) (Or.inl commit₁.ge)
  obtain ⟨entry', index_eq', settled'⟩ := safe'.1 2 (by decide)
    (Or.inl (of_decide_eq_true found').ge)
  obtain rfl := safe.2.1 entry entry' settled settled' (index_eq.trans index_eq'.symm)
  exact ⟨s, s', reachable, run', entry, settled, index_eq, commit₂, settled'⟩

end StateMachine

end Vraft
