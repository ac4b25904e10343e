import Vraft.Safety.Logs

/-!
# Exactly-once application

The entries a node hands to its state machine over its whole life, across
restarts, are the data entries of the committed log up to the last index applied,
each once and in order.  This holds between handlers and at every moment within
one, whatever was written by then.
-/

namespace Vraft

open Consensus (Committed)

/-- More than half of the members have `entries` at the start of their logs. -/
def Membership.MajorityHolds (m : Membership) (logs : Addr → List AppendEntry)
    (entries : List AppendEntry) : Prop :=
  ∃ holders ⊆ m.members.toFinset, m.size < 2 * holders.card ∧ ∀ q ∈ holders, entries <+: logs q

/-- The logs of all nodes. -/
def Cluster.logs (s : Cluster) (q : Addr) : List AppendEntry :=
  (s.node q).log.entries

section Application

variable {m : Membership} {meets : m.Intersecting} {s : Cluster} {a a' : Ghost} {p : Addr}

/-- What is committed is held by a majority. -/
theorem majorityHolds_of_committed (inv : Consensus.Inv AppendEntry.term (m.quorums meets) a)
    (mem : p ∈ m.members) {count : ℕ}
    (committed : Committed AppendEntry.term (m.quorums meets) a p count)
    {logs : Addr → List AppendEntry} (logs_eq : ∀ q ∈ m.members, logs q = a.log q) :
    m.MajorityHolds logs ((a.log p).take count) := by
  by_cases zero : count = 0
  · refine ⟨m.members.toFinset, Finset.Subset.refl _, ?_, by simp [zero]⟩
    have := List.length_pos_of_mem mem
    rw [m.card_members, Membership.size]
    omega
  · obtain ⟨holders, ⟨sub, more⟩, held⟩ := committed.held inv (by omega)
    refine ⟨holders, sub, more, fun q memQ => ?_⟩
    rw [logs_eq q (List.mem_toFinset.mp (sub memQ))]
    exact held q memQ

/-- The state of a disk as far as application goes: it shares the protocol's log,
and what was handed over is what the disk's state machine says. -/
structure Applied (m : Membership) (meets : m.Intersecting) (a : Ghost) (p : Addr)
    (hist : List Effect) (disk : Disk) : Prop where
  base : disk.log.base = 0
  entries : disk.log.entries = a.log p
  settled : Committed AppendEntry.term (m.quorums meets) a p disk.smLast
  applied : appliedEntries hist = dataEntries disk.log.entries disk.smLast

theorem Stored.toApplied {hist : List Effect} {disk : Disk}
    (stored : Stored m meets a p hist disk) : Applied m meets a p hist disk where
  base := stored.base
  entries := stored.entries
  settled := stored.settled
  applied := by
    rw [stored.entries]
    exact stored.applied

/-- At every moment of a handler, also between a term and its vote: a term on its own changes
neither the log nor the state machine. -/
theorem Covered.applied {o : Origin m meets} {effects : List Effect} (covered : Covered o effects)
    {performed : List Effect} (reached : performed <+: effects) :
    ∃ a, Moves m meets o.p o.ghost a ∧
      Applied m meets a o.p (o.hist ++ performed) (o.disk.performAll performed) := by
  induction performed using List.reverseRecOn with
  | nil =>
      obtain ⟨a, moves, stored⟩ := covered [] reached (by simp [Cluster.Whole])
      exact ⟨a, moves, stored.toApplied⟩
  | append_singleton init last ih =>
      by_cases whole : Cluster.Whole (init ++ [last])
      · obtain ⟨a, moves, stored⟩ := covered _ reached whole
        exact ⟨a, moves, stored.toApplied⟩
      · obtain ⟨term, isTerm⟩ : ∃ term, last = .persistTerm term := by
          simpa [Cluster.Whole] using whole
        subst isTerm
        obtain ⟨a, moves, kept⟩ := ih ((List.prefix_append _ _).trans reached)
        have disk_eq : o.disk.performAll (init ++ [.persistTerm term]) =
            { o.disk.performAll init with term := term } := performAll_append _ _ _
        refine ⟨a, moves, ?_⟩
        rw [disk_eq]
        refine ⟨kept.base, kept.entries, kept.settled, ?_⟩
        rw [← List.append_assoc, appliedEntries_append]
        exact (List.append_nil _).trans kept.applied

/-- Exactly-once, in-order application: between handlers, and within a handler after any of
its effects. -/
theorem applied_exactly_once (odd : Odd m.size) (reachable : s.Reachable m Cluster.Whole)
    (mem : p ∈ m.members) (hasSm : m.hasSm p = true) :
    ((s.node p).log.base = 0 ∧
      appliedEntries (s.hist p) = dataEntries (s.node p).log.entries (s.node p).lastApply ∧
      m.MajorityHolds s.logs ((s.node p).log.entries.take (s.node p).lastApply)) ∧
    ∀ input, s.Enabled m p input →
      ∀ performed, performed <+: ((s.node p).handle input).node.effects →
        ∀ disk, disk = (s.node p).disk.performAll performed →
          disk.log.base = 0 ∧
          appliedEntries (s.hist p ++ performed) = dataEntries disk.log.entries disk.smLast ∧
          m.MajorityHolds (Function.update s.logs p disk.log.entries)
            (disk.log.entries.take disk.smLast) := by
  obtain ⟨a, sim⟩ := Sim.of_reachable (Or.inl odd) reachable
  have live := sim.live p mem
  have logs_eq : ∀ q ∈ m.members, s.logs q = a.log q := fun q memQ => (sim.live q memQ).entries
  have entries_eq : (s.node p).log.entries = a.log p := live.entries
  constructor
  · refine ⟨live.base, ?_, ?_⟩
    · rw [entries_eq, live.applied]
      exact (live.sm_eq (live.hasSm.trans hasSm)).symm
    · rw [entries_eq]
      exact majorityHolds_of_committed sim.inv mem live.applies logs_eq
  · rintro input enabled performed reached disk rfl
    have covered : Covered (sim.origin mem) ((s.node p).handle input).node.effects :=
      (sim.handle mem enabled).covered
    obtain ⟨a', moves, applied⟩ := covered.applied reached
    refine ⟨applied.base, applied.applied, ?_⟩
    have logs_eq' : ∀ q ∈ m.members,
        Function.update s.logs p ((s.node p).disk.performAll performed).log.entries q =
          a'.log q := by
      intro q memQ
      by_cases same : q = p
      · subst same
        rw [Function.update_self]
        exact applied.entries
      · rw [Function.update_of_ne same, logs_eq q memQ]
        exact (moves.others q same).log.symm
    have held := majorityHolds_of_committed (sim.inv.steps moves.steps) mem applied.settled logs_eq'
    have entries_eq' : ((s.node p).disk.performAll performed).log.entries = a'.log p :=
      applied.entries
    rw [entries_eq'] at held ⊢
    exact held

/-- A follower of three that has applied the one data entry of its log. -/
theorem applied_exactly_once_three :
    ∃ s : Cluster, s.Reachable (.upTo 3) Cluster.Whole ∧ (s.node 2).lastApply = 2 ∧
      appliedEntries (s.hist 2) = dataEntries (s.node 2).log.entries 2 ∧
      appliedEntries (s.hist 2) = [⟨2, 2, .data, [7]⟩] := by
  have observed : ((Cluster.start (.upTo 3)).play (.upTo 3) Cluster.replication).any
      (fun s => decide ((s.node 2).lastApply = 2 ∧
        appliedEntries (s.hist 2) = [⟨2, 2, .data, [7]⟩])) = true := by decide +kernel
  obtain ⟨s, run, found⟩ := Cluster.run_of_observed observed
  obtain ⟨reached, handed⟩ := of_decide_eq_true found
  have reachable : s.Reachable (.upTo 3) Cluster.Whole := ⟨_, run⟩
  have once := (applied_exactly_once (p := 2) (by decide) reachable (by decide) rfl).1.2.1
  rw [reached] at once
  exact ⟨s, reachable, reached, once, handed⟩

end Application

end Vraft
