import Vraft.Safety.Application
import Vraft.Safety.StateMachine

/-!
# What a run never takes back

A leader only appends to its log for as long as its term lasts, whatever crashes
in between, and every log that has an entry of the term follows the leader's up
to it.  What a member has once committed stays at the start of its log and in the
logs of a majority, also after restarts that have forgotten the commit index.
Terms never fall along a log, and none is later than its owner's.
-/

namespace Vraft

open Consensus (Committed Extends Genuine)

section Durability

variable {m : Membership} {meets : m.Intersecting} {s s' : Cluster} {a a' : Ghost} {p q : Addr}

/-! ## The log of a term -/

/-- A leader's log is the log of its term. -/
theorem Sim.tlog_of_leader (sim : Sim m meets s a) (mem : p ∈ m.members)
    (leader : (s.node p).state = .leader) :
    a.leader (a.term p) = some p ∧ (s.node p).log.entries = a.tlog (a.term p) := by
  have live := sim.live p mem
  have leads : a.leader (a.term p) = some p := live.leads leader
  exact ⟨leads, live.entries.trans (sim.inv.logs.leader_log leads rfl)⟩

/-- A log that has an entry of a term follows the log of that term up to it. -/
theorem Sim.take_of_term (sim : Sim m meets s a) (mem : q ∈ m.members) {k : ℕ}
    {entry : AppendEntry} (found : (s.node q).log.entries[k]? = some entry) :
    (s.node q).log.entries.take (k + 1) <+: a.tlog entry.term := by
  have live := sim.live q mem
  have entries : (s.node q).log.entries = a.log q := live.entries
  rw [entries] at found ⊢
  exact (sim.inv.logs.log_genuine q k entry found).2

/-- As long as its term lasts, a leader's log is only extended, also after it has
lost its lead to a crash.  Every log with an entry of the term follows the log of
the leader up to that entry, whichever of the two is seen first. -/
theorem leader_appends_only (odd : Odd m.size) (reachable : s.Reachable m Cluster.Whole)
    (run : Cluster.Run m Cluster.Whole s s') (memP : p ∈ m.members) (memQ : q ∈ m.members) :
    ((s.node p).state = .leader → (s'.node p).solid.term = (s.node p).solid.term →
      (s.node p).log.entries <+: (s'.node p).log.entries) ∧
    (∀ k entry, (s.node q).log.entries[k]? = some entry → (s'.node p).state = .leader →
      entry.term = (s'.node p).solid.term →
        (s.node q).log.entries.take (k + 1) <+: (s'.node p).log.entries) ∧
    (∀ k entry, (s'.node q).log.entries[k]? = some entry → (s.node p).state = .leader →
      entry.term = (s.node p).solid.term → k < (s.node p).log.entries.length →
        (s'.node q).log.entries.take (k + 1) <+: (s.node p).log.entries) := by
  obtain ⟨a, sim⟩ := Sim.of_reachable (Or.inl odd) reachable
  obtain ⟨a', steps, sim'⟩ := sim.run run
  have ext := Extends.of_steps sim.inv steps
  have term : (s.node p).solid.term = a.term p := (sim.live p memP).term
  have term' : (s'.node p).solid.term = a'.term p := (sim'.live p memP).term
  refine ⟨?appends, ?later, ?earlier⟩
  case appends =>
    intro leader sameTerm
    obtain ⟨leads, log_eq⟩ := sim.tlog_of_leader memP leader
    have entries' : (s'.node p).log.entries = a'.log p := (sim'.live p memP).entries
    have stays : a'.term p = a.term p := term'.symm.trans (sameTerm.trans term)
    rw [log_eq, entries', sim'.inv.logs.leader_log (ext.leader leads) stays]
    exact ext.tlog (by simp [leads])
  case later =>
    intro k entry found leader own
    obtain ⟨-, log_eq⟩ := sim'.tlog_of_leader memP leader
    have led : a.leader entry.term ≠ none :=
      (sim.inv.logs.log_genuine q k entry ((sim.live q memQ).entries ▸ found)).1
    have held := (sim.take_of_term memQ found).trans (ext.tlog led)
    rw [log_eq, ← term', ← own]
    exact held
  case earlier =>
    intro k entry found leader own inside
    obtain ⟨leads, log_eq⟩ := sim.tlog_of_leader memP leader
    have held := sim'.take_of_term memQ found
    rw [own, term] at held
    have longer : (s.node p).log.entries <+: a'.tlog (a.term p) := by
      rw [log_eq]
      exact ext.tlog (by simp [leads])
    refine List.prefix_of_prefix_length_le held longer ?_
    rw [List.length_take]
    omega

/-- A leader of three before and after a proposal; its follower holds the entry
with which the term began. -/
theorem leader_appends_only_three :
    ∃ s s' : Cluster, s.Reachable (.upTo 3) Cluster.Whole ∧
      Cluster.Run (.upTo 3) Cluster.Whole s s' ∧
      (s.node 1).log.entries.length = 1 ∧ (s'.node 1).log.entries.length = 2 ∧
      (s.node 1).log.entries <+: (s'.node 1).log.entries ∧
      (s'.node 2).log.entries.take 1 <+: (s.node 1).log.entries := by
  have observed : ((Cluster.start (.upTo 3)).play (.upTo 3) (Cluster.election 1 [2])).any
      (fun s => decide ((s.node 1).state = .leader ∧ (s.node 1).solid.term = 2 ∧
        (s.node 1).log.entries.length = 1) &&
        (s.play (.upTo 3) (Cluster.replication.drop 4)).any
          (fun s' => decide ((s'.node 1).solid.term = 2 ∧ (s'.node 1).log.entries.length = 2 ∧
            (s'.node 2).log.entries[0]? = some ⟨2, .noop, Node.noopValue⟩))) = true := by
    decide +kernel
  obtain ⟨s, run, found⟩ := Cluster.run_of_observed observed
  obtain ⟨now, thereafter⟩ := Bool.and_eq_true_iff.mp found
  obtain ⟨s', run', found'⟩ := Cluster.run_of_observed thereafter
  obtain ⟨leader, term, short⟩ := of_decide_eq_true now
  obtain ⟨term', long, noop⟩ := of_decide_eq_true found'
  have reachable : s.Reachable (.upTo 3) Cluster.Whole := ⟨_, run⟩
  have kept := leader_appends_only (p := 1) (q := 2) (by decide) reachable run' (by decide)
    (by decide)
  exact ⟨s, s', reachable, run', short, long, kept.1 leader (term'.trans term.symm),
    kept.2.2 0 _ noop leader term.symm (by omega)⟩

/-! ## Committed entries -/

/-- What a member has committed or applied stays at the start of its log, and a
majority holds it from then on. -/
theorem committed_stays (odd : Odd m.size) (reachable : s.Reachable m Cluster.Whole)
    (run : Cluster.Run m Cluster.Whole s s') (mem : p ∈ m.members) {index : ℕ}
    (covers : (s.node p).Covers index) :
    ((s.node p).log.entries.take index).length = index ∧
      (s.node p).log.entries.take index <+: (s'.node p).log.entries ∧
      m.MajorityHolds s'.logs ((s.node p).log.entries.take index) := by
  obtain ⟨a, sim⟩ := Sim.of_reachable (Or.inl odd) reachable
  obtain ⟨a', steps, sim'⟩ := sim.run run
  have committed := sim.committed_of_covers mem covers
  have committed' := committed.steps sim.inv steps
  have agree := committed.agree sim.inv sim'.inv (Extends.of_steps sim.inv steps) committed'
  have entries : (s.node p).log.entries = a.log p := (sim.live p mem).entries
  have entries' : (s'.node p).log.entries = a'.log p := (sim'.live p mem).entries
  have logs_eq : ∀ q ∈ m.members, s'.logs q = a'.log q := fun q memQ => (sim'.live q memQ).entries
  refine ⟨?_, ?_, ?_⟩
  · rw [entries, List.length_take, min_eq_left committed.length_le]
  · rw [entries, entries', agree]
    exact List.take_prefix _ _
  · rw [entries, agree]
    exact majorityHolds_of_committed sim'.inv mem committed' logs_eq

/-- A leader of three commits two entries and restarts: its commit index is lost,
the entries are not. -/
theorem committed_stays_three :
    ∃ s s' : Cluster, s.Reachable (.upTo 3) Cluster.Whole ∧
      Cluster.Run (.upTo 3) Cluster.Whole s s' ∧
      (s.node 1).commit = 2 ∧ (s'.node 1).commit = 0 ∧
      (s.node 1).log.entries.take 2 <+: (s'.node 1).log.entries ∧
      Membership.MajorityHolds (.upTo 3) s'.logs ((s.node 1).log.entries.take 2) := by
  have observed : ((Cluster.start (.upTo 3)).play (.upTo 3) Cluster.replication).any
      (fun s => decide ((s.node 1).commit = 2)) = true := by decide +kernel
  obtain ⟨s, run, found⟩ := Cluster.run_of_observed observed
  have commit := of_decide_eq_true found
  have reachable : s.Reachable (.upTo 3) Cluster.Whole := ⟨_, run⟩
  have restart : Cluster.Step (.upTo 3) Cluster.Whole s _ :=
    .crash 1 (by decide) .electionTimer trivial [] (List.nil_prefix) (by simp [Cluster.Whole])
      ⟨false, false, false, {}⟩
  have covers : (s.node 1).Covers 2 := Or.inl commit.ge
  have kept := committed_stays (by decide) reachable (.single restart) (by decide) covers
  exact ⟨s, _, reachable, .single restart, commit, rfl, kept.2.1, kept.2.2⟩

/-! ## Terms -/

theorem sorted_of_genuine {log : List AppendEntry} (inv : Consensus.LogInv AppendEntry.term a)
    (genuine : Genuine AppendEntry.term a log) :
    log.Pairwise fun first second => first.term ≤ second.term := by
  rw [List.pairwise_iff_getElem]
  intro i j boundI boundJ lt
  obtain ⟨-, held⟩ := genuine j log[j] (List.getElem?_eq_getElem boundJ)
  have inside : log[i] ∈ log.take (j + 1) :=
    List.mem_take_iff_getElem.mpr ⟨i, by omega, rfl⟩
  exact inv.tlog_le (held.subset inside)

/-- Along every log the terms never fall, and they end no later than the term of
the log's owner. -/
theorem terms_never_fall (odd : Odd m.size) (reachable : s.Reachable m Cluster.Whole)
    (mem : p ∈ m.members) :
    ((s.node p).log.entries.map AppendEntry.term).Pairwise (· ≤ ·) ∧
      ∀ entry ∈ (s.node p).log.entries, entry.term ≤ (s.node p).solid.term := by
  obtain ⟨a, sim⟩ := Sim.of_reachable (Or.inl odd) reachable
  have entries : (s.node p).log.entries = a.log p := (sim.live p mem).entries
  have term : (s.node p).solid.term = a.term p := (sim.live p mem).term
  rw [entries, term, List.pairwise_map]
  exact ⟨sorted_of_genuine sim.inv.logs (sim.inv.logs.log_genuine p), fun entry => sim.inv.logs.log_le⟩

/-- The two entries of a leader of three. -/
theorem terms_never_fall_three :
    ∃ s : Cluster, s.Reachable (.upTo 3) Cluster.Whole ∧
      (s.node 1).log.entries.map AppendEntry.term = [2, 2] ∧
      ∀ entry ∈ (s.node 1).log.entries, entry.term ≤ (s.node 1).solid.term := by
  have observed : ((Cluster.start (.upTo 3)).play (.upTo 3) Cluster.replication).any
      (fun s => decide ((s.node 1).log.entries.map AppendEntry.term = [2, 2])) = true := by
    decide +kernel
  obtain ⟨s, run, found⟩ := Cluster.run_of_observed observed
  have reachable : s.Reachable (.upTo 3) Cluster.Whole := ⟨_, run⟩
  exact ⟨s, reachable, of_decide_eq_true found,
    (terms_never_fall (p := 1) (by decide) reachable (by decide)).2⟩

end Durability

end Vraft
