import Vraft.Safety.Application
import Vraft.Safety.Provenance
import Vraft.Safety.StateMachine
import Vraft.Vstore.VstoreSm

/-!
# The replicated store

Every member applies the data entries of the committed log to a key-value
database of its own.  All databases go through one sequence of writes: each
answers as the writes it has seen, and of two of them one has seen the first of
what the other has.  The index that a database gives for its last entry is where
its member goes on after a restart.  It is enough that all proposals are puts; what
else comes to a machine goes back to them.
-/

namespace Vraft.Vstore

open Raw
open Consensus (Committed Extends)

/-- The database after some entries.  `beyond` is the memory that follows the value
of the entry at an index. -/
def database (beyond : ℕ → Memory) (entries : List LogEntry) : Db :=
  entries.foldl (fun db entry => VstoreSm.apply db entry (beyond entry.index)) (VstoreSm.make none)

/-- What entries write. -/
def writes (entries : List LogEntry) : List Applied :=
  entries.map fun entry =>
    ⟨entry.index, entry.appendEntry.term, KV.fromString entry.appendEntry.value fun _ => 0⟩

/-- The value is that of a plain pair, and index and term fit into their fields. -/
structure Legible (entry : LogEntry) : Prop where
  value : ∃ kv : KV, Plain kv ∧ kv.toString = some entry.appendEntry.value
  index : entry.index < 2 ^ 32
  term : entry.appendEntry.term < 2 ^ 64

/-- What a leader may be asked to put, in any term. -/
def Put (_term : ℕ) (value : Bytes) : Prop :=
  ∃ kv : KV, Plain kv ∧ kv.toString = some value

/-- Apply index and term fit into the fields of a database. -/
structure InRange (n : Node) : Prop where
  index : n.lastApply < 2 ^ 32
  term : n.solid.term < 2 ^ 64

/-- The data entries that a member has applied by its own account. -/
def seen (s : Cluster) (p : Addr) : List LogEntry :=
  dataEntries (s.node p).log.entries (s.node p).lastApply

/-- The database answers for the entries that its member has applied, and names the
one to go on from. -/
structure Serves (s : Cluster) (p : Addr) (db : Db) (key : Bytes) : Prop where
  faithful : Faithful db (writes (seen s p)) key
  resumes : ∃ last, VstoreSm.lastIndex db = .ok last ∧ last ≤ (s.node p).lastApply ∧
    dataEntries (s.node p).log.entries last = seen s p

/-! ## Entries in order -/

section Entries

variable {entries : List LogEntry} {log : List AppendEntry}

theorem indexed_sorted (index : ℕ) (log : List AppendEntry) :
    (indexed index log).Pairwise fun first second => first.index < second.index := by
  induction log generalizing index with
  | nil => exact List.Pairwise.nil
  | cons head rest ih =>
      refine List.Pairwise.cons (fun entry mem => ?_) (ih (index + 1))
      exact (mem_indexed mem).1

theorem dataEntries_sorted (log : List AppendEntry) (count : ℕ) :
    (dataEntries log count).Pairwise fun first second => first.index < second.index :=
  (indexed_sorted 1 (log.take count)).filter _

theorem dataEntries_prefix {log log' : List AppendEntry} {count count' : ℕ}
    (held : log.take count <+: log'.take count') :
    dataEntries log count <+: dataEntries log' count' := by
  obtain ⟨rest, same⟩ := held
  rw [dataEntries, dataEntries, ← same, indexed_append]
  exact (List.prefix_append _ _).filter _

/-- The database is reached by a run of the machine. -/
theorem run_database (beyond : ℕ → Memory) (legible : ∀ entry ∈ entries, Legible entry)
    (sorted : entries.Pairwise fun first second => first.index < second.index) :
    Run Plain (database beyond entries) (writes entries) := by
  induction entries using List.reverseRecOn with
  | nil => exact .start
  | append_singleton init last ih =>
      obtain ⟨earlier, -, below⟩ := List.pairwise_append.mp sorted
      have before := ih (fun entry mem => legible entry (List.mem_append_left _ mem)) earlier
      obtain ⟨⟨kv, plain, encoded⟩, index, term⟩ := legible last (by simp)
      have applied : writes (init ++ [last]) =
          writes init ++ [⟨last.index, last.appendEntry.term, kv⟩] := by
        rw [writes, List.map_append, List.map_singleton, fromString_toString plain.short encoded]
        rfl
      have stored : database beyond (init ++ [last]) =
          VstoreSm.apply (database beyond init) last (beyond last.index) :=
        List.foldl_concat _ _ _ _
      rw [applied, stored]
      refine .apply before (fun found mem => ?_) index term encoded plain
      obtain ⟨entry, inInit, rfl⟩ := List.mem_map.mp mem
      exact below entry inInit last (List.mem_singleton_self _)

/-- Up to the last data entry there are all data entries. -/
theorem dataEntries_last (log : List AppendEntry) (count : ℕ) :
    (lastApplied (writes (dataEntries log count))).lastIndex ≤ count ∧
      dataEntries log (lastApplied (writes (dataEntries log count))).lastIndex =
        dataEntries log count := by
  induction count with
  | zero => exact ⟨le_rfl, rfl⟩
  | succ count ih =>
      by_cases inside : count < log.length
      · have found := List.getElem?_eq_getElem inside
        by_cases data : log[count].type = .data
        · have concat : dataEntries log (count + 1) =
              dataEntries log count ++ [⟨count + 1, log[count]⟩] := by
            rw [dataEntries_succ found, if_pos data]
          have last : (lastApplied (writes (dataEntries log (count + 1)))).lastIndex =
              count + 1 := by
            rw [concat, writes, List.map_append, List.map_singleton, lastApplied_concat]
          rw [last]
          exact ⟨le_rfl, rfl⟩
        · have same : dataEntries log (count + 1) = dataEntries log count := by
            rw [dataEntries_succ found, if_neg data, List.append_nil]
          rw [same]
          exact ⟨ih.1.trans (Nat.le_succ count), ih.2⟩
      · have same : dataEntries log (count + 1) = dataEntries log count := by
          rw [dataEntries, dataEntries, List.take_of_length_le (by omega),
            List.take_of_length_le (by omega)]
        rw [same]
        exact ⟨ih.1.trans (Nat.le_succ count), ih.2⟩

end Entries

/-! ## Members of a cluster -/

section Cluster

variable {m : Membership} {meets : m.Intersecting} {s s' : Cluster} {a a' : Ghost} {p q : Addr}
  {key : Bytes}

theorem hist_grows {crash : List Effect → Prop} (run : Cluster.Run m crash s s') (p : Addr) :
    s.hist p <+: s'.hist p := by
  have updated (t : Cluster) (q : Addr) (n : Node) (effects : List Effect) :
      t.hist p <+: (t.update q n effects).hist p := by
    by_cases same : p = q
    · subst same
      simp only [Cluster.update, Function.update_self]
      exact List.prefix_append _ _
    · simp only [Cluster.update, Function.update_of_ne same]
      exact List.prefix_rfl
  induction run with
  | refl => exact List.prefix_rfl
  | tail _ step ih =>
      cases step with
      | handle q _ _ _ n _ => exact ih.trans (updated _ q n n.effects)
      | crash q _ _ _ performed _ _ _ => exact ih.trans (updated _ q _ performed)

/-- What a member has applied are puts, because nothing else was proposed. -/
theorem legible_of_seen {crash : List Effect → Prop} (reachable : s.ProposedReachable m crash Put)
    (sim : Sim m meets s a) (mem : p ∈ m.members) (inRange : InRange (s.node p)) :
    ∀ entry ∈ seen s p, Legible entry := by
  intro entry inSeen
  obtain ⟨inTaken, data⟩ := List.mem_filter.mp inSeen
  obtain ⟨positive, found⟩ := mem_indexed inTaken
  have below := (List.getElem?_eq_some_iff.mp found).1
  rw [List.length_take] at below
  have held : entry.appendEntry ∈ (s.node p).log.entries :=
    List.mem_of_mem_take (List.mem_of_getElem? found)
  have live := sim.live p mem
  have term : entry.appendEntry.term ≤ (s.node p).solid.term := by
    rw [show (s.node p).solid.term = a.term p from live.term]
    exact sim.inv.logs.log_le (live.entries ▸ held)
  have index := inRange.index
  exact ⟨(traced_of_reachable reachable p).sources.held _ held (of_decide_eq_true data), by omega,
    term.trans_lt inRange.term⟩

theorem applied_eq_seen (sim : Sim m meets s a) (mem : p ∈ m.members)
    (hasSm : m.hasSm p = true) : appliedEntries (s.hist p) = seen s p := by
  have live := sim.live p mem
  have entries : (s.node p).log.entries = a.log p := live.entries
  rw [seen, entries, live.applied]
  exact (live.sm_eq (live.hasSm.trans hasSm)).symm

theorem serves (sim : Sim m meets s a) (mem : p ∈ m.members) (hasSm : m.hasSm p = true)
    (legible : ∀ entry ∈ seen s p, Legible entry) (own : Own key) (beyond : ℕ → Memory) :
    Serves s p (database beyond (appliedEntries (s.hist p))) key := by
  rw [applied_eq_seen sim mem hasSm]
  have faithful : Faithful (database beyond (seen s p)) (writes (seen s p)) key :=
    faithful_of_run (run_database beyond legible (dataEntries_sorted _ _)) own
  obtain ⟨le, rest⟩ := dataEntries_last (s.node p).log.entries (s.node p).lastApply
  exact ⟨faithful, _, faithful.lastIndex, le, rest⟩

/-- Of two members, or one at two moments, the one that has applied less has applied
the first of what the other has. -/
theorem seen_prefix (inv : Consensus.Inv AppendEntry.term (m.quorums meets) a)
    (inv' : Consensus.Inv AppendEntry.term (m.quorums meets) a') (ext : Extends a a')
    {i j : ℕ} (first : Committed AppendEntry.term (m.quorums meets) a p i)
    (second : Committed AppendEntry.term (m.quorums meets) a' q j) :
    (i ≤ j → dataEntries (a.log p) i <+: dataEntries (a'.log q) j) ∧
      (j ≤ i → dataEntries (a'.log q) j <+: dataEntries (a.log p) i) := by
  constructor
  · intro le
    have agree := first.agree inv inv' ext (second.of_le le)
    exact dataEntries_prefix (agree ▸ List.take_prefix_take_left le)
  · intro le
    have agree := (first.of_le le).agree inv inv' ext second
    exact dataEntries_prefix (agree ▸ List.take_prefix_take_left le)

/-- All databases follow one log.  Whenever and wherever a key is read, the answer is
that of the writes in a prefix of the committed data entries, and a member never
goes back, not even over a restart. -/
theorem stores_follow_one_log (odd : Odd m.size)
    (reachable : s.ProposedReachable m Cluster.Whole Put)
    (run : Cluster.ProposedRun m Cluster.Whole Put s s') (memP : p ∈ m.members)
    (memQ : q ∈ m.members) (smP : m.hasSm p = true) (smQ : m.hasSm q = true)
    (inRange : InRange (s.node p)) (inRange' : InRange (s'.node q)) (own : Own key)
    (beyond beyond' : ℕ → Memory) :
    Serves s p (database beyond (appliedEntries (s.hist p))) key ∧
      Serves s' q (database beyond' (appliedEntries (s'.hist q))) key ∧
      ((s.node p).lastApply ≤ (s'.node q).lastApply ∨ p = q → seen s p <+: seen s' q) ∧
      ((s'.node q).lastApply ≤ (s.node p).lastApply → seen s' q <+: seen s p) := by
  obtain ⟨a, sim⟩ := Sim.of_reachable (Or.inl odd) (reachable_of_proposedReachable reachable)
  obtain ⟨a', steps, sim'⟩ := sim.run (run_of_proposedRun run)
  have legible := legible_of_seen reachable sim memP inRange
  have legible' := legible_of_seen (reachable.trans run) sim' memQ inRange'
  have entries : (s.node p).log.entries = a.log p := (sim.live p memP).entries
  have entries' : (s'.node q).log.entries = a'.log q := (sim'.live q memQ).entries
  have ordered := seen_prefix sim.inv sim'.inv (Extends.of_steps sim.inv steps)
    (sim.live p memP).applies (sim'.live q memQ).applies
  refine ⟨serves sim memP smP legible own beyond, serves sim' memQ smQ legible' own beyond', ?_, ?_⟩
  · rintro (le | rfl)
    · rw [seen, seen, entries, entries']
      exact ordered.1 le
    · rw [← applied_eq_seen sim memP smP, ← applied_eq_seen sim' memQ smQ]
      exact (hist_grows (run_of_proposedRun run) p).filterMap _
  · intro le
    rw [seen, seen, entries, entries']
    exact ordered.2 le

/-- `1` is elected by `2`, is asked to put a pair and applies it. -/
def firstPut : List Cluster.Move :=
  Cluster.election 1 [2] ++ [.handle 1 (.propose [1, 107, 1, 118])] ++ Cluster.exchange 1 2 ++
    Cluster.exchange 1 2

theorem firstPut_puts (p : Addr) (value : Bytes) (mem : .handle p (.propose value) ∈ firstPut)
    (term : ℕ) : Put term value := by
  have same : p = 1 ∧ value = [1, 107, 1, 118] := by
    simpa [firstPut, Cluster.election, Cluster.exchange] using mem
  rw [same.2]
  exact ⟨⟨[107], [118]⟩, ⟨⟨by decide, by decide⟩, by decide⟩, by decide⟩

/-- The leader of three has applied a pair; later its follower has, and answers for
its key. -/
theorem stores_follow_one_log_three :
    ∃ s s' : Cluster, s.ProposedReachable (.upTo 3) Cluster.Whole Put ∧
      Cluster.ProposedRun (.upTo 3) Cluster.Whole Put s s' ∧
      seen s 1 = [⟨2, 2, .data, [1, 107, 1, 118]⟩] ∧ seen s 2 = [] ∧ seen s 1 <+: seen s' 2 ∧
      VstoreSm.get (database (fun _ _ => 0) (appliedEntries (s'.hist 2))) [107] =
        (0, some [118]) := by
  have observed : ((Cluster.start (.upTo 3)).play (.upTo 3) firstPut).any
      (fun s => decide (seen s 1 = [⟨2, 2, .data, [1, 107, 1, 118]⟩] ∧ seen s 2 = [] ∧
        (s.node 1).lastApply = 2 ∧ (s.node 1).solid.term = 2) &&
        (s.play (.upTo 3) (Cluster.exchange 1 2)).any
          (fun s' => decide (seen s' 2 = [⟨2, 2, .data, [1, 107, 1, 118]⟩] ∧
            (s'.node 2).lastApply = 2 ∧ (s'.node 2).solid.term = 2))) = true := by
    decide +kernel
  obtain ⟨s, run, found⟩ := proposedRun_of_observed observed firstPut_puts
  obtain ⟨now, thereafter⟩ := Bool.and_eq_true_iff.mp found
  obtain ⟨s', run', found'⟩ := proposedRun_of_observed thereafter
    (show ∀ p value, .handle p (.propose value) ∈ Cluster.exchange 1 2 → ∀ term, Put term value by
      simp [Cluster.exchange])
  obtain ⟨leader, follower, applied, term⟩ := of_decide_eq_true now
  obtain ⟨caughtUp, applied', term'⟩ := of_decide_eq_true found'
  have reachable : s.ProposedReachable (.upTo 3) Cluster.Whole Put := ⟨_, run⟩
  have own : Own [107] := ⟨by decide, by decide⟩
  obtain ⟨-, serves, less, -⟩ := stores_follow_one_log (p := 1) (q := 2) (by decide) reachable
    run' (by decide) (by decide) rfl rfl ⟨by omega, by omega⟩ ⟨by omega, by omega⟩ own
    (fun _ _ => 0) (fun _ _ => 0)
  refine ⟨s, s', reachable, run', leader, follower, less (.inl (applied.trans applied'.symm).le), ?_⟩
  rw [serves.faithful.get, caughtUp]
  decide +kernel

end Cluster

end Vraft.Vstore
