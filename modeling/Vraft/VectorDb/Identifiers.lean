import Vraft.VectorDb.Persistence

/-!
# Identifiers and references

The counters of a process know nothing of the identifiers that are loaded, and a replica
refers to the counter of partitions instead of its partition.  So the identifiers are
unique and the references right as long as one process creates all tables, none of
them with a replica.
-/

namespace Vraft.VectorDb

open Raw Std

/-- Every identifier belongs to one object, and every reference to the object meant. -/
structure Identified (tables : Tables) : Prop where
  table : ∀ t ∈ Tables.items tables, ∀ t' ∈ Tables.items tables, t.uid = t'.uid → t = t'
  partition : ∀ t ∈ Tables.items tables, ∀ p ∈ t.partitions.items,
    ∀ t' ∈ Tables.items tables, ∀ p' ∈ t'.partitions.items,
      p.uid = p'.uid → t = t' ∧ p.id = p'.id
  replica : ∀ t ∈ Tables.items tables, ∀ p ∈ t.partitions.items, ∀ r ∈ p.replicas.items,
    ∀ t' ∈ Tables.items tables, ∀ p' ∈ t'.partitions.items, ∀ r' ∈ p'.replicas.items,
      r.uid = r'.uid → t = t' ∧ p.id = p'.id ∧ r.id = r'.id
  tableUid : ∀ t ∈ Tables.items tables, ∀ p ∈ t.partitions.items,
    p.tableUid = t.uid ∧ ∀ r ∈ p.replicas.items, r.tableUid = t.uid
  partitionUid : ∀ t ∈ Tables.items tables, ∀ p ∈ t.partitions.items, ∀ r ∈ p.replicas.items,
    r.partitionUid = p.uid

/-- How many partitions the tables have. -/
def partitionCount (tables : Tables) : ℕ :=
  ((Tables.items tables).map fun t => times t.partitionNum).sum

namespace Metadata

/-- A table is created by the process that has created all others, none of its
partitions has a replica, and the counter of partitions does not start again from zero.
The store is opened again only while it is storable. -/
def OneCreator (m : Metadata) : Event → Prop
  | .addTable param _ => m.tables[param.name]? = none →
      m.counters.tableUid.toNat = m.tables.size ∧
        (times param.partitionNum = 0 ∨ times param.replicaNum = 0) ∧
          partitionCount m.tables + times param.partitionNum ≤ 2 ^ 64
  | .reopen _ => Storable m.tables

end Metadata

theorem partitionCount_insert {tables : Tables} {name : Bytes} {t : Table}
    (absent : tables[name]? = none) :
    partitionCount (tables.insert name t) = partitionCount tables + times t.partitionNum := by
  rw [partitionCount, ((items_insert absent).map _).sum_eq, List.map_cons, List.sum_cons,
    Nat.add_comm]
  rfl

/-! ## Runs -/

namespace Metadata

/-- The identifiers are those a single process has given, from zero on; another process
starts from zero again. -/
structure Numbered (m : Metadata) : Prop where
  identified : Identified m.tables
  bare : ∀ t ∈ Tables.items m.tables, ∀ p ∈ t.partitions.items, p.replicas.items = []
  firstTable : 0 < m.tables.size → ∃ t ∈ Tables.items m.tables, t.uid = 0
  firstPartition : 0 < partitionCount m.tables →
    ∃ t ∈ Tables.items m.tables, ∃ p ∈ t.partitions.items, p.uid = 0
  few : partitionCount m.tables ≤ 2 ^ 64
  own : m.counters.tableUid.toNat = m.tables.size →
    m.counters.partitionUid = UInt64.ofNat (partitionCount m.tables) ∧
      ∀ t ∈ Tables.items m.tables, t.uid.toNat < m.tables.size ∧
        ∀ p ∈ t.partitions.items, p.uid.toNat < partitionCount m.tables
  foreign : m.counters.tableUid.toNat ≠ m.tables.size → m.counters.tableUid = 0

theorem numbered_fresh : Numbered fresh := by
  have none_there : Tables.items fresh.tables = [] := rfl
  have nothing {post : Table → Prop} : ∀ t ∈ Tables.items fresh.tables, post t := by
    rw [none_there]
    intro t mem
    contradiction
  exact ⟨⟨nothing, nothing, nothing, nothing, nothing⟩, nothing,
    fun positive => absurd positive (lt_irrefl 0), fun positive => absurd positive (lt_irrefl 0),
    Nat.zero_le _, fun _ => ⟨rfl, nothing⟩, fun _ => rfl⟩

/-- What is known of a table that has just been created where all others are the
process's own. -/
theorem Numbered.created {m : Metadata} (numbered : m.Numbered) {param : TableParam}
    (own : m.counters.tableUid.toNat = m.tables.size)
    (room : partitionCount m.tables + times param.partitionNum ≤ 2 ^ 64) :
    ∀ p ∈ (createTable param m.counters).1.partitions.items,
      ∃ i < times param.partitionNum, p.id = Int32.ofNat i ∧
        p.uid.toNat = partitionCount m.tables + i := by
  intro p mem
  obtain ⟨i, lt, rfl⟩ := mem_created.mp mem
  refine ⟨i, lt, partitionOf_id _ _, ?_⟩
  rw [partitionOf_uid]
  show (m.counters.partitionUid + UInt64.ofNat i).toNat = _
  rw [(numbered.own own).1, ← UInt64.ofNat_add, UInt64.toNat_ofNat']
  exact Nat.mod_eq_of_lt (by omega)

section Adding

variable {m m' : Metadata} {param : TableParam}

/-- Another table without replicas keeps the identifiers apart. -/
theorem Numbered.identified_insert (numbered : m.Numbered)
    (absent : m.tables[param.name]? = none)
    (own : m.counters.tableUid.toNat = m.tables.size)
    (bare : times param.partitionNum = 0 ∨ times param.replicaNum = 0)
    (room : partitionCount m.tables + times param.partitionNum ≤ 2 ^ 64) :
    Identified (m.tables.insert param.name (createTable param m.counters).1) := by
  have created := numbered.created own room
  have older := (numbered.own own).2
  have uid : (createTable param m.counters).1.uid.toNat = m.tables.size := by
    rw [createTable_uid, own]
  have empty : ∀ p ∈ (createTable param m.counters).1.partitions.items, p.replicas.items = [] := by
    intro p mem
    rcases bare with noPartition | noReplica
    · obtain ⟨i, lt, -⟩ := created p mem
      omega
    · exact replicas_of_created mem noReplica
  have made := createTable_made param m.counters
  generalize (createTable param m.counters).1 = new at *
  have none_inside : ∀ t ∈ Tables.items (m.tables.insert param.name new),
      ∀ p ∈ t.partitions.items, p.replicas.items = [] := by
    intro t mem
    rcases (mem_items_insert absent).mp mem with rfl | earlier
    · exact empty
    · exact numbered.bare t earlier
  constructor
  · intro t mem t' mem' same
    rcases (mem_items_insert absent).mp mem with rfl | earlier <;>
      rcases (mem_items_insert absent).mp mem' with rfl | earlier'
    · rfl
    · have := (older t' earlier').1
      rw [← same, uid] at this
      omega
    · have := (older t earlier).1
      rw [same, uid] at this
      omega
    · exact numbered.identified.table t earlier t' earlier' same
  · intro t mem p inside t' mem' p' inside' same
    rcases (mem_items_insert absent).mp mem with rfl | earlier <;>
      rcases (mem_items_insert absent).mp mem' with rfl | earlier'
    · obtain ⟨i, -, id, value⟩ := created p inside
      obtain ⟨i', -, id', value'⟩ := created p' inside'
      rw [same, value'] at value
      have equal : i' = i := by omega
      exact ⟨rfl, by rw [id, id', equal]⟩
    · obtain ⟨i, -, -, value⟩ := created p inside
      have := (older t' earlier').2 p' inside'
      rw [← same, value] at this
      omega
    · obtain ⟨i, -, -, value⟩ := created p' inside'
      have := (older t earlier).2 p inside
      rw [same, value] at this
      omega
    · exact numbered.identified.partition t earlier p inside t' earlier' p' inside' same
  · intro t mem p inside r within
    rw [none_inside t mem p inside] at within
    contradiction
  · intro t mem p inside
    rw [none_inside t mem p inside]
    refine ⟨?_, fun r within => absurd within List.not_mem_nil⟩
    rcases (mem_items_insert absent).mp mem with rfl | earlier
    · exact (made.each p (made.items.mem_iff.mp inside)).tableUid
    · exact (numbered.identified.tableUid t earlier p inside).1
  · intro t mem p inside r within
    rw [none_inside t mem p inside] at within
    contradiction

theorem Numbered.add (numbered : m.Numbered) (absent : m.tables[param.name]? = none)
    (meets : m.counters.tableUid.toNat = m.tables.size ∧
      (times param.partitionNum = 0 ∨ times param.replicaNum = 0) ∧
        partitionCount m.tables + times param.partitionNum ≤ 2 ^ 64)
    (counters : m'.counters = (createTable param m.counters).2)
    (tables : m'.tables = m.tables.insert param.name (createTable param m.counters).1) :
    m'.Numbered := by
  obtain ⟨own, bare, room⟩ := meets
  have created := numbered.created own room
  obtain ⟨partitionUid, older⟩ := numbered.own own
  have uid : (createTable param m.counters).1.uid = m.counters.tableUid := createTable_uid
  have tableUid' : m'.counters.tableUid = m.counters.tableUid + 1 := by
    rw [counters, createTable_eq]
    rfl
  have partitionUid' : m'.counters.partitionUid =
      m.counters.partitionUid + UInt64.ofNat (times param.partitionNum) := by
    rw [counters, createTable_eq]
    rfl
  have size : m'.tables.size = m.tables.size + 1 := by rw [tables, size_insert absent]
  have count : partitionCount m'.tables = partitionCount m.tables + times param.partitionNum := by
    rw [tables, partitionCount_insert absent, createTable_partitionNum]
  have below := m.counters.tableUid.toNat_lt
  have next : m'.counters.tableUid.toNat = (m.tables.size + 1) % 2 ^ 64 := by
    rw [tableUid', UInt64.toNat_add, own]
    rfl
  constructor
  · rw [tables]
    exact numbered.identified_insert absent own bare room
  · rw [tables]
    intro t mem p inside
    rcases (mem_items_insert absent).mp mem with rfl | earlier
    · rcases bare with noPartition | noReplica
      · obtain ⟨i, lt, -⟩ := created p inside
        omega
      · exact replicas_of_created inside noReplica
    · exact numbered.bare t earlier p inside
  · intro _
    rw [tables]
    by_cases first : m.tables.size = 0
    · refine ⟨_, (mem_items_insert absent).mpr (.inl rfl), ?_⟩
      rw [uid, ← UInt64.toNat_inj, own, first]
      rfl
    · obtain ⟨t, mem, zero⟩ := numbered.firstTable (by omega)
      exact ⟨t, (mem_items_insert absent).mpr (.inr mem), zero⟩
  · intro positive
    rw [tables]
    by_cases first : partitionCount m.tables = 0
    · have inside := (@mem_created _ m.counters _).mpr
        ⟨0, by omega, (rfl : partitionOf (newTable param m.counters)
          { m.counters with tableUid := m.counters.tableUid + 1 } 0 = _)⟩
      refine ⟨_, (mem_items_insert absent).mpr (.inl rfl), _, inside, ?_⟩
      rw [partitionOf_uid]
      show m.counters.partitionUid + UInt64.ofNat 0 = 0
      rw [partitionUid, first]
      rfl
    · obtain ⟨t, mem, p, inside, zero⟩ := numbered.firstPartition (by omega)
      exact ⟨t, (mem_items_insert absent).mpr (.inr mem), p, inside, zero⟩
  · rw [count]
    exact room
  · intro _
    refine ⟨by rw [partitionUid', partitionUid, count, UInt64.ofNat_add], ?_⟩
    rw [tables]
    intro t mem
    rcases (mem_items_insert absent).mp mem with rfl | earlier
    · refine ⟨by rw [uid, own, ← tables, size]; omega, fun p inside => ?_⟩
      obtain ⟨i, lt, -, value⟩ := created p inside
      rw [← tables, count]
      omega
    · refine ⟨?_, fun p inside => ?_⟩
      · have := (older t earlier).1
        rw [← tables, size]
        omega
      · have := (older t earlier).2 p inside
        rw [← tables, count]
        omega
  · intro other
    rw [← UInt64.toNat_inj, next]
    rw [next, size] at other
    show _ = 0
    omega

/-- The condition is what it takes. -/
theorem Numbered.meets_of_identified (numbered : m.Numbered) (made : Tables.Made m.tables)
    (absent : m.tables[param.name]? = none)
    (identified : Identified (m.tables.insert param.name (createTable param m.counters).1)) :
    m.counters.tableUid.toNat = m.tables.size ∧
      (times param.partitionNum = 0 ∨ times param.replicaNum = 0) ∧
        partitionCount m.tables + times param.partitionNum ≤ 2 ^ 64 := by
  have new : (createTable param m.counters).1 ∈
      Tables.items (m.tables.insert param.name (createTable param m.counters).1) :=
    (mem_items_insert absent).mpr (.inl rfl)
  have partition {i : ℕ} (lt : i < times param.partitionNum) :
      partitionOf (newTable param m.counters)
          { m.counters with tableUid := m.counters.tableUid + 1 } i ∈
        (createTable param m.counters).1.partitions.items :=
    mem_created.mpr ⟨i, lt, rfl⟩
  have differ : ∀ t ∈ Tables.items m.tables, t ≠ (createTable param m.counters).1 := by
    rintro t mem rfl
    obtain ⟨k, found⟩ := Tables.mem_items.mp mem
    have named := (made k _ found).1
    rw [createTable_eq] at named
    obtain rfl : param.name = k := named
    rw [absent] at found
    contradiction
  have own : m.counters.tableUid.toNat = m.tables.size := by
    by_contra other
    have zero := numbered.foreign other
    have positive : 0 < m.tables.size := by
      rw [zero] at other
      exact Nat.pos_of_ne_zero fun none_there => other none_there.symm
    obtain ⟨t, mem, first⟩ := numbered.firstTable positive
    refine differ t mem (identified.table t ((mem_items_insert absent).mpr (.inr mem)) _ new ?_)
    rw [first, createTable_uid, zero]
  refine ⟨own, ?_, ?_⟩
  · by_contra both
    rw [not_or] at both
    have inside := partition (i := 0) (by omega)
    obtain ⟨r, within⟩ := exists_replica inside (by omega)
    have right := identified.partitionUid _ new _ inside r within
    rw [partitionUid_of_created inside within] at right
    have wrong := congrArg UInt64.toNat right
    rw [UInt64.toNat_add] at wrong
    have := (partitionOf (newTable param m.counters)
      { m.counters with tableUid := m.counters.tableUid + 1 } 0).uid.toNat_lt
    have one : (1 : UInt64).toNat = 1 := rfl
    omega
  · by_contra over_
    have small := times_lt param.partitionNum
    have few := numbered.few
    obtain ⟨t, mem, p, inside, zero⟩ := numbered.firstPartition (by omega)
    have again := partition (i := 2 ^ 64 - partitionCount m.tables) (by omega)
    refine differ t mem (identified.partition t ((mem_items_insert absent).mpr (.inr mem)) p inside
      _ new _ again ?_).1
    rw [zero, partitionOf_uid]
    show 0 = m.counters.partitionUid + UInt64.ofNat _
    rw [(numbered.own own).1, ← UInt64.ofNat_add, ← UInt64.toNat_inj, UInt64.toNat_ofNat',
      Nat.add_sub_cancel' few]
    rfl

end Adding

theorem numbered_of_reached {m : Metadata} (reached : Reached OneCreator m) :
    m.Sound ∧ m.Numbered := by
  have storable : ∀ m event, OneCreator m event → m.StorableAtReopen event := by
    intro m event meets
    cases event with
    | addTable param order => trivial
    | reopen beyond => exact meets
  refine ⟨sound_of_reached storable reached, ?_⟩
  induction reached with
  | fresh => exact numbered_fresh
  | @step m m' event before visits meets done numbered =>
      cases event with
      | addTable param order =>
          obtain ⟨⟨rv, after⟩, added, done⟩ := ok_of_bind_ok done
          obtain rfl := Except.ok.inj done
          rcases addTable_eq_ok added with ⟨rfl, -⟩ | ⟨absent, counters, tables, -⟩
          · exact numbered
          · exact numbered.add absent (meets absent) counters tables
      | reopen beyond =>
          have same := (sound_of_reached storable before).reopen meets beyond
          obtain rfl := Except.ok.inj (same.symm.trans done)
          refine ⟨numbered.identified, numbered.bare, numbered.firstTable,
            numbered.firstPartition, numbered.few, ?_, fun _ => rfl⟩
          intro none_there
          have empty : Tables.items m.tables = [] := by
            rw [← List.length_eq_zero_iff, ← size_eq_length]
            exact none_there.symm
          refine ⟨?_, fun t mem => ?_⟩
          · show (0 : UInt64) = UInt64.ofNat (partitionCount m.tables)
            rw [partitionCount, empty]
            rfl
          · rw [show Tables.items (⟨.zero, m.tables, m.db⟩ : Metadata).tables = [] from empty] at mem
            contradiction

/-- Identifiers are unique and references right in every run whose steps all meet the
condition, and the first step that does not meet it makes them wrong. -/
theorem identified_of_reached {m : Metadata} (reached : Reached OneCreator m) :
    Identified m.tables ∧ ∀ event m', m.Visits event → m.StorableAtReopen event →
      m.step event = .ok m' → (Identified m'.tables ↔ OneCreator m event) := by
  obtain ⟨sound, numbered⟩ := numbered_of_reached reached
  refine ⟨numbered.identified, fun event m' visits storable done => ⟨fun identified => ?_, fun meets =>
    (numbered_of_reached (.step reached visits meets done)).2.identified⟩⟩
  cases event with
  | addTable param order =>
      intro absent
      obtain ⟨⟨rv, after⟩, added, done⟩ := ok_of_bind_ok done
      obtain rfl := Except.ok.inj done
      rcases addTable_eq_ok added with ⟨-, t, found⟩ | ⟨-, -, tables, -⟩
      · rw [absent] at found
        contradiction
      · rw [tables] at identified
        exact numbered.meets_of_identified sound.made absent identified
  | reopen beyond => exact storable

/-- A table with two partitions and no replicas; adding another one would be right. -/
theorem identified_of_reached_first : ∃ m, Reached OneCreator m ∧
    fresh.step (.addTable ⟨[116], [47], 2, 0, 3⟩ [[116]]) = .ok m ∧ Identified m.tables ∧
      OneCreator m (.addTable ⟨[117], [47], 1, 0, 3⟩ [[116], [117]]) := by
  have evaluated : Meets (fresh.step (.addTable ⟨[116], [47], 2, 0, 3⟩ [[116]]))
      (fun m => m.counters.tableUid.toNat = m.tables.size ∧ partitionCount m.tables = 2)
      fun _ => False := by decide +kernel
  obtain ⟨m, done, own, count⟩ := evaluated.exists_ok
  have first : OneCreator fresh (.addTable ⟨[116], [47], 2, 0, 3⟩ [[116]]) := fun _ =>
    ⟨rfl, .inr (by decide), by decide +kernel⟩
  have reached : Reached OneCreator m := reached_first first done
  refine ⟨m, reached, done, (identified_of_reached reached).1, fun _ => ⟨own, .inr (by decide), ?_⟩⟩
  rw [count]
  decide

/-- The replica of the first partition refers to a partition 1. -/
theorem dangling_replica :
    Meets (fresh.step (.addTable ⟨[116], [47], 1, 1, 3⟩ [[116]]))
      (fun m => ∃ t ∈ Tables.items m.tables, ∃ p ∈ t.partitions.items, ∃ r ∈ p.replicas.items,
        r.partitionUid ≠ p.uid)
      fun _ => False := by
  decide +kernel

theorem not_identified : ¬∀ m, Reached (fun _ _ => True) m → Identified m.tables := by
  intro identified
  obtain ⟨m, done, t, mem, p, inside, r, within, wrong⟩ := dangling_replica.exists_ok
  exact wrong ((identified m (reached_first trivial done)).partitionUid t mem p inside r within)

end Metadata

end Vraft.VectorDb
