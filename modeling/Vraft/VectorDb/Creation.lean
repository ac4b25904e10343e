import Vraft.VectorDb.Metadata

/-!
# What is created

A table has its partitions under the numbers from zero on, and so has a partition its
replicas; their names and paths are composed of those they belong to.
-/

namespace Vraft.VectorDb

open Std

/-! ## Counting -/

namespace Counters

/-- After some replicas and partitions have been created. -/
def after (counters : Counters) (replicas partitions : ℕ) : Counters :=
  ⟨counters.replicaUid + UInt64.ofNat replicas, counters.partitionUid + UInt64.ofNat partitions,
    counters.tableUid⟩

@[simp]
theorem after_zero (counters : Counters) : counters.after 0 0 = counters := by
  simp [after]

theorem after_after (counters : Counters) (replicas partitions replicas' partitions' : ℕ) :
    (counters.after replicas partitions).after replicas' partitions' =
      counters.after (replicas + replicas') (partitions + partitions') := by
  simp [after, UInt64.ofNat_add, add_assoc]

theorem after_replica (counters : Counters) (replicas partitions : ℕ) :
    { counters.after replicas partitions with
      replicaUid := (counters.after replicas partitions).replicaUid + 1 } =
      counters.after (replicas + 1) partitions := by
  simp [after, UInt64.ofNat_add, add_assoc]

theorem after_partition (counters : Counters) (replicas partitions : ℕ) :
    { counters.after replicas partitions with
      partitionUid := (counters.after replicas partitions).partitionUid + 1 } =
      counters.after replicas (partitions + 1) := by
  simp [after, UInt64.ofNat_add, add_assoc]

end Counters

/-- The replicas of a partition that is created with these counters. -/
def replicasOf (param : Partition) (counters : Counters) : List Replica :=
  (List.range (times param.replicaNum)).map fun i => newReplica param (counters.after i 0) i

theorem createPartition_eq {param : Partition} (none_yet : param.replicas = .empty)
    (counters : Counters) :
    createPartition param counters =
      ({ param with
          replicas := .addAll Replica.id Replica.name .empty (replicasOf param counters) },
        counters.after (times param.replicaNum) 0) := by
  have rounds (n : ℕ) : (List.range n).foldl (addReplica param) (param, counters) =
      ({ param with
          replicas := .addAll Replica.id Replica.name .empty
            ((List.range n).map fun i => newReplica param (counters.after i 0) i) },
        counters.after n 0) := by
    induction n with
    | zero =>
        rw [List.range_zero, List.foldl_nil, Counters.after_zero, List.map_nil, Indexed.addAll,
          List.foldl_nil, ← none_yet]
    | succ n ih =>
        rw [List.range_succ, List.foldl_append, ih, List.map_append, Indexed.addAll,
          Indexed.addAll, List.foldl_append, List.map_singleton, List.foldl_cons, List.foldl_nil,
          ← Counters.after_replica]
        rfl
  exact rounds _

/-- The partition with number `i` of a table that is created with these counters. -/
def partitionOf (table : Table) (counters : Counters) (i : ℕ) : Partition :=
  (createPartition (newPartition table (counters.after (i * times table.replicaNum) i) i)
    (counters.after (i * times table.replicaNum) (i + 1))).1

/-- The partitions of a table that is created. -/
def partitionsOf (table : Table) (counters : Counters) : List Partition :=
  (List.range (times table.partitionNum)).map (partitionOf table counters)

theorem addPartition_eq (table made : Table) (counters : Counters) (i replicas partitions : ℕ) :
    addPartition table (made, counters.after replicas partitions) i =
      let p := createPartition (newPartition table (counters.after replicas partitions) i)
        (counters.after replicas (partitions + 1))
      ({ made with partitions := made.partitions.add p.1.id p.1.name p.1 }, p.2) := by
  rw [← Counters.after_partition]
  rfl

theorem addPartitions_eq {table : Table} (none_yet : table.partitions = .empty)
    (counters : Counters) (n : ℕ) :
    (List.range n).foldl (addPartition table) (table, counters) =
      ({ table with
          partitions := .addAll Partition.id Partition.name .empty
            ((List.range n).map (partitionOf table counters)) },
        counters.after (n * times table.replicaNum) n) := by
  induction n with
  | zero =>
      rw [List.range_zero, List.foldl_nil, Nat.zero_mul, Counters.after_zero, List.map_nil,
        Indexed.addAll, List.foldl_nil, ← none_yet]
  | succ n ih =>
      have counted : (createPartition
          (newPartition table (counters.after (n * times table.replicaNum) n) n)
          (counters.after (n * times table.replicaNum) (n + 1))).2 =
            counters.after ((n + 1) * times table.replicaNum) (n + 1) := by
        rw [createPartition_eq rfl, Nat.succ_mul]
        exact Counters.after_after ..
      rw [List.range_succ, List.foldl_append, ih, List.map_append, Indexed.addAll, Indexed.addAll,
        List.foldl_append, List.map_singleton, List.foldl_cons, List.foldl_nil, addPartition_eq]
      exact Prod.ext rfl counted

theorem createTable_eq (param : TableParam) (counters : Counters) :
    createTable param counters =
      let table := newTable param counters
      let started := { counters with tableUid := counters.tableUid + 1 }
      ({ table with
          partitions := .addAll Partition.id Partition.name .empty (partitionsOf table started) },
        started.after (times param.partitionNum * times param.replicaNum)
          (times param.partitionNum)) :=
  addPartitions_eq rfl _ _

/-! ## Numbers -/

theorem times_lt (num : Int32) : times num < 2 ^ 31 := by
  have := num.toInt_lt
  rw [times]
  omega

theorem toInt_ofNat {i : ℕ} (small : i < 2 ^ 31) : (Int32.ofNat i).toInt = i := by
  rw [Int32.toInt_ofNat', Int32.size, Int.bmod_eq_of_le] <;> omega

theorem ofNat_inj {i j : ℕ} (small : i < 2 ^ 31) (small' : j < 2 ^ 31)
    (same : Int32.ofNat i = Int32.ofNat j) : i = j := by
  have values := congrArg Int32.toInt same
  rw [toInt_ofNat small, toInt_ofNat small'] at values
  exact Int.ofNat.inj values

theorem nodup_ids (num : Int32) : ((List.range (times num)).map Int32.ofNat).Nodup := by
  refine List.Nodup.map_on (fun i mem j mem' same => ?_) List.nodup_range
  have bound := times_lt num
  rw [List.mem_range] at mem mem'
  exact ofNat_inj (by omega) (by omega) same

/-! ## Belonging together -/

/-- The names, the path and the dimension are those of the partition. -/
structure Replica.OfPartition (r : Replica) (p : Partition) : Prop where
  name : r.name = replicaName p.name r.id
  path : r.path = joinPath p.path r.name
  dim : r.dim = p.dim
  tableName : r.tableName = p.tableName
  tableUid : r.tableUid = p.tableUid
  partitionName : r.partitionName = p.name

/-- The replicas of a partition are numbered from zero and found under number and name. -/
structure Partition.Made (p : Partition) (replicas : List Replica) : Prop where
  all : p.replicas = .addAll Replica.id Replica.name .empty replicas
  ids : replicas.map Replica.id = (List.range (times p.replicaNum)).map Int32.ofNat
  each : ∀ r ∈ replicas, r.OfPartition p

/-- The names, the path, the dimension and the number of replicas are those of the table. -/
structure Partition.OfTable (p : Partition) (t : Table) : Prop where
  name : p.name = partitionName t.name p.id
  path : p.path = joinPath t.path p.name
  replicaNum : p.replicaNum = t.replicaNum
  dim : p.dim = t.dim
  tableName : p.tableName = t.name
  tableUid : p.tableUid = t.uid
  made : ∃ replicas, p.Made replicas

/-- The partitions of a table are numbered from zero and found under number and name. -/
structure Table.Made (t : Table) (partitions : List Partition) : Prop where
  all : t.partitions = .addAll Partition.id Partition.name .empty partitions
  ids : partitions.map Partition.id = (List.range (times t.partitionNum)).map Int32.ofNat
  each : ∀ p ∈ partitions, p.OfTable t

theorem partitionOf_eq (table : Table) (counters : Counters) (i : ℕ) :
    partitionOf table counters i =
      let param := newPartition table (counters.after (i * times table.replicaNum) i) i
      { param with
        replicas := .addAll Replica.id Replica.name .empty
          (replicasOf param (counters.after (i * times table.replicaNum) (i + 1))) } := by
  rw [partitionOf, createPartition_eq rfl]

theorem partitionOf_ofTable (table : Table) (counters : Counters) (i : ℕ) :
    (partitionOf table counters i).OfTable table := by
  rw [partitionOf_eq]
  refine ⟨rfl, rfl, rfl, rfl, rfl, rfl, replicasOf _ _, rfl, ?_, ?_⟩
  · rw [replicasOf, List.map_map]
    rfl
  · intro r mem
    obtain ⟨j, -, rfl⟩ := List.mem_map.mp mem
    exact ⟨rfl, rfl, rfl, rfl, rfl, rfl⟩

theorem createTable_made (param : TableParam) (counters : Counters) :
    (createTable param counters).1.Made
      (partitionsOf (newTable param counters)
        { counters with tableUid := counters.tableUid + 1 }) := by
  rw [createTable_eq]
  refine ⟨rfl, ?_, ?_⟩
  · rw [partitionsOf, List.map_map]
    refine List.map_congr_left fun i _ => ?_
    rw [Function.comp_apply, partitionOf_eq]
    rfl
  · intro p mem
    obtain ⟨i, -, rfl⟩ := List.mem_map.mp mem
    obtain ⟨name, path, replicaNum, dim, tableName, tableUid, made⟩ :=
      partitionOf_ofTable (newTable param counters)
        { counters with tableUid := counters.tableUid + 1 } i
    exact ⟨name, path, replicaNum, dim, tableName, tableUid, made⟩

namespace Partition.Made

variable {p : Partition} {replicas : List Replica}

theorem nodup (made : p.Made replicas) : (replicas.map Replica.id).Nodup := by
  rw [made.ids]
  exact nodup_ids _

theorem items (made : p.Made replicas) : p.replicas.items.Perm replicas := by
  rw [made.all]
  exact Indexed.items_addAll made.nodup

end Partition.Made

namespace Table.Made

variable {t : Table} {partitions : List Partition}

theorem nodup (made : t.Made partitions) : (partitions.map Partition.id).Nodup := by
  rw [made.ids]
  exact nodup_ids _

theorem items (made : t.Made partitions) : t.partitions.items.Perm partitions := by
  rw [made.all]
  exact Indexed.items_addAll made.nodup

end Table.Made

/-! ## A new table -/

section Created

variable {param : TableParam} {counters : Counters}

theorem createTable_uid : (createTable param counters).1.uid = counters.tableUid := by
  rw [createTable_eq]
  rfl

theorem createTable_partitionNum :
    (createTable param counters).1.partitionNum = param.partitionNum := by
  rw [createTable_eq]
  rfl

theorem mem_created {p : Partition} :
    p ∈ (createTable param counters).1.partitions.items ↔
      ∃ i < times param.partitionNum, p = partitionOf (newTable param counters)
        { counters with tableUid := counters.tableUid + 1 } i := by
  rw [(createTable_made param counters).items.mem_iff, partitionsOf, List.mem_map]
  simp only [List.mem_range]
  exact ⟨fun ⟨i, lt, same⟩ => ⟨i, lt, same.symm⟩, fun ⟨i, lt, same⟩ => ⟨i, lt, same.symm⟩⟩

theorem partitionOf_uid (table : Table) (i : ℕ) :
    (partitionOf table counters i).uid = counters.partitionUid + UInt64.ofNat i := by
  rw [partitionOf_eq]
  rfl

theorem partitionOf_id (table : Table) (i : ℕ) :
    (partitionOf table counters i).id = Int32.ofNat i := by
  rw [partitionOf_eq]
  rfl

theorem mem_replicas_partitionOf {table : Table} {i : ℕ} {r : Replica} :
    r ∈ (partitionOf table counters i).replicas.items ↔
      ∃ j < times table.replicaNum,
        r = newReplica (newPartition table (counters.after (i * times table.replicaNum) i) i)
          ((counters.after (i * times table.replicaNum) (i + 1)).after j 0) j := by
  have nodup : ((replicasOf (newPartition table (counters.after (i * times table.replicaNum) i) i)
      (counters.after (i * times table.replicaNum) (i + 1))).map Replica.id).Nodup := by
    rw [replicasOf, List.map_map]
    exact nodup_ids _
  rw [partitionOf_eq]
  dsimp only
  rw [(Indexed.items_addAll nodup).mem_iff, replicasOf, List.mem_map]
  simp only [List.mem_range]
  exact ⟨fun ⟨j, lt, same⟩ => ⟨j, lt, same.symm⟩, fun ⟨j, lt, same⟩ => ⟨j, lt, same.symm⟩⟩

/-- The counter has moved on when a replica refers to it. -/
theorem partitionUid_of_created {p : Partition}
    (mem : p ∈ (createTable param counters).1.partitions.items) {r : Replica}
    (inside : r ∈ p.replicas.items) : r.partitionUid = p.uid + 1 := by
  obtain ⟨i, -, rfl⟩ := mem_created.mp mem
  obtain ⟨j, -, rfl⟩ := mem_replicas_partitionOf.mp inside
  rw [partitionOf_uid]
  simp [newReplica, Counters.after, UInt64.ofNat_add, add_assoc]

theorem exists_replica {p : Partition} (mem : p ∈ (createTable param counters).1.partitions.items)
    (some_replica : 0 < times param.replicaNum) : ∃ r, r ∈ p.replicas.items := by
  obtain ⟨i, -, rfl⟩ := mem_created.mp mem
  exact ⟨_, mem_replicas_partitionOf.mpr ⟨0, some_replica, rfl⟩⟩

theorem replicas_of_created {p : Partition}
    (mem : p ∈ (createTable param counters).1.partitions.items)
    (no_replica : times param.replicaNum = 0) : p.replicas.items = [] := by
  obtain ⟨i, -, rfl⟩ := mem_created.mp mem
  refine List.eq_nil_iff_forall_not_mem.mpr fun r inside => ?_
  obtain ⟨j, lt, -⟩ := mem_replicas_partitionOf.mp inside
  have none_at_all : times (newTable param counters).replicaNum = 0 := no_replica
  omega

end Created

end Vraft.VectorDb
