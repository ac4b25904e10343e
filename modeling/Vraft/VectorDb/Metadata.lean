import Vraft.Lib.Failing
import Vraft.VectorDb.Records

/-!
# The metadata store

`Metadata` of `vectordb/metadata.cc`: tables with their partitions and replicas in
memory, and all of their records under one flat space of keys in an embedded database.
The identifiers come from counters of the process, which start from zero in each.
-/

namespace Vraft.VectorDb

open Raw Std

/-- `Replica::replica_uid`, `Partition::partition_uid` and `Table::table_uid`. -/
structure Counters where
  replicaUid : UInt64
  partitionUid : UInt64
  tableUid : UInt64
  deriving DecidableEq

/-- In a fresh process. -/
def Counters.zero : Counters := ⟨0, 0, 0⟩

/-- What `AddTable` is asked for, with the path of the data. -/
structure TableParam where
  name : Bytes
  path : Bytes
  partitionNum : Int32
  replicaNum : Int32
  dim : Int32
  deriving DecidableEq

/-- `path + "/" + name`. -/
def joinPath (path name : Bytes) : Bytes :=
  path ++ 47 :: name

/-! ## Creating tables -/

/-- The replica of a round of the loop in `CreatePartition`.  Its `partition_uid` is
taken from the static member of the class `Partition`: the counter. -/
def newReplica (param : Partition) (counters : Counters) (i : ℕ) : Replica where
  id := Int32.ofNat i
  name := replicaName param.name (Int32.ofNat i)
  path := joinPath param.path (replicaName param.name (Int32.ofNat i))
  dim := param.dim
  uid := counters.replicaUid
  tableName := param.tableName
  tableUid := param.tableUid
  partitionName := param.name
  partitionUid := counters.partitionUid

/-- A round of the loop in `CreatePartition`. -/
def addReplica (param : Partition) (made : Partition × Counters) (i : ℕ) : Partition × Counters :=
  let replica := newReplica param made.2 i
  ({ made.1 with replicas := made.1.replicas.add replica.id replica.name replica },
    { made.2 with replicaUid := made.2.replicaUid + 1 })

/-- `Metadata::CreatePartition`. -/
def createPartition (param : Partition) (counters : Counters) : Partition × Counters :=
  (List.range (times param.replicaNum)).foldl (addReplica param) (param, counters)

/-- The partition of a round of the loop in `CreateTable`, before it has replicas. -/
def newPartition (table : Table) (counters : Counters) (i : ℕ) : Partition where
  id := Int32.ofNat i
  name := partitionName table.name (Int32.ofNat i)
  path := joinPath table.path (partitionName table.name (Int32.ofNat i))
  replicaNum := table.replicaNum
  dim := table.dim
  uid := counters.partitionUid
  tableName := table.name
  tableUid := table.uid
  replicas := .empty

/-- A round of the loop in `CreateTable`. -/
def addPartition (table : Table) (made : Table × Counters) (i : ℕ) : Table × Counters :=
  let partition := newPartition table made.2 i
  let (partition, counters) :=
    createPartition partition { made.2 with partitionUid := made.2.partitionUid + 1 }
  ({ made.1 with partitions := made.1.partitions.add partition.id partition.name partition },
    counters)

/-- The table of a call, before it has partitions. -/
def newTable (param : TableParam) (counters : Counters) : Table where
  name := param.name
  path := joinPath param.path param.name
  partitionNum := param.partitionNum
  replicaNum := param.replicaNum
  dim := param.dim
  uid := counters.tableUid
  partitions := .empty

/-- `Metadata::CreateTable`. -/
def createTable (param : TableParam) (counters : Counters) : Table × Counters :=
  let table := newTable param counters
  (List.range (times table.partitionNum)).foldl (addPartition table)
    (table, { counters with tableUid := counters.tableUid + 1 })

/-! ## Writing -/

/-- `METADATA_TABLES_KEY`, which is `---|||---`. -/
def tablesKey : Bytes := [45, 45, 45, 124, 124, 124, 45, 45, 45]

/-- The tables under their names. -/
abbrev Tables := ExtTreeMap Bytes Table

/-- The database, as a map that lasts. -/
abbrev Db := ExtTreeMap Bytes Bytes

/-- A pointer that is followed. -/
def deref {α : Type} : Option α → Except MetadataFault α
  | some item => .ok item
  | none => .error .nullPointer

/-- The record of a replica under its name. -/
def replicaRecord (r : Replica) : Except MetadataFault (Bytes × Bytes) := do
  let value ← toString r.maxBytes r.toBytes
  pure (r.name, value)

/-- The record of a partition, and those of its replicas. -/
def partitionRecords (p : Partition) : Except MetadataFault (List (Bytes × Bytes)) := do
  let value ← toString p.maxBytes p.toBytes
  let replicas ← p.replicas.byName.toList.mapM fun binding => do
    let r ← deref binding.2
    replicaRecord r
  pure ((p.name, value) :: replicas)

/-- The record of a table, and those of its partitions. -/
def tableRecords (t : Table) : Except MetadataFault (List (Bytes × Bytes)) := do
  let value ← toString t.maxBytes t.toBytes
  let partitions ← t.partitions.byName.toList.mapM fun binding => do
    let p ← deref binding.2
    partitionRecords p
  pure ((t.name, value) :: partitions.flatten)

/-- The batch of `Persist`.  The tables are visited in an order that an
`unordered_map` does not specify. -/
def batch (order : List Bytes) (tables : Tables) : Except MetadataFault (List (Bytes × Bytes)) := do
  let names ← toString (Names.maxBytes order) (Names.toBytes order)
  let records ← (order.filterMap fun name => tables[name]?).mapM tableRecords
  pure ((tablesKey, names) :: records.flatten)

/-- `Metadata::Persist`: all records are written together. -/
def persist (order : List Bytes) (tables : Tables) (db : Db) : Except MetadataFault Db := do
  let records ← batch order tables
  pure (db.insertMany records)

/-! ## Reading -/

/-- `LoadReplica`, and the assert that it has found one. -/
def loadReplica (db : Db) (beyond : Memory) (name : Bytes) : Except MetadataFault Replica :=
  match db[name]? with
  | some value => fromString Replica.decoder value beyond
  | none => .error .replicaMissing

/-- `LoadPartition`, and its replicas. -/
def loadPartition (db : Db) (beyond : Memory) (name : Bytes) : Except MetadataFault Partition :=
  match db[name]? with
  | some value => do
      let p ← fromString Partition.decoder value beyond
      let replicas ← p.replicas.refill Replica.id Replica.name (loadReplica db beyond)
      pure { p with replicas }
  | none => .error .partitionMissing

/-- `LoadTable`, and its partitions. -/
def loadTable (db : Db) (beyond : Memory) (name : Bytes) : Except MetadataFault Table :=
  match db[name]? with
  | some value => do
      let t ← fromString Table.decoder value beyond
      let partitions ← t.partitions.refill Partition.id Partition.name (loadPartition db beyond)
      pure { t with partitions }
  | none => .error .tableMissing

/-- `Metadata::Load`: the tables that the directory names, if there is one. -/
def load (db : Db) (beyond : Memory) : Except MetadataFault Tables :=
  match db[tablesKey]? with
  | some value => do
      let names ← fromString Names.decoder value beyond
      names.foldlM
        (fun tables name => do
          let t ← loadTable db beyond name
          pure (tables.insert t.name t)) ∅
  | none => .ok ∅

/-! ## Looking up -/

/-- A pointer that is there and is not null. -/
def getPartition (tables : Tables) (name : Bytes) : Except MetadataFault (Option Partition) :=
  match parsePartitionName name with
  | some (tableName, id) =>
      .ok (tables[tableName]?.bind fun t => t.partitions.byId[id]?.join)
  | none => .error .partitionName

/-- A pointer that is there and is not null, by way of the partition. -/
def getReplica (tables : Tables) (name : Bytes) : Except MetadataFault (Option Replica) :=
  match parseReplicaName name with
  | some (tableName, partitionId, replicaId) => do
      let partition ← getPartition tables (partitionName tableName partitionId)
      pure (partition.bind fun p => p.replicas.byId[replicaId]?.join)
  | none => .error .replicaName

/-- The replicas that `ForEachReplicaInPartition` visits. -/
def forEachReplicaInPartition (tables : Tables) (name : Bytes) :
    Except MetadataFault (List Replica) := do
  match ← getPartition tables name with
  | some p => pure p.replicas.items
  | none => pure []

/-- The pointers that `ForEachPartitionInTable` visits. -/
def forEachPartitionInTable (tables : Tables) (name : Bytes) : List (Bytes × Option Partition) :=
  match tables[name]? with
  | some t => t.partitions.byName.toList
  | none => []

/-- The replicas that `ForEachReplicaInTable` visits. -/
def forEachReplicaInTable (tables : Tables) (name : Bytes) :
    Except MetadataFault (List Replica) := do
  let lists ← (forEachPartitionInTable tables name).mapM fun binding => do
    let p ← deref binding.2
    forEachReplicaInPartition tables p.name
  pure lists.flatten

/-! ## Runs -/

/-- A process with the metadata open. -/
structure Metadata where
  counters : Counters
  tables : Tables
  db : Db

namespace Metadata

/-- The path has not been used yet. -/
def fresh : Metadata := ⟨.zero, ∅, ∅⟩

/-- The number that is returned, and the state afterwards. -/
def addTable (m : Metadata) (param : TableParam) (order : List Bytes) :
    Except MetadataFault (ℤ × Metadata) :=
  match m.tables[param.name]? with
  | some _ => .ok (-1, m)
  | none => do
      let (table, counters) := createTable param m.counters
      let tables := m.tables.insert table.name table
      let db ← persist order tables m.db
      pure (0, ⟨counters, tables, db⟩)

/-- Close the store, and open it in a fresh process. -/
def reopen (m : Metadata) (beyond : Memory) : Except MetadataFault Metadata := do
  let tables ← load m.db beyond
  pure ⟨.zero, tables, m.db⟩

/-- A call or a restart: the order in which tables will be visited, and what will be
found in memory, belong to it. -/
inductive Event
  | addTable (param : TableParam) (order : List Bytes)
  | reopen (beyond : Memory)

/-- The metadata after one event. -/
def step (m : Metadata) : Event → Except MetadataFault Metadata
  | .addTable param order => do
      let (_, m') ← m.addTable param order
      pure m'
  | .reopen beyond => m.reopen beyond

/-- The order visits all tables there are. -/
def Visits (m : Metadata) : Event → Prop
  | .addTable param order =>
      m.tables[param.name]? = none → order.Perm (param.name :: m.tables.keys)
  | .reopen _ => True

/-- What can be reached by steps that meet a condition. -/
inductive Reached (condition : Metadata → Event → Prop) : Metadata → Prop
  | fresh : Reached condition fresh
  | step {m m' : Metadata} {event : Event} (before : Reached condition m)
      (visits : m.Visits event) (meets : condition m event) (done : m.step event = .ok m') :
      Reached condition m'

end Metadata

end Vraft.VectorDb
