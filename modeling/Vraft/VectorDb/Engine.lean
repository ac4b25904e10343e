import Vraft.VectorDb.Metadata
import Vraft.VectorDb.Vectors

/-!
# The engine of the vector database

`VdbEngine` of `vectordb/vdb_engine.cc` over the `VEngine`s of its replicas.  An engine
is found by the identifier of a replica and is told by its path, under which its
database lasts.  A key belongs to a partition by its checksum.
-/

namespace Vraft.VectorDb

open Raw Std

/-- What fails: the metadata, a division, or an assert on an embedded database. -/
inductive EngineFault
  | metadata (fault : MetadataFault)
  /-- The number of partitions is zero. -/
  | divisionByZero
  /-- The database is open already. -/
  | locked
  /-- The database is not there. -/
  | missing
  /-- `MkDir` has not made the directory in which a database is opened. -/
  | directory
  deriving DecidableEq, Repr

/-- What lasts of a `VEngine`. -/
structure Store where
  dim : Int32
  data : Db

/-- The stores under their paths. -/
abbrev Disk := ExtTreeMap Bytes Store

/-- A key with its vector and the attached string. -/
structure VecObj where
  key : Bytes
  vv : VecValue
  deriving DecidableEq

/-- A failure of the metadata is one of the engine. -/
def ofMetadata {α : Type} (out : Except MetadataFault α) : Except EngineFault α :=
  out.mapError .metadata

/-! ## Directories -/

/-- The bytes that do not stand for themselves in a word of the shell: the end of the
string, blanks, and those that separate, redirect, quote or expand. -/
def shellBytes : Bytes :=
  [0, 9, 10, 32, 34, 36, 38, 39, 40, 41, 42, 59, 60, 62, 63, 91, 92, 96, 123, 124]

/-- Those that do not stand for themselves in front of a word: a comment, an option and
the home directory begin with them. -/
def leadingBytes : Bytes := [35, 45, 126]

/-- One word, taken as it is. -/
def ShellWord (text : Bytes) : Prop :=
  (∃ first ∈ text.head?, first ∉ leadingBytes) ∧ ∀ ch ∈ text, ch ∉ shellBytes
  deriving Decidable

/-- `mkdir -p` and a blank. -/
def mkDirWords : Bytes := [109, 107, 100, 105, 114, 32, 45, 112, 32]

/-- What `snprintf` leaves of the command in `char cmd[256]`. -/
def mkDirCommand (path : Bytes) : Bytes :=
  (mkDirWords ++ path).take 255

/-- The command makes the directory: the path stands in it to its end, as one word. -/
def MakesDir (path : Bytes) : Prop :=
  mkDirCommand path = mkDirWords ++ path ∧ ShellWord path
  deriving Decidable

/-! ## The engine of a replica -/

namespace VEngine

/-- The constructor: the dimension is kept only if the path is new, and nothing can be
opened in a directory that has not been made. -/
def make (path : Bytes) (dim : Int32) (disk : Disk) : Except EngineFault Disk :=
  match disk[path]? with
  | some _ => .ok disk
  | none => if MakesDir path then .ok (disk.insert path ⟨dim, ∅⟩) else .error .directory

/-- The number that is returned, and the stores afterwards. -/
def put (path key : Bytes) (vv : VecValue) (disk : Disk) : Except EngineFault (ℤ × Disk) :=
  match disk[path]? with
  | none => .error .missing
  | some store =>
      if dimOf vv.vec ≠ store.dim then .ok (-1, disk)
      else do
        let value ← ofMetadata (toString vv.maxBytes vv.toBytes)
        pure (0, disk.insert path { store with data := store.data.insert key value })

/-- The number that is returned, and the object that is filled. -/
def get (path key : Bytes) (disk : Disk) (beyond : Memory) :
    Except EngineFault (ℤ × Option VecObj) :=
  match disk[path]? with
  | none => .error .missing
  | some store =>
      match store.data[key]? with
      | some value => do
          let vv ← ofMetadata (fromString VecValue.decoder value beyond)
          pure (0, some ⟨key, vv⟩)
      | none => .ok (-2, none)

/-- The number that is returned, and the stores afterwards. -/
def delete (path key : Bytes) (disk : Disk) : Except EngineFault (ℤ × Disk) :=
  match disk[path]? with
  | none => .error .missing
  | some store => .ok (0, disk.insert path { store with data := store.data.erase key })

end VEngine

/-! ## The engine of the database -/

/-- The engines that are open, by the identifiers of their replicas. -/
abbrev Engines := ExtTreeMap UInt64 Bytes

/-- `VdbEngine`: the metadata, the engines that are open, and all stores there are. -/
structure VdbEngine where
  dataPath : Bytes
  metadata : Metadata
  engines : Engines
  disk : Disk

/-- `Crc32(key) % partition_num`: unsigned, and then taken as signed. -/
def partitionId (key : Bytes) (partitionNum : Int32) : Except EngineFault Int32 :=
  if partitionNum = 0 then .error .divisionByZero
  else .ok (crc32 key % partitionNum.toUInt32).toInt32

/-- What `AddTable` is asked for. -/
structure AddTableParam where
  name : Bytes
  partitionNum : Int32
  replicaNum : Int32
  dim : Int32
  deriving DecidableEq

namespace VdbEngine

/-- The path has not been used yet. -/
def fresh (dataPath : Bytes) : VdbEngine := ⟨dataPath, .fresh, ∅, ∅⟩

/-- A database can be opened once at a time. -/
def createVEngine (e : VdbEngine) (replica : Replica) : Except EngineFault VdbEngine :=
  if e.engines.toList.any fun binding => binding.2 = replica.path then .error .locked
  else do
    let disk ← VEngine.make replica.path replica.dim e.disk
    pure { e with engines := e.engines.insert replica.uid replica.path, disk }

/-- What the metadata is asked for. -/
def tableParam (e : VdbEngine) (param : AddTableParam) : TableParam :=
  ⟨param.name, e.dataPath, param.partitionNum, param.replicaNum, param.dim⟩

/-- `VdbEngine::AddTable`: the metadata first, then an engine for every replica. -/
def addTable (e : VdbEngine) (param : AddTableParam) (order : List Bytes) :
    Except EngineFault (ℤ × VdbEngine) := do
  let (rv, metadata) ← ofMetadata (e.metadata.addTable (e.tableParam param) order)
  if rv ≠ 0 then pure (-1, { e with metadata })
  else
    let replicas ← ofMetadata (forEachReplicaInTable metadata.tables param.name)
    let e ← replicas.foldlM createVEngine { e with metadata }
    pure (0, e)

/-- The engine for a key, unless a pointer on the way is null. -/
def getVEngine (e : VdbEngine) (table key : Bytes) : Except EngineFault (Option Bytes) :=
  match e.metadata.tables[table]? with
  | none => .ok none
  | some t => do
      let partitionId ← partitionId key t.partitionNum
      let replica ← ofMetadata
        (getReplica e.metadata.tables (replicaName (partitionName table partitionId) 0))
      pure (replica.bind fun r => e.engines[r.uid]?)

/-- `VdbEngine::Put`. -/
def put (e : VdbEngine) (table key : Bytes) (vv : VecValue) :
    Except EngineFault (ℤ × VdbEngine) := do
  match ← e.getVEngine table key with
  | none => pure (-1, e)
  | some path => do
      let (rv, disk) ← VEngine.put path key vv e.disk
      pure (rv, { e with disk })

/-- `VdbEngine::Get`. -/
def get (e : VdbEngine) (table key : Bytes) (beyond : Memory) :
    Except EngineFault (ℤ × Option VecObj) := do
  match ← e.getVEngine table key with
  | none => pure (-1, none)
  | some path => VEngine.get path key e.disk beyond

/-- `VdbEngine::Delete`. -/
def delete (e : VdbEngine) (table key : Bytes) : Except EngineFault (ℤ × VdbEngine) := do
  match ← e.getVEngine table key with
  | none => pure (-1, e)
  | some path => do
      let (rv, disk) ← VEngine.delete path key e.disk
      pure (rv, { e with disk })

/-- Close everything, and open it in a fresh process, table by table. -/
def reopen (e : VdbEngine) (beyond : Memory) (order : List Bytes) :
    Except EngineFault VdbEngine := do
  let metadata ← ofMetadata (e.metadata.reopen beyond)
  let visited ← ofMetadata (order.mapM (forEachReplicaInTable metadata.tables))
  visited.flatten.foldlM createVEngine { e with metadata, engines := ∅ }

/-! ## Runs -/

/-- A call, or a restart of the process. -/
inductive Event
  | addTable (param : AddTableParam) (order : List Bytes)
  | put (table key : Bytes) (vv : VecValue)
  | get (table key : Bytes) (beyond : Memory)
  | delete (table key : Bytes)
  | reopen (beyond : Memory) (order : List Bytes)

/-- The database after one event. -/
def step (e : VdbEngine) : Event → Except EngineFault VdbEngine
  | .addTable param order => do
      let (_, e') ← e.addTable param order
      pure e'
  | .put table key vv => do
      let (_, e') ← e.put table key vv
      pure e'
  | .get table key beyond => do
      let _ ← e.get table key beyond
      pure e
  | .delete table key => do
      let (_, e') ← e.delete table key
      pure e'
  | .reopen beyond order => e.reopen beyond order

/-- The order visits all tables there are. -/
def Visits (e : VdbEngine) : Event → Prop
  | .addTable param order => e.metadata.Visits (.addTable (e.tableParam param) order)
  | .reopen beyond order =>
      ∀ m, e.metadata.reopen beyond = .ok m → order.Perm m.tables.keys
  | _ => True

/-- Steps that all meet a condition. -/
inductive Steps (condition : VdbEngine → Event → Prop) (e : VdbEngine) : VdbEngine → Prop
  | none : Steps condition e e
  | step {e' e'' : VdbEngine} {event : Event} (before : Steps condition e e')
      (visits : e'.Visits event) (meets : condition e' event) (done : e'.step event = .ok e'') :
      Steps condition e e''

/-- What can be reached from a path that has not been used yet. -/
def Reached (condition : VdbEngine → Event → Prop) (e : VdbEngine) : Prop :=
  ∃ dataPath, Steps condition (fresh dataPath) e

end VdbEngine

end Vraft.VectorDb
