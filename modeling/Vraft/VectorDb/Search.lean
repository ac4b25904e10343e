import Vraft.Lib.Selection
import Vraft.VectorDb.KeyIds

/-!
# Searching the nearest vectors

`GetKNN` of `vectordb/vindex_annoy.cc`, `vectordb/vengine.cc` and `vectordb/vdb_engine.cc`,
by vector and by key.  Every engine of a table is asked for its nearest, and what they
find is put together, sorted by distance and cut.  The trees of the index and the order
of items with the same distance are not known: an index is taken as exact.
-/

namespace Vraft.VectorDb

open Raw Std

section Exactness

variable {α D : Type} [LinearOrder D]

/-- The nearest items by their distances, nearest first: of two inner products the larger
one is nearer. -/
def IsNearest (type : DistanceType) (distance : α → D) (k : ℕ) (items out : List α) : Prop :=
  match type with
  | .innerProduct => Least (fun a => OrderDual.toDual (distance a)) k items out
  | .cosine | .euclidean => Least distance k items out

end Exactness

/-- The numbers of vectors with their distances from another one. -/
def measured {D : Type} (distance : List Float32Bits → List Float32Bits → D)
    (vectors : List (List Float32Bits)) (vec : List Float32Bits) : List (ℕ × D) :=
  vectors.zipIdx.map fun entry => (entry.2, distance entry.1 vec)

/-- An index that finds exactly the nearest vectors of those it has been given. -/
structure Annoy (D : Type) [LinearOrder D] where
  distance : DistanceType → List Float32Bits → List Float32Bits → D
  byVector : DistanceType → List (List Float32Bits) → List Float32Bits → ℕ → List (ℕ × D)
  byItem : DistanceType → List (List Float32Bits) → ℕ → ℕ → List (ℕ × D)
  byVector_nearest : ∀ type vectors vec k,
    IsNearest type Prod.snd k (measured (distance type) vectors vec) (byVector type vectors vec k)
  byItem_nearest : ∀ type (vectors : List (List Float32Bits)) id vec k, vectors[id]? = some vec →
    IsNearest type Prod.snd k (measured (distance type) vectors vec) (byItem type vectors id k)

/-- A key that has been found, with its attached string and its distance. -/
structure VecResult (D : Type) where
  key : Bytes
  attachValue : Bytes
  distance : D
  deriving DecidableEq

/-- `std::sort` of results by their distances. -/
structure Sorting (D : Type) [LinearOrder D] where
  sort : List (VecResult D) → List (VecResult D)
  perm : ∀ results, (sort results).Perm results
  ordered : ∀ results, (sort results).Pairwise fun a b => a.distance ≤ b.distance

/-- The nearest by comparing with all of them. -/
def nearestOf {α D : Type} [LinearOrder D] (type : DistanceType) (distance : α → D) (k : ℕ)
    (items : List α) : List α :=
  match type with
  | .innerProduct => (sortBy (fun a => OrderDual.toDual (distance a)) items).take k
  | .cosine | .euclidean => (sortBy distance items).take k

theorem isNearest_nearestOf {α D : Type} [LinearOrder D] (type : DistanceType) (distance : α → D)
    (k : ℕ) (items : List α) : IsNearest type distance k items (nearestOf type distance k items) := by
  cases type with
  | innerProduct => exact Least.of_ordered (perm_sortBy _ _) (ordered_sortBy _ _)
  | cosine => exact Least.of_ordered (perm_sortBy _ _) (ordered_sortBy _ _)
  | euclidean => exact Least.of_ordered (perm_sortBy _ _) (ordered_sortBy _ _)

/-- An index that finds the nearest vectors without fail. -/
def Annoy.exact {D : Type} [LinearOrder D]
    (distance : DistanceType → List Float32Bits → List Float32Bits → D) : Annoy D where
  distance := distance
  byVector type vectors vec k :=
    nearestOf type Prod.snd k (measured (distance type) vectors vec)
  byItem type vectors id k :=
    nearestOf type Prod.snd k (measured (distance type) vectors ((vectors[id]?).getD []))
  byVector_nearest _ _ _ _ := isNearest_nearestOf _ _ _ _
  byItem_nearest type vectors id vec k at_ := by
    rw [at_, Option.getD_some]
    exact isNearest_nearestOf _ _ _ _

/-- Sorting by insertion. -/
def Sorting.exact {D : Type} [LinearOrder D] : Sorting D where
  sort := sortBy VecResult.distance
  perm := perm_sortBy VecResult.distance
  ordered := ordered_sortBy VecResult.distance

/-- The numbers of an index by timestamp. -/
abbrev VindexManager := ExtTreeMap UInt64 VindexAnnoy

/-- The last one in the order of timestamps. -/
def VindexManager.getNewest (indices : VindexManager) : Option VindexAnnoy :=
  indices.toList.getLast?.map Prod.snd

/-- The engine of the database, and the indices of its engines by their paths. -/
structure Searcher where
  engine : VdbEngine
  indices : ExtTreeMap Bytes VindexManager

section Searching

variable {D : Type} [LinearOrder D] (annoy : Annoy D) (sorting : Sorting D)

namespace VindexAnnoy

/-- A round of the loop in `PrepareResults`. -/
def prepareResult (index : VindexAnnoy) (path : Bytes) (disk : Disk) (beyond : Memory)
    (found : ℕ × D) : Except IndexFault (VecResult D) :=
  match KeyidMeta.getId index.keyid (Int32.ofNat found.1) with
  | .error fault => .error fault
  | .ok (_, none) => .error .notFound
  | .ok (_, some key) =>
      match VEngine.get path key disk beyond with
      | .error fault => .error (.engine fault)
      | .ok (_, none) => .error .notFound
      | .ok (_, some vo) => .ok ⟨vo.key, vo.vv.attachValue, found.2⟩

/-- What was found, with keys and attached strings, sorted. -/
def prepareResults (index : VindexAnnoy) (path : Bytes) (disk : Disk) (beyond : Memory)
    (found : List (ℕ × D)) : Except IndexFault (List (VecResult D)) := do
  let results ← found.mapM (prepareResult index path disk beyond)
  pure (sorting.sort results)

/-- The number that is returned, and the results. -/
def getKNN (index : VindexAnnoy) (vec : List Float32Bits) (limit : Int32) (path : Bytes)
    (disk : Disk) (beyond : Memory) : Except IndexFault (ℤ × List (VecResult D)) :=
  if dimOf vec ≠ index.param.dim then .ok (-1, [])
  else if 0 < times limit then do
    let results ← prepareResults sorting index path disk beyond
      (annoy.byVector index.param.distanceType index.vectors vec (times limit))
    pure (0, results)
  else .ok (0, [])

/-- `VindexAnnoy::GetKNN` of a key. -/
def getKNNByKey (index : VindexAnnoy) (key : Bytes) (limit : Int32) (path : Bytes) (disk : Disk)
    (beyond : Memory) : Except IndexFault (ℤ × List (VecResult D)) :=
  if 0 < times limit then
    match KeyidMeta.getKey index.keyid key with
    | (_, none) => .ok (-1, [])
    | (_, some id) => do
        let results ← prepareResults sorting index path disk beyond
          (annoy.byItem index.param.distanceType index.vectors id.toInt.toNat (times limit))
        pure (0, results)
  else .ok (0, [])

end VindexAnnoy

namespace Searcher

/-- The newest index of an engine. -/
def newest (s : Searcher) (path : Bytes) : Option VindexAnnoy :=
  s.indices[path]?.bind VindexManager.getNewest

/-- What an engine finds, asked by its newest index. -/
def askEngine (s : Searcher) (path : Bytes)
    (ask : VindexAnnoy → Except IndexFault (ℤ × List (VecResult D))) :
    Except IndexFault (ℤ × List (VecResult D)) :=
  match s.newest path with
  | none => .ok (-1, [])
  | some index => ask index

/-- What the engine of a replica adds to the results; the number it returns is not
looked at. -/
def askReplica (s : Searcher)
    (ask : Bytes → VindexAnnoy → Except IndexFault (ℤ × List (VecResult D))) (r : Replica) :
    Except IndexFault (List (VecResult D)) :=
  match s.engine.engines[r.uid]? with
  | none => .ok []
  | some path => do
      let (_, results) ← s.askEngine path (ask path)
      pure results

/-- `EveryLimit`. -/
def everyLimit (limit _partitionNum : Int32) : Int32 := limit

/-- The number that is returned, and the results unless they are left as they were. -/
def searchTable (s : Searcher) (table : Bytes) (limit : Int32)
    (ask : Int32 → Bytes → VindexAnnoy → Except IndexFault (ℤ × List (VecResult D))) :
    Except IndexFault (ℤ × Option (List (VecResult D))) :=
  if times limit = 0 then .ok (-1, none)
  else
    match s.engine.metadata.tables[table]? with
    | none => .ok (-1, none)
    | some t =>
        match forEachReplicaInTable s.engine.metadata.tables table with
        | .error fault => .error (.metadata fault)
        | .ok replicas => do
            let lists ← replicas.mapM (s.askReplica (ask (everyLimit limit t.partitionNum)))
            pure (0, some ((sorting.sort lists.flatten).take (times limit)))

/-- `VdbEngine::GetKNN` of a vector. -/
def getKNN (s : Searcher) (table : Bytes) (vec : List Float32Bits) (limit : Int32)
    (beyond : Memory) : Except IndexFault (ℤ × Option (List (VecResult D))) :=
  s.searchTable sorting table limit fun everyLimit path index =>
    index.getKNN annoy sorting vec everyLimit path s.engine.disk beyond

/-- `VdbEngine::GetKNN` of a key. -/
def getKNNByKey (s : Searcher) (table key : Bytes) (limit : Int32) (beyond : Memory) :
    Except IndexFault (ℤ × Option (List (VecResult D))) :=
  s.searchTable sorting table limit fun everyLimit path index =>
    index.getKNNByKey annoy sorting key everyLimit path s.engine.disk beyond

end Searcher

end Searching

/-! ## Adding an index -/

/-- What `AddIndex` is asked for. -/
structure AddIndexParam where
  timestamp : UInt64
  dim : Int32
  indexType : VIndexType
  distanceType : DistanceType
  annoyTreeNum : Int32
  deriving DecidableEq

/-- `VIndexType2Str`. -/
def vindexTypeName : VIndexType → Bytes
  | .annoy => [73, 110, 100, 101, 120, 65, 110, 110, 111, 121]

/-- `"%s/%s_%lu"` in a `char buf[256]`, below the directory of the indices. -/
def indexPath (path : Bytes) (param : AddIndexParam) : Bytes :=
  (cStr (path ++ [47, 105, 110, 100, 101, 120]) ++
    47 :: vindexTypeName param.indexType ++ 95 :: digits param.timestamp.toNat).take 255

/-- The parameters of the index of a replica. -/
def vindexParam (path : Bytes) (param : AddIndexParam) : VIndexParam :=
  ⟨indexPath path param, param.timestamp, param.dim, param.indexType, param.distanceType,
    param.annoyTreeNum⟩

namespace Searcher

/-- `VEngine::AddIndex`.  The database of an index with the same timestamp is open
already. -/
def addVIndex (s : Searcher) (path : Bytes) (param : AddIndexParam) (beyond : Memory) :
    Except IndexFault Searcher :=
  match s.engine.disk[path]? with
  | none => .error (.engine .missing)
  | some store =>
      if param.timestamp ∈ s.indices.getD path ∅ then .error (.engine .locked)
      else do
        let index ← buildIndex (vindexParam path param) store.data beyond
        pure
          { s with
            indices := s.indices.insert path
              ((s.indices.getD path ∅).insert param.timestamp index) }

/-- A round of the loop in `VdbEngine::AddIndex`. -/
def addReplicaIndex (param : AddIndexParam) (beyond : Memory) (s : Searcher) (r : Replica) :
    Except IndexFault Searcher :=
  match s.engine.engines[r.uid]? with
  | none => .ok s
  | some path => s.addVIndex path param beyond

/-- `VdbEngine::AddIndex`. -/
def addIndex (s : Searcher) (table : Bytes) (param : AddIndexParam) (beyond : Memory) :
    Except IndexFault Searcher :=
  match forEachReplicaInTable s.engine.metadata.tables table with
  | .error fault => .error (.metadata fault)
  | .ok replicas => replicas.foldlM (addReplicaIndex param beyond) s

end Searcher

end Vraft.VectorDb
