import Vraft.VectorDb.ByKey

/-!
# Searching while the data changes

An index numbers the keys that its engine had when it was built, but what it finds is
read from the engine as it is now.  So a search is answered as long as every number of
the newest indices finds a key for which something is stored.
-/

namespace Vraft.VectorDb

open Raw Std

/-- The result is a key for which something is stored, with its value. -/
def IsStored {D : Type} (value : Bytes → Option VecValue) (result : VecResult D) : Prop :=
  ∃ vv, value result.key = some vv ∧ result.attachValue = vv.attachValue

/-- Every number of an index finds a key for which something is stored. -/
def Answerable (index : VindexAnnoy) (value : Bytes → Option VecValue) : Prop :=
  ∀ i < index.vectors.length, ∃ key, KeyidMeta.getId index.keyid (Int32.ofNat i) =
    .ok (0, some key) ∧ value key ≠ none

/-- The number of a key, if it has one, is that of a vector, and all numbers find their
keys. -/
def AnswerableBy (index : VindexAnnoy) (key : Bytes) (value : Bytes → Option VecValue) : Prop :=
  ∀ id, (KeyidMeta.getKey index.keyid key).2 = some id →
    id.toInt.toNat < index.vectors.length ∧ Answerable index value

/-- For a number that no vector has, anything may be found. -/
def Annoy.outside {D : Type} [LinearOrder D] (annoy : Annoy D) (found : List (ℕ × D)) :
    Annoy D where
  distance := annoy.distance
  byVector := annoy.byVector
  byItem type vectors id k := if id < vectors.length then annoy.byItem type vectors id k else found
  byVector_nearest := annoy.byVector_nearest
  byItem_nearest type vectors id vec k at_ := by
    rw [if_pos (List.getElem?_eq_some_iff.mp at_).1]
    exact annoy.byItem_nearest type vectors id vec k at_

/-! ## One index -/

section Index

variable {D : Type} {index : VindexAnnoy} {keys : List Bytes} {vec : Bytes → List Float32Bits}
  {path key : Bytes} {disk : Disk} {beyond : Memory} {value : Bytes → Option VecValue}

theorem IndexOf.length_vectors (indexOf : IndexOf index keys vec) :
    index.vectors.length = keys.length := by
  rw [indexOf.vectors, List.length_map]

theorem answerable_iff (indexOf : IndexOf index keys vec) :
    Answerable index value ↔ ∀ i < keys.length, Readable keys value i := by
  rw [Answerable, indexOf.length_vectors, indexOf.keyid]
  refine forall₂_congr fun i lt => ?_
  have at_ := List.getElem?_eq_getElem lt
  constructor
  · rintro ⟨key, found, stored⟩
    obtain ⟨legible, same⟩ := (getId_eq_ok_iff indexOf.nodup indexOf.small at_).mp found
    obtain ⟨-, same⟩ := Prod.mk.inj same
    obtain rfl := Option.some.inj same
    refine ⟨legible, fun key at_' => ?_⟩
    obtain rfl := Option.some.inj (at_.symm.trans at_')
    exact stored
  · intro readable
    exact ⟨_, (getId_eq_ok_iff indexOf.nodup indexOf.small at_).mpr ⟨readable.toLegible, rfl⟩,
      readable.stored _ at_⟩

theorem isStored_resultOf {found : ℕ × D} (within : found.1 < keys.length)
    (readable : Readable keys value found.1) : IsStored value (resultOf keys value found) := by
  have at_ := List.getElem?_eq_getElem within
  obtain ⟨vv, stored⟩ := Option.ne_none_iff_exists'.mp (readable.stored _ at_)
  refine ⟨vv, ?_, ?_⟩
  · rw [resultOf, at_, Option.getD_some, resultFor]
    exact stored
  · rw [resultOf, at_, Option.getD_some, resultFor, stored]
    rfl

/-- A number that has not been given to a key finds none. -/
theorem getId_beyond (indexOf : IndexOf index keys vec) (rv : ℤ) (key : Bytes) :
    KeyidMeta.getId index.keyid (Int32.ofNat keys.length) ≠ .ok (rv, some key) := by
  rw [indexOf.keyid]
  have small := indexOf.small
  have other (m : ℕ) (lt : m < keys.length) :
      encodeInt32 (Int32.ofNat keys.length) ≠ encodeInt32 (Int32.ofNat m) := fun same =>
    absurd (number_inj small (lt.trans small) same) (Nat.ne_of_gt lt)
  by_cases mem : encodeInt32 (Int32.ofNat keys.length) ∈ keys
  · have at_ := List.getElem?_idxOf mem
    rw [getId_number (getElem?_key indexOf.nodup small at_ fun m _ lt => other m lt)]
    intro same
    contradiction
  · rw [KeyidMeta.getId, getElem?_no_key mem other]
    intro same
    exact absurd (Prod.mk.inj (Except.ok.inj same)).2.symm (Option.some_ne_none key)

variable [LinearOrder D] {annoy : Annoy D} {sorting : Sorting D} {limit : Int32}

/-- All vectors are found if they are few enough. -/
theorem exists_found {type : DistanceType} {distance : List Float32Bits → List Float32Bits → D}
    {query : List Float32Bits} {k : ℕ} {found : List (ℕ × D)}
    (nearest : IsNearest type Prod.snd k (measured distance index.vectors query) found)
    (few : index.vectors.length ≤ k) {i : ℕ} (lt : i < index.vectors.length) :
    ∃ entry ∈ found, entry.1 = i := by
  have inside : (i, distance index.vectors[i] query) ∈ measured distance index.vectors query :=
    List.mem_map.mpr ⟨(index.vectors[i], i),
      List.mem_zipIdx_iff_getElem?.mpr (List.getElem?_eq_getElem lt), rfl⟩
  refine ⟨_, nearest.mem_of_length_le ?_ inside, rfl⟩
  rwa [measured, List.length_map, List.length_zipIdx]

theorem isStored_of_prepared {found : List (ℕ × D)} (within : ∀ entry ∈ found, entry.1 < keys.length)
    (readable : ∀ entry ∈ found, Readable keys value entry.1) :
    ∀ result ∈ sorting.sort (found.map (resultOf keys value)), IsStored value result := by
  intro result mem
  obtain ⟨entry, inside, rfl⟩ := List.mem_map.mp ((sorting.perm _).mem_iff.mp mem)
  exact isStored_resultOf (within entry inside) (readable entry inside)

/-- What a search by a vector gives. -/
theorem getKNN_stored (indexOf : IndexOf index keys vec)
    (answers : ∀ key ∈ keys, VEngine.get path key disk beyond = .ok (answerOf value key))
    (answerable : Answerable index value) (annoy : Annoy D) (sorting : Sorting D)
    (query : List Float32Bits) (limit : Int32) :
    ∃ rv results, index.getKNN annoy sorting query limit path disk beyond = .ok (rv, results) ∧
      ∀ result ∈ results, IsStored value result := by
  by_cases dim : dimOf query = index.param.dim
  · by_cases positive : 0 < times limit
    · have within (entry) (mem : entry ∈
          annoy.byVector index.param.distanceType index.vectors query (times limit)) :=
        lt_of_mem_nearest indexOf (annoy.byVector_nearest _ _ _ _) mem
      have readable (entry) (mem : entry ∈
          annoy.byVector index.param.distanceType index.vectors query (times limit)) :=
        (answerable_iff indexOf).mp answerable entry.1 (within entry mem)
      exact ⟨_, _, (getKNN_eq_ok_iff indexOf answers dim positive).mpr ⟨readable, rfl⟩,
        isStored_of_prepared within readable⟩
    · refine ⟨0, [], ?_, fun _ mem => absurd mem List.not_mem_nil⟩
      rw [VindexAnnoy.getKNN, if_neg (not_not.mpr dim), if_neg positive]
  · refine ⟨-1, [], ?_, fun _ mem => absurd mem List.not_mem_nil⟩
    rw [VindexAnnoy.getKNN, if_pos dim]

/-- If all vectors are found, all numbers are read back. -/
theorem answerable_of_getKNN (indexOf : IndexOf index keys vec)
    (answers : ∀ key ∈ keys, VEngine.get path key disk beyond = .ok (answerOf value key))
    {query : List Float32Bits} (dim : dimOf query = index.param.dim) (positive : 0 < times limit)
    (few : index.vectors.length ≤ times limit) {out : ℤ × List (VecResult D)}
    (done : index.getKNN annoy sorting query limit path disk beyond = .ok out) :
    Answerable index value := by
  obtain ⟨readable, -⟩ := (getKNN_eq_ok_iff indexOf answers dim positive).mp done
  refine (answerable_iff indexOf).mpr fun i lt => ?_
  rw [← indexOf.length_vectors] at lt
  obtain ⟨entry, found, rfl⟩ := exists_found (annoy.byVector_nearest _ _ _ _) few lt
  exact readable entry found

/-- A key that has a number of the index. -/
theorem getKNNByKey_eq_ok_iff_of_number (indexOf : IndexOf index keys vec)
    (answers : ∀ key ∈ keys, VEngine.get path key disk beyond = .ok (answerOf value key))
    {id : Int32} (number : (KeyidMeta.getKey index.keyid key).2 = some id)
    (within : id.toInt.toNat < index.vectors.length) (positive : 0 < times limit)
    {out : ℤ × List (VecResult D)} :
    index.getKNNByKey annoy sorting key limit path disk beyond = .ok out ↔
      (∀ entry ∈ annoy.byItem index.param.distanceType index.vectors id.toInt.toNat (times limit),
        Readable keys value entry.1) ∧
        out = (0, sorting.sort ((annoy.byItem index.param.distanceType index.vectors
          id.toInt.toNat (times limit)).map (resultOf keys value))) := by
  rw [VindexAnnoy.getKNNByKey, if_pos positive]
  rcases found : KeyidMeta.getKey index.keyid key with ⟨rv, number'⟩
  rw [found] at number
  subst number
  refine prepared_eq_ok_iff indexOf answers fun entry mem => ?_
  have nearest := annoy.byItem_nearest index.param.distanceType index.vectors id.toInt.toNat
    index.vectors[id.toInt.toNat] (times limit) (List.getElem?_eq_getElem within)
  exact lt_of_mem_nearest indexOf nearest mem

/-- What a search by a key gives. -/
theorem getKNNByKey_stored (indexOf : IndexOf index keys vec)
    (answers : ∀ key ∈ keys, VEngine.get path key disk beyond = .ok (answerOf value key))
    (answerable : AnswerableBy index key value) (annoy : Annoy D) (sorting : Sorting D)
    (limit : Int32) :
    ∃ rv results, index.getKNNByKey annoy sorting key limit path disk beyond =
      .ok (rv, results) ∧ ∀ result ∈ results, IsStored value result := by
  by_cases positive : 0 < times limit
  · rcases found : KeyidMeta.getKey index.keyid key with ⟨rv, number⟩
    cases number with
    | none =>
        refine ⟨-1, [], ?_, fun _ mem => absurd mem List.not_mem_nil⟩
        rw [VindexAnnoy.getKNNByKey, if_pos positive, found]
    | some id =>
        have number : (KeyidMeta.getKey index.keyid key).2 = some id := by rw [found]
        obtain ⟨known, answerable⟩ := answerable id number
        have nearest := annoy.byItem_nearest index.param.distanceType index.vectors id.toInt.toNat
          index.vectors[id.toInt.toNat] (times limit) (List.getElem?_eq_getElem known)
        have within (entry) (mem : entry ∈ annoy.byItem index.param.distanceType index.vectors
            id.toInt.toNat (times limit)) := lt_of_mem_nearest indexOf nearest mem
        have readable (entry) (mem : entry ∈ annoy.byItem index.param.distanceType index.vectors
            id.toInt.toNat (times limit)) :=
          (answerable_iff indexOf).mp answerable entry.1 (within entry mem)
        exact ⟨_, _, (getKNNByKey_eq_ok_iff_of_number indexOf answers number known positive).mpr
          ⟨readable, rfl⟩, isStored_of_prepared within readable⟩
  · refine ⟨0, [], ?_, fun _ mem => absurd mem List.not_mem_nil⟩
    rw [VindexAnnoy.getKNNByKey, if_neg positive]

/-- If all vectors are found from wherever the number of the key points to, it is the number
of a vector, and all numbers are read back. -/
theorem answerableBy_of_getKNNByKey (indexOf : IndexOf index keys vec)
    (answers : ∀ key ∈ keys, VEngine.get path key disk beyond = .ok (answerOf value key))
    (distance : D) (annoy : Annoy D) (positive : 0 < times limit)
    (few : index.vectors.length ≤ times limit)
    (done : ∀ annoy : Annoy D, ∃ out,
      index.getKNNByKey annoy sorting key limit path disk beyond = .ok out) :
    AnswerableBy index key value := by
  intro id number
  have known : id.toInt.toNat < index.vectors.length := by
    by_contra unknown
    obtain ⟨out, found⟩ := done (annoy.outside [(keys.length, distance)])
    rw [VindexAnnoy.getKNNByKey, if_pos positive] at found
    rcases got : KeyidMeta.getKey index.keyid key with ⟨rv, number'⟩
    rw [got] at number found
    subst number
    obtain ⟨sorted, ready, -⟩ := ok_of_bind_ok found
    obtain ⟨results, looked, -⟩ := ok_of_bind_ok ready
    have items : (annoy.outside [(keys.length, distance)]).byItem index.param.distanceType
        index.vectors id.toInt.toNat (times limit) = [(keys.length, distance)] := if_neg unknown
    rw [items, List.mapM_cons] at looked
    obtain ⟨result, prepared, -⟩ := ok_of_bind_ok looked
    rw [VindexAnnoy.prepareResult] at prepared
    rcases lookup : KeyidMeta.getId index.keyid (Int32.ofNat keys.length) with fault | ⟨rv, number⟩
    · rw [lookup] at prepared
      contradiction
    · cases number with
      | none =>
          rw [lookup] at prepared
          contradiction
      | some key => exact getId_beyond indexOf rv key lookup
  refine ⟨known, ?_⟩
  obtain ⟨out, found⟩ := done annoy
  obtain ⟨readable, -⟩ :=
    (getKNNByKey_eq_ok_iff_of_number indexOf answers number known positive).mp found
  refine (answerable_iff indexOf).mpr fun i lt => ?_
  rw [← indexOf.length_vectors] at lt
  obtain ⟨entry, inside, rfl⟩ := exists_found (annoy.byItem_nearest _ _ _ _ _
    (List.getElem?_eq_getElem known)) few lt
  exact readable entry inside

end Index

/-! ## Runs -/

namespace Searcher

/-- The database is not opened again. -/
def Continues : VdbEngine.Event → Prop
  | .reopen _ _ => False
  | _ => True

/-- What the data and the indices of a database are after some steps.  Searches leave
both as they are. -/
inductive Session : Searcher → VectorMap → Prop
  | start {e : VdbEngine} {map : VectorMap}
      (follows : VdbEngine.Follows VdbEngine.Routable e map) : Session ⟨e, ∅⟩ map
  | step {s : Searcher} {e : VdbEngine} {map : VectorMap} {event : VdbEngine.Event}
      (before : Session s map) (continues : Continues event) (visits : s.engine.Visits event)
      (meets : s.engine.Routable event) (done : s.engine.step event = .ok e) :
      Session { s with engine := e } (map.step event)
  | addIndex {s s' : Searcher} {map : VectorMap} {table : Bytes} {param : AddIndexParam}
      {beyond : Memory} (before : Session s map) (done : s.addIndex table param beyond = .ok s') :
      Session s' map

/-- An index of keys that are routed to the engine with a path. -/
structure Snapshot (tables : Tables) (path : Bytes) (index : VindexAnnoy) (keys : List Bytes)
    (vec : Bytes → List Float32Bits) : Prop extends IndexOf index keys vec where
  dims : ∀ vec ∈ index.vectors, dimOf vec = index.param.dim
  routed : ∃ t p r, Tables.Has tables t p r ∧ r.path = path ∧
    ∀ key ∈ keys, r.id = 0 ∧ partitionId key t.partitionNum = .ok p.id

/-- All indices are of keys that are routed to their engines. -/
def Snapshots (s : Searcher) : Prop :=
  ∀ path timestamp index, s.indexAt path timestamp = some index →
    ∃ keys vec, Snapshot s.engine.metadata.tables path index keys vec

section Invariant

variable {s s' : Searcher} {e : VdbEngine} {map : VectorMap} {path : Bytes}
  {param : AddIndexParam} {beyond : Memory} {index : VindexAnnoy} {keys : List Bytes}
  {vec : Bytes → List Float32Bits}

theorem Snapshot.mono {tables tables' : Tables} (snapshot : Snapshot tables path index keys vec)
    (stay : ∀ t ∈ Tables.items tables, t ∈ Tables.items tables') :
    Snapshot tables' path index keys vec := by
  obtain ⟨t, p, r, has, same, routed⟩ := snapshot.routed
  exact { snapshot with
    routed := ⟨t, p, r, ⟨stay t has.table, has.partition, has.replica⟩, same, routed⟩ }

/-- A new index is of the keys that are stored. -/
theorem snapshot_of_built {store : Store} {param : VIndexParam} (refines : e.Refines map)
    (kept : e.Kept) (there : e.disk[path]? = some store)
    (built : buildIndex param store.data beyond = .ok index) :
    ∃ keys vec, Snapshot e.metadata.tables path index keys vec := by
  obtain ⟨t, p, r, has, rfl⟩ := refines.consistent.disk there
  have keys_eq := VdbEngine.keysOf_eq there
  have indexed : IndexOf index store.data.keys (vecOf (map.values t.name)) := by
    refine indexOf_of_built built fun key stored => ?_
    rw [← keys_eq] at stored
    obtain ⟨store', vv, there', value, bytes⟩ := refines.stored kept has stored
    obtain rfl := Option.some.inj (there.symm.trans there')
    exact ⟨vv, value, bytes, refines.small t.name key vv value⟩
  refine ⟨_, _, { indexed with dims := ?_, routed := ⟨t, p, r, has, rfl, ?_⟩ }⟩
  · obtain ⟨param_eq, -, -, vectors⟩ := buildIndex_eq_ok built
    intro vec mem
    obtain ⟨i, lt, rfl⟩ := List.getElem_of_mem mem
    obtain ⟨vv, -, dim, -⟩ := vectors.get (vectors.length_eq ▸ lt) lt
    rw [param_eq]
    exact dim
  · intro key mem
    rw [← keys_eq] at mem
    exact kept has key mem

theorem Snapshots.addReplicaIndex (snapshots : s.Snapshots) (refines : s.engine.Refines map)
    (kept : s.engine.Kept) {r : Replica} (done : s.addReplicaIndex param beyond r = .ok s') :
    s'.engine = s.engine ∧ s'.Snapshots := by
  unfold Searcher.addReplicaIndex at done
  split at done
  · obtain rfl := Except.ok.inj done
    exact ⟨rfl, snapshots⟩
  · obtain ⟨engine, store, new, there, built, -, after⟩ := addVIndex_eq_ok done
    refine ⟨engine, fun path timestamp index found => ?_⟩
    rw [after] at found
    rw [engine]
    split_ifs at found with added
    · obtain ⟨rfl, -⟩ := added
      obtain rfl := Option.some.inj found
      exact snapshot_of_built refines kept there built
    · exact snapshots path timestamp index found

theorem Snapshots.addIndex (snapshots : s.Snapshots) (refines : s.engine.Refines map)
    (kept : s.engine.Kept) {table : Bytes} (done : s.addIndex table param beyond = .ok s') :
    s'.engine = s.engine ∧ s'.Snapshots := by
  unfold Searcher.addIndex at done
  split at done
  · contradiction
  rename_i replicas visited
  clear visited
  induction replicas generalizing s with
  | nil =>
      obtain rfl := Except.ok.inj done
      exact ⟨rfl, snapshots⟩
  | cons r replicas ih =>
      rw [List.foldlM_cons] at done
      obtain ⟨middle, first, rest⟩ := ok_of_bind_ok done
      obtain ⟨engine, earlier⟩ := snapshots.addReplicaIndex refines kept first
      obtain ⟨engine', later⟩ := ih earlier (engine ▸ refines) (engine ▸ kept) rest
      exact ⟨engine'.trans engine, later⟩

/-- What holds in every state of a session. -/
theorem Session.sound (session : Session s map) :
    s.engine.Refines map ∧ s.engine.Kept ∧ s.Snapshots := by
  induction session with
  | start follows =>
      exact ⟨VdbEngine.refines_of_follows follows, VdbEngine.kept_of_follows follows,
        fun _ _ _ found => absurd found nofun⟩
  | step _ continues visits meets done ih =>
      obtain ⟨refines, kept, snapshots⟩ := ih
      refine ⟨refines.step visits meets done, kept.step refines visits meets done,
        fun path timestamp index found => ?_⟩
      obtain ⟨keys, vec, snapshot⟩ := snapshots path timestamp index found
      exact ⟨keys, vec, snapshot.mono fun t mem => refines.consistent.keeps visits meets done mem⟩
  | addIndex _ done ih =>
      obtain ⟨refines, kept, snapshots⟩ := ih
      obtain ⟨engine, snapshots⟩ := snapshots.addIndex refines kept done
      exact ⟨engine ▸ refines, engine ▸ kept, snapshots⟩

end Invariant

/-! ## Searching a table -/

/-- No assert fails, and the results are keys that are stored now, with their values. -/
def Current {D : Type} (value : Bytes → Option VecValue)
    (out : Except IndexFault (ℤ × Option (List (VecResult D)))) : Prop :=
  ∃ rv results, out = .ok (rv, results) ∧
    ∀ list, results = some list → ∀ result ∈ list, IsStored value result

/-- What holds of the newest index of every replica of a table. -/
def AllNewest (s : Searcher) (table : Bytes) (post : VindexAnnoy → Prop) : Prop :=
  ∀ t, s.engine.metadata.tables[table]? = some t → ∀ r ∈ t.replicas, ∀ index,
    s.newest r.path = some index → post index

section Table

variable {D : Type} {s : Searcher} {map : VectorMap} {t : Table} {p : Partition} {r : Replica}
  {index : VindexAnnoy} {table : Bytes} {limit : Int32}
  {ask : Int32 → Bytes → VindexAnnoy → Except IndexFault (ℤ × List (VecResult D))}

theorem indexAt_of_newest {path : Bytes} (newest : s.newest path = some index) :
    ∃ timestamp, s.indexAt path timestamp = some index := by
  obtain ⟨manager, found, newest⟩ := Option.bind_eq_some_iff.mp newest
  obtain ⟨⟨timestamp, index⟩, last, rfl⟩ := Option.map_eq_some_iff.mp newest
  refine ⟨timestamp, ?_⟩
  rw [indexAt, ExtTreeMap.getD_eq_getD_getElem?, found, Option.getD_some]
  exact ExtTreeMap.mem_toList_iff_getElem?_eq_some.mp (List.mem_of_getLast? last)

/-- The engine of a replica still answers for the keys of its newest index. -/
theorem Session.newest (session : Session s map) (has : Tables.Has s.engine.metadata.tables t p r)
    (newest : s.newest r.path = some index) :
    ∃ keys vec, IndexOf index keys vec ∧ (∀ vec ∈ index.vectors, dimOf vec = index.param.dim) ∧
      ∀ beyond, ∀ key ∈ keys, VEngine.get r.path key s.engine.disk beyond =
        .ok (answerOf (map.values t.name) key) := by
  obtain ⟨refines, -, snapshots⟩ := session.sound
  obtain ⟨timestamp, found⟩ := indexAt_of_newest newest
  obtain ⟨keys, vec, snapshot⟩ := snapshots _ _ _ found
  obtain ⟨t', p', r', has', same, routed⟩ := snapshot.routed
  obtain ⟨rfl, rfl, rfl⟩ := refines.consistent.placed.paths has' has same
  refine ⟨keys, vec, snapshot.toIndexOf, snapshot.dims, fun beyond key mem => ?_⟩
  exact answers_of_routed refines has' (routed key mem).1 (routed key mem).2

theorem askReplica_newest (consistent : s.engine.Consistent)
    (has : Tables.Has s.engine.metadata.tables t p r) (newest : s.newest r.path = some index)
    (ask : Bytes → VindexAnnoy → Except IndexFault (ℤ × List (VecResult D))) :
    s.askReplica ask r = (ask r.path index).map Prod.snd := by
  rw [askReplica, consistent.engines has]
  dsimp only
  rw [askEngine, newest]
  rfl

theorem askReplica_none (consistent : s.engine.Consistent)
    (has : Tables.Has s.engine.metadata.tables t p r) (newest : s.newest r.path = none)
    (ask : Bytes → VindexAnnoy → Except IndexFault (ℤ × List (VecResult D))) :
    s.askReplica ask r = .ok [] := by
  rw [askReplica, consistent.engines has]
  dsimp only
  rw [askEngine, newest]
  rfl

variable [LinearOrder D] {sorting : Sorting D}

/-- A table is asked if and only if all its replicas are. -/
theorem searchTable_iff_asked (sorting : Sorting D) (consistent : s.engine.Consistent)
    (mem : t ∈ Tables.items s.engine.metadata.tables) (positive : 0 < times limit)
    (ask : Int32 → Bytes → VindexAnnoy → Except IndexFault (ℤ × List (VecResult D))) :
    ∃ rs : List Replica, rs.Perm t.replicas ∧ ∀ out,
      s.searchTable sorting t.name limit ask = .ok out ↔
        (∀ r ∈ t.replicas, ∃ list, s.askReplica (ask limit) r = .ok list) ∧
          out = (0, some ((sorting.sort (rs.flatMap fun r =>
            ((s.askReplica (ask limit) r).toOption.getD []))).take (times limit))) := by
  refine searchTable_eq_ok_iff consistent mem positive fun r _ out => ?_
  cases s.askReplica (ask limit) r with
  | error fault =>
      refine iff_of_false nofun fun both => ?_
      obtain ⟨list, asked⟩ := both.1
      contradiction
  | ok list =>
      constructor
      · intro done
        exact ⟨⟨list, rfl⟩, (Except.ok.inj done).symm⟩
      · rintro ⟨-, rfl⟩
        rfl

/-- If the newest indices give only what is stored, then so does the table. -/
theorem current_searchTable (sorting : Sorting D) (consistent : s.engine.Consistent)
    (each : ∀ t p r, Tables.Has s.engine.metadata.tables t p r → t.name = table → ∀ index,
      s.newest r.path = some index → ∃ rv results, ask limit r.path index = .ok (rv, results) ∧
        ∀ result ∈ results, IsStored (map.values table) result) :
    Current (map.values table) (s.searchTable sorting table limit ask) := by
  by_cases positive : 0 < times limit
  · cases found : s.engine.metadata.tables[table]? with
    | none =>
        refine ⟨-1, none, ?_, nofun⟩
        rw [searchTable, if_neg (by omega), found]
    | some t =>
        have name := (consistent.placed.made table t found).1
        have mem : t ∈ Tables.items s.engine.metadata.tables := Tables.mem_items.mpr ⟨table, found⟩
        have lists (r) (inside : r ∈ t.replicas) : ∃ list, s.askReplica (ask limit) r = .ok list ∧
            ∀ result ∈ list, IsStored (map.values table) result := by
          obtain ⟨p, has⟩ := has_of_mem_replicas mem inside
          cases newest : s.newest r.path with
          | none => exact ⟨[], askReplica_none consistent has newest _, fun _ mem => absurd mem List.not_mem_nil⟩
          | some index =>
              obtain ⟨rv, results, asked, stored⟩ := each t p r has name index newest
              exact ⟨results, by rw [askReplica_newest consistent has newest, asked]; rfl, stored⟩
        obtain ⟨rs, perm, searched⟩ := searchTable_iff_asked sorting consistent mem positive ask
        rw [← name]
        refine ⟨_, _, (searched _).mpr ⟨fun r inside => ?_, rfl⟩, ?_⟩
        · obtain ⟨list, asked, -⟩ := lists r inside
          exact ⟨list, asked⟩
        · intro list same result mem
          obtain rfl := Option.some.inj same
          have unsorted := (sorting.perm _).mem_iff.mp (List.mem_of_mem_take mem)
          obtain ⟨r, inside, within⟩ := List.mem_flatMap.mp unsorted
          obtain ⟨list, asked, stored⟩ := lists r (perm.mem_iff.mp inside)
          rw [asked] at within
          rw [name]
          exact stored result within
  · refine ⟨-1, none, ?_, nofun⟩
    rw [searchTable, if_pos (by omega)]

/-- If a table is searched, then so is the newest index of every replica. -/
theorem asked_of_searchTable (consistent : s.engine.Consistent)
    (has : Tables.Has s.engine.metadata.tables t p r) (newest : s.newest r.path = some index)
    (positive : 0 < times limit) {value : Bytes → Option VecValue}
    (current : Current value (s.searchTable sorting t.name limit ask)) :
    ∃ out, ask limit r.path index = .ok out := by
  obtain ⟨rs, -, searched⟩ := searchTable_iff_asked sorting consistent has.table positive ask
  obtain ⟨rv, results, done, -⟩ := current
  obtain ⟨list, asked⟩ := ((searched _).mp done).1 r
    (List.mem_flatMap.mpr ⟨p, has.partition, has.replica⟩)
  rw [askReplica_newest consistent has newest] at asked
  cases out : ask limit r.path index with
  | error fault =>
      rw [out] at asked
      contradiction
  | ok out' => exact ⟨out', rfl⟩

theorem allNewest_iff (consistent : s.engine.Consistent) {post : VindexAnnoy → Prop} :
    s.AllNewest table post ↔ ∀ t p r, Tables.Has s.engine.metadata.tables t p r → t.name = table →
      ∀ index, s.newest r.path = some index → post index := by
  constructor
  · rintro all t p r has rfl
    exact all t (consistent.sound.made.found has.table) r
      (List.mem_flatMap.mpr ⟨p, has.partition, has.replica⟩)
  · intro all t found r inside
    have mem : t ∈ Tables.items s.engine.metadata.tables := Tables.mem_items.mpr ⟨table, found⟩
    obtain ⟨p, has⟩ := has_of_mem_replicas mem inside
    exact all t p r has (consistent.placed.made table t found).1

/-- A limit that no vector of an index exceeds. -/
def widest (index : VindexAnnoy) : Int32 := Int32.ofNat (max 1 index.vectors.length)

theorem times_widest {keys : List Bytes} {vec : Bytes → List Float32Bits}
    (indexOf : IndexOf index keys vec) : times (widest index) = max 1 index.vectors.length := by
  have small := indexOf.small
  rw [← indexOf.length_vectors] at small
  rw [times, widest, toInt_ofNat (by omega), Int.toNat_natCast]

/-- All searches of a table by vectors give keys that are stored now if and only if every
number of its newest indices finds such a key. -/
theorem getKNN_current_iff (session : Session s map) (distance : D) (table : Bytes) :
    (∀ (annoy : Annoy D) (sorting : Sorting D) query limit beyond,
      Current (map.values table) (s.getKNN annoy sorting table query limit beyond)) ↔
        s.AllNewest table fun index => Answerable index (map.values table) := by
  have consistent := session.sound.1.consistent
  rw [allNewest_iff consistent]
  constructor
  · rintro current t p r has rfl index newest i lt
    obtain ⟨keys, vec, indexOf, dims, answers⟩ := session.newest has newest
    have all := times_widest indexOf
    obtain ⟨out, found⟩ := asked_of_searchTable consistent has newest (by omega)
      (current (Annoy.exact fun _ _ _ => distance) Sorting.exact index.vectors[i] (widest index)
        fun _ => 0)
    exact answerable_of_getKNN indexOf (answers _) (dims _ (List.getElem_mem lt)) (by omega)
      (by omega) found i lt
  · intro answerable annoy sorting query limit beyond
    refine current_searchTable sorting consistent fun t p r has name index newest => ?_
    obtain ⟨keys, vec, indexOf, -, answers⟩ := session.newest has newest
    rw [name] at answers
    exact getKNN_stored indexOf (answers beyond) (answerable t p r has name index newest) annoy
      sorting query limit

/-- All searches by a key give keys that are stored now if and only if the newest indices
that have a number for the key have a vector with it, and all their numbers find such
keys. -/
theorem getKNNByKey_current_iff (session : Session s map) (distance : D) (table key : Bytes) :
    (∀ (annoy : Annoy D) (sorting : Sorting D) limit beyond,
      Current (map.values table) (s.getKNNByKey annoy sorting table key limit beyond)) ↔
        s.AllNewest table fun index => AnswerableBy index key (map.values table) := by
  have consistent := session.sound.1.consistent
  rw [allNewest_iff consistent]
  constructor
  · rintro current t p r has rfl index newest
    obtain ⟨keys, vec, indexOf, -, answers⟩ := session.newest has newest
    have all := times_widest indexOf
    have positive : 0 < times (widest index) := by omega
    exact answerableBy_of_getKNNByKey indexOf (answers fun _ => 0) distance
      (Annoy.exact fun _ _ _ => distance) positive (by omega) fun annoy =>
        asked_of_searchTable consistent has newest positive
          (current annoy Sorting.exact (widest index) fun _ => 0)
  · intro answerable annoy sorting limit beyond
    refine current_searchTable sorting consistent fun t p r has name index newest => ?_
    obtain ⟨keys, vec, indexOf, -, answers⟩ := session.newest has newest
    rw [name] at answers
    exact getKNNByKey_stored indexOf (answers beyond) (answerable t p r has name index newest) annoy
      sorting limit

end Table

/-- In every state that is reached, the searches of a table by vectors and by a key give
keys that are stored now if and only if these are found by the numbers of its newest
indices. -/
theorem search_current_iff (D : Type) [LinearOrder D] [Nonempty D] {s : Searcher}
    {map : VectorMap} (session : Session s map) (table key : Bytes) :
    ((∀ (annoy : Annoy D) (sorting : Sorting D) query limit beyond,
      Current (map.values table) (s.getKNN annoy sorting table query limit beyond)) ↔
        s.AllNewest table fun index => Answerable index (map.values table)) ∧
      ((∀ (annoy : Annoy D) (sorting : Sorting D) limit beyond,
        Current (map.values table) (s.getKNNByKey annoy sorting table key limit beyond)) ↔
          s.AllNewest table fun index => AnswerableBy index key (map.values table)) := by
  obtain ⟨distance⟩ := ‹Nonempty D›
  exact ⟨getKNN_current_iff session distance table,
    getKNNByKey_current_iff session distance table key⟩

/-- After two keys have been put and indexed, both are found. -/
theorem search_current_two : ∃ s map, Session s map ∧
    FindsOne 2 [⟨[97], [97], 0⟩, ⟨[100], [98], 0x3F800000⟩] s ∧
      ∀ (annoy : Annoy ℕ) (sorting : Sorting ℕ) query limit beyond,
        Current (map.values [116]) (s.getKNN annoy sorting [116] query limit beyond) := by
  obtain ⟨e, follows, -, ⟨t, mem, name, length⟩, searched⟩ := follows_twoKeys
  obtain ⟨s, indexed, -, finds, -⟩ := searched.exists_ok
  have session := (Session.start follows).addIndex indexed
  have refines := VdbEngine.refines_of_follows follows
  have kept := VdbEngine.kept_of_follows follows
  rw [← name] at indexed
  obtain ⟨rfl, built⟩ := builtAt_of_addIndex (s := ⟨e, ∅⟩) refines.consistent mem
    (fun _ _ there => absurd rfl there) indexed
  refine ⟨s, twoKeys, session, finds, (search_current_iff ℕ session [116] [97]).1.mpr ?_⟩
  intro t' found r inside index newest
  have same := refines.consistent.sound.made.found mem
  rw [name, found] at same
  obtain rfl := Option.some.inj same
  obtain ⟨index', newest', -, -, indexOf⟩ := Searcher.indexOf refines kept mem built inside
  obtain rfl := Option.some.inj (newest.symm.trans newest')
  refine (answerable_iff indexOf).mpr fun i lt => ⟨legible_of_length (length r inside) i, ?_⟩
  intro key at_
  obtain ⟨p, has⟩ := has_of_mem_replicas mem inside
  obtain ⟨-, vv, -, value, -⟩ := refines.stored kept has (List.mem_of_getElem? at_)
  rw [← name, value]
  exact Option.some_ne_none vv

/-- The only key is deleted after it has been indexed. -/
theorem found_deleted :
    Meets ((VdbEngine.fresh [47]).step (.addTable ⟨[116], 1, 1, 1⟩ [[116]]))
      (fun e => Meets (e.step (.put [116] [97] one))
        (fun e => Meets (addIndex ⟨e, ∅⟩ [116] (indexParam .euclidean) fun _ => 0)
          (fun s => Meets (s.engine.step (.delete [116] [97]))
            (fun e => Meets ({ s with engine := e }.getKNN (Annoy.exact unitDistance)
              Sorting.exact [116] one.vec 1 fun _ => 0) (fun _ => False) fun fault =>
                fault = .notFound)
            fun _ => False)
          fun _ => False)
        fun _ => False)
      fun _ => False := by
  decide +kernel

theorem not_search_current : ¬∀ s map, Session s map → ∀ table (annoy : Annoy ℕ)
    (sorting : Sorting ℕ) query limit beyond,
      Current (map.values table) (s.getKNN annoy sorting table query limit beyond) := by
  intro current
  obtain ⟨e, added, rest⟩ := found_deleted.exists_ok
  obtain ⟨e', put, rest⟩ := rest.exists_ok
  obtain ⟨s, indexed, rest⟩ := rest.exists_ok
  obtain ⟨e'', deleted, rest⟩ := rest.exists_ok
  have table : VdbEngine.Routable (.fresh [47]) (.addTable ⟨[116], 1, 1, 1⟩ [[116]]) := fun _ => by
    decide +kernel
  have follows := ((VdbEngine.Follows.fresh [47]).step
    (fun _ => by simp [VdbEngine.fresh, Metadata.fresh, VdbEngine.tableParam]) table added).step
      (by exact trivial) (by exact trivial) put
  have session := ((Session.start follows).addIndex indexed).step (by exact trivial)
    (by exact trivial) (by exact trivial) deleted
  obtain ⟨rv, results, found, -⟩ := current _ _ session [116] (Annoy.exact unitDistance)
    Sorting.exact one.vec 1 fun _ => 0
  rw [found] at rest
  exact rest

end Searcher

end Vraft.VectorDb
