import Vraft.VectorDb.Partitions
import Vraft.VectorDb.Search

/-!
# What a search finds

The newest index of every replica finds the nearest of the keys it was built of.  What is
found can be turned into results if its numbers find their keys, and for the keys
something is stored.
-/

namespace Vraft.VectorDb

open Raw Std

section Nearest

variable {α γ D : Type} [LinearOrder D] {type : DistanceType} {distance : α → D} {k : ℕ}
  {items out : List α}

theorem IsNearest.map {g : α → γ} {distance' : γ → D} (nearest : IsNearest type distance k items out)
    (same : ∀ a ∈ items, distance' (g a) = distance a) :
    IsNearest type distance' k (items.map g) (out.map g) := by
  cases type with
  | innerProduct => exact Least.map nearest fun a mem => congrArg OrderDual.toDual (same a mem)
  | cosine => exact Least.map nearest same
  | euclidean => exact Least.map nearest same

theorem IsNearest.mem (nearest : IsNearest type distance k items out) {a : α} (mem : a ∈ out) :
    a ∈ items := by
  cases type with
  | innerProduct => exact Least.mem nearest mem
  | cosine => exact Least.mem nearest mem
  | euclidean => exact Least.mem nearest mem

theorem IsNearest.of_perm {items' : List α} (nearest : IsNearest type distance k items out)
    (perm : items.Perm items') : IsNearest type distance k items' out := by
  cases type with
  | innerProduct => exact Least.of_perm nearest perm
  | cosine => exact Least.of_perm nearest perm
  | euclidean => exact Least.of_perm nearest perm

theorem IsNearest.length_le (nearest : IsNearest type distance k items out) : out.length ≤ k := by
  cases type with
  | innerProduct => exact (Least.length nearest).trans_le (Nat.min_le_left _ _)
  | cosine => exact (Least.length nearest).trans_le (Nat.min_le_left _ _)
  | euclidean => exact (Least.length nearest).trans_le (Nat.min_le_left _ _)

theorem IsNearest.mem_of_length_le (nearest : IsNearest type distance k items out)
    (few : items.length ≤ k) {a : α} (mem : a ∈ items) : a ∈ out := by
  cases type with
  | innerProduct => exact Least.mem_of_length_le nearest few mem
  | cosine => exact Least.mem_of_length_le nearest few mem
  | euclidean => exact Least.mem_of_length_le nearest few mem

/-- The distances of the nearest items are determined. -/
theorem IsNearest.map_eq {out' : List α} (nearest : IsNearest type distance k items out)
    (nearest' : IsNearest type distance k items out') : out.map distance = out'.map distance := by
  cases type with
  | innerProduct =>
      refine List.map_injective_iff.mpr OrderDual.toDual.injective ?_
      rw [List.map_map, List.map_map]
      exact Least.map_eq nearest nearest' (List.Perm.refl _)
  | cosine => exact Least.map_eq nearest nearest' (List.Perm.refl _)
  | euclidean => exact Least.map_eq nearest nearest' (List.Perm.refl _)

theorem IsNearest.merge_iff {parts : List γ} {items out : γ → List α} {whole : List α}
    (each : ∀ i ∈ parts, IsNearest type distance k (items i) (out i))
    (perm : whole.Perm (parts.flatMap out))
    (ordered : whole.Pairwise fun a b => distance a ≤ distance b) (positive : 0 < k) :
    IsNearest type distance k (parts.flatMap items) (whole.take k) ↔
      (type = .innerProduct → ∀ a ∈ whole, ∀ b ∈ whole, distance a = distance b) := by
  cases type with
  | innerProduct =>
      rw [IsNearest, Least.merge_reversed_iff each perm ordered positive]
      exact ⟨fun same _ => same, fun same => same rfl⟩
  | cosine => exact iff_of_true (Least.merge each perm ordered) nofun
  | euclidean => exact iff_of_true (Least.merge each perm ordered) nofun

end Nearest

/-! ## One index -/

/-- An index of some keys with their vectors. -/
structure IndexOf (index : VindexAnnoy) (keys : List Bytes) (vec : Bytes → List Float32Bits) :
    Prop where
  keyid : index.keyid = writeKeys keys
  vectors : index.vectors = keys.map vec
  nodup : keys.Nodup
  small : keys.length < 2 ^ 31

/-- A number finds its key: this is not empty, and no later one is spelled like the
number. -/
structure Legible (keys : List Bytes) (i : ℕ) : Prop where
  nonempty : keys[i]? ≠ some []
  later : ∀ m, i < m → keys[m]? ≠ some (encodeInt32 (Int32.ofNat i))

theorem legible_of_length {keys : List Bytes}
    (length : ∀ key ∈ keys, key ≠ [] ∧ key.length ≠ 4) (i : ℕ) : Legible keys i where
  nonempty there := (length _ (List.mem_of_getElem? there)).1 rfl
  later _ _ there := (length _ (List.mem_of_getElem? there)).2 (length_encodeInt32 _)

theorem getId_eq_ok_iff {keys : List Bytes} (nodup : keys.Nodup) (small : keys.length < 2 ^ 31)
    {i : ℕ} {key : Bytes} (at_ : keys[i]? = some key) {out : ℤ × Option Bytes} :
    KeyidMeta.getId (writeKeys keys) (Int32.ofNat i) = .ok out ↔
      Legible keys i ∧ out = (0, some key) := by
  by_cases later : ∃ m, i < m ∧ keys[m]? = some (encodeInt32 (Int32.ofNat i))
  · obtain ⟨m, after, there⟩ := later
    rw [getId_number (getElem?_overwritten nodup small there after)]
    exact iff_of_false nofun fun both => both.1.later m after there
  · rw [getId_annoyKey (getElem?_number small at_ fun m after there => later ⟨m, after, there⟩)]
    split_ifs with empty
    · exact iff_of_false nofun fun both => both.1.nonempty (empty ▸ at_)
    · constructor
      · intro done
        refine ⟨⟨fun there => ?_, fun m after there => later ⟨m, after, there⟩⟩,
          (Except.ok.inj done).symm⟩
        exact empty (Option.some.inj (at_.symm.trans there))
      · rintro ⟨-, rfl⟩
        rfl

/-- The vector that is stored for a key. -/
def vecOf (value : Bytes → Option VecValue) (key : Bytes) : List Float32Bits :=
  (value key).elim [] VecValue.vec

/-- An index is built of what is stored. -/
theorem indexOf_of_built {param : VIndexParam} {data : Db} {beyond : Memory} {index : VindexAnnoy}
    {value : Bytes → Option VecValue} (built : buildIndex param data beyond = .ok index)
    (stored : ∀ key ∈ data.keys, ∃ vv, value key = some vv ∧ data[key]? = some vv.toBytes ∧
      vv.maxBytes < 2 ^ 31) : IndexOf index data.keys (vecOf value) := by
  obtain ⟨-, keyid, small, vectors⟩ := buildIndex_eq_ok built
  refine ⟨keyid, ?_, Indexed.nodup_keys data, small⟩
  rw [← ExtTreeMap.map_fst_toList_eq_keys, List.map_map]
  have inside : ∀ binding ∈ data.toList, ∃ vv, value binding.1 = some vv ∧
      binding.2 = vv.toBytes ∧ vv.maxBytes < 2 ^ 31 := by
    intro binding mem
    have key : binding.1 ∈ data.keys := by
      rw [← ExtTreeMap.map_fst_toList_eq_keys]
      exact List.mem_map_of_mem mem
    obtain ⟨vv, there, bytes, fits⟩ := stored _ key
    rw [ExtTreeMap.mem_toList_iff_getElem?_eq_some, bytes] at mem
    exact ⟨vv, there, (Option.some.inj mem).symm, fits⟩
  clear built keyid small
  generalize data.toList = bindings at vectors inside
  generalize index.vectors = decoded at vectors ⊢
  induction vectors with
  | nil => rfl
  | @cons binding vec bindings vecs first _ ih =>
      rw [List.forall_mem_cons] at inside
      obtain ⟨vv, rfl, -, decoded⟩ := first
      obtain ⟨vv', there, bytes, fits⟩ := inside.1
      rw [bytes, VecValue.fromString_toBytes fits] at decoded
      obtain rfl := Except.ok.inj decoded
      rw [List.map_cons, ih inside.2, Function.comp_apply, vecOf, there]
      rfl

section Index

variable {D : Type} {index : VindexAnnoy} {keys : List Bytes} {vec : Bytes → List Float32Bits}
  {path : Bytes} {disk : Disk} {beyond : Memory} {value : Bytes → Option VecValue}

/-- What an engine answers for a key. -/
def answerOf (value : Bytes → Option VecValue) (key : Bytes) : ℤ × Option VecObj :=
  match value key with
  | some vv => (0, some ⟨key, vv⟩)
  | none => (-2, none)

/-- The number finds its key, and for this key something is stored. -/
structure Readable (keys : List Bytes) (value : Bytes → Option VecValue) (i : ℕ) : Prop
    extends Legible keys i where
  stored : ∀ key, keys[i]? = some key → value key ≠ none

/-- A key as a result. -/
def resultFor (value : Bytes → Option VecValue) (key : Bytes) (distance : D) : VecResult D :=
  ⟨key, (value key).elim [] VecValue.attachValue, distance⟩

/-- The key with a number that has been found. -/
def resultOf (keys : List Bytes) (value : Bytes → Option VecValue) (found : ℕ × D) :
    VecResult D :=
  resultFor value ((keys[found.1]?).getD []) found.2

theorem map_distance_resultOf (found : List (ℕ × D)) :
    (found.map (resultOf keys value)).map VecResult.distance = found.map Prod.snd := by
  rw [List.map_map]
  rfl

theorem prepareResult_eq_ok_iff (indexOf : IndexOf index keys vec)
    (answers : ∀ key ∈ keys, VEngine.get path key disk beyond = .ok (answerOf value key))
    {found : ℕ × D} (within : found.1 < keys.length) {result : VecResult D} :
    index.prepareResult path disk beyond found = .ok result ↔
      Readable keys value found.1 ∧ result = resultOf keys value found := by
  have at_ := List.getElem?_eq_getElem within
  have lookup (out : ℤ × Option Bytes) :=
    @getId_eq_ok_iff _ indexOf.nodup indexOf.small _ _ at_ out
  rw [VindexAnnoy.prepareResult, indexOf.keyid]
  cases got : KeyidMeta.getId (writeKeys keys) (Int32.ofNat found.1) with
  | error fault =>
      refine iff_of_false nofun fun both => ?_
      rw [(lookup _).mpr ⟨both.1.toLegible, rfl⟩] at got
      contradiction
  | ok out =>
      obtain ⟨legible, rfl⟩ := (lookup out).mp got
      dsimp only
      rw [answers _ (List.getElem_mem within), answerOf]
      cases there : value keys[found.1] with
      | none =>
          refine iff_of_false nofun fun both => both.1.stored _ at_ there
      | some vv =>
          have result_eq : resultOf keys value found = ⟨keys[found.1], vv.attachValue, found.2⟩ := by
            rw [resultOf, at_, Option.getD_some, resultFor, there]
            rfl
          rw [result_eq]
          constructor
          · intro done
            refine ⟨⟨legible, fun key at_' missing => ?_⟩, (Except.ok.inj done).symm⟩
            obtain rfl := Option.some.inj (at_.symm.trans at_')
            rw [there] at missing
            contradiction
          · rintro ⟨-, rfl⟩
            rfl

variable [LinearOrder D] {annoy : Annoy D} {sorting : Sorting D}

/-- The results are what was found, if all of it is readable. -/
theorem prepared_eq_ok_iff (indexOf : IndexOf index keys vec)
    (answers : ∀ key ∈ keys, VEngine.get path key disk beyond = .ok (answerOf value key))
    {found : List (ℕ × D)} (within : ∀ entry ∈ found, entry.1 < keys.length)
    {out : ℤ × List (VecResult D)} :
    (do
      let results ← index.prepareResults sorting path disk beyond found
      pure ((0 : ℤ), results)) = .ok out ↔
      (∀ entry ∈ found, Readable keys value entry.1) ∧
        out = (0, sorting.sort (found.map (resultOf keys value))) := by
  have rounds (results : List (VecResult D)) :
      found.mapM (index.prepareResult path disk beyond) = .ok results ↔
        (∀ entry ∈ found, Readable keys value entry.1) ∧
          results = found.map (resultOf keys value) :=
    mapM_eq_ok_iff fun entry mem _ => prepareResult_eq_ok_iff indexOf answers (within entry mem)
  rw [VindexAnnoy.prepareResults]
  constructor
  · intro done
    obtain ⟨sorted, ready, done⟩ := ok_of_bind_ok done
    obtain ⟨results, looked, ready⟩ := ok_of_bind_ok ready
    obtain ⟨readable, rfl⟩ := (rounds results).mp looked
    obtain rfl := Except.ok.inj ready
    exact ⟨readable, (Except.ok.inj done).symm⟩
  · rintro ⟨readable, rfl⟩
    rw [(rounds _).mpr ⟨readable, rfl⟩]
    rfl

/-- What is found by a vector are the nearest of the keys. -/
theorem nearest_byVector (indexOf : IndexOf index keys vec) (query : List Float32Bits) (k : ℕ) :
    IsNearest index.param.distanceType VecResult.distance k
      (keys.map fun key =>
        resultFor value key (annoy.distance index.param.distanceType (vec key) query))
      ((annoy.byVector index.param.distanceType index.vectors query k).map
        (resultOf keys value)) := by
  have nearest := annoy.byVector_nearest index.param.distanceType index.vectors query k
  rw [indexOf.vectors] at nearest ⊢
  have results : (measured (annoy.distance index.param.distanceType) (keys.map vec) query).map
      (resultOf keys value) = keys.map fun key =>
        resultFor value key (annoy.distance index.param.distanceType (vec key) query) := by
    refine List.ext_getElem (by simp [measured]) fun i lt lt' => ?_
    have within : i < keys.length := by simpa using lt'
    simp [measured, resultOf, within]
  rw [← results]
  exact nearest.map fun _ _ => rfl

theorem lt_of_mem_nearest (indexOf : IndexOf index keys vec) {type : DistanceType}
    {distance : List Float32Bits → List Float32Bits → D} {query : List Float32Bits} {k : ℕ}
    {found : List (ℕ × D)}
    (nearest : IsNearest type Prod.snd k (measured distance index.vectors query) found)
    {entry : ℕ × D} (mem : entry ∈ found) : entry.1 < keys.length := by
  obtain ⟨pair, inside, rfl⟩ := List.mem_map.mp (nearest.mem mem)
  rw [indexOf.vectors] at inside
  simpa using (List.mem_zipIdx inside).2.1

theorem getKNN_eq_ok_iff (indexOf : IndexOf index keys vec)
    (answers : ∀ key ∈ keys, VEngine.get path key disk beyond = .ok (answerOf value key))
    {query : List Float32Bits} (dim : dimOf query = index.param.dim) {limit : Int32}
    (positive : 0 < times limit) {out : ℤ × List (VecResult D)} :
    index.getKNN annoy sorting query limit path disk beyond = .ok out ↔
      (∀ entry ∈ annoy.byVector index.param.distanceType index.vectors query (times limit),
        Readable keys value entry.1) ∧
        out = (0, sorting.sort
          ((annoy.byVector index.param.distanceType index.vectors query (times limit)).map
            (resultOf keys value))) := by
  rw [VindexAnnoy.getKNN, if_neg (not_not.mpr dim), if_pos positive]
  exact prepared_eq_ok_iff indexOf answers fun _ =>
    lt_of_mem_nearest indexOf (annoy.byVector_nearest _ _ _ _)

end Index

/-! ## All replicas of a table -/

namespace Searcher

variable {D : Type} {s : Searcher}
  {e : VdbEngine} {map map' : VectorMap} {t : Table} {type : DistanceType} {dim : Int32}
  {query : List Float32Bits} {limit : Int32} {beyond : Memory}

/-- The newest index of every replica has been built of what its engine held then. -/
def BuiltAt (s : Searcher) (e : VdbEngine) (t : Table) (type : DistanceType) (dim : Int32) :
    Prop :=
  ∀ r ∈ t.replicas, ∃ store param beyond index, e.disk[r.path]? = some store ∧
    buildIndex param store.data beyond = .ok index ∧ s.newest r.path = some index ∧
      param.distanceType = type ∧ param.dim = dim

/-- What the newest index of a replica finds. -/
def found [LinearOrder D] (annoy : Annoy D) (s : Searcher) (query : List Float32Bits) (limit : Int32)
    (r : Replica) : List (ℕ × D) :=
  (s.newest r.path).elim [] fun index =>
    annoy.byVector index.param.distanceType index.vectors query (times limit)

theorem has_of_mem_replicas (mem : t ∈ Tables.items e.metadata.tables) {r : Replica}
    (inside : r ∈ t.replicas) : ∃ p, Tables.Has e.metadata.tables t p r := by
  obtain ⟨p, partition, within⟩ := List.mem_flatMap.mp inside
  exact ⟨p, mem, partition, within⟩

/-- What an index was built of. -/
theorem indexOf (refines : e.Refines map) (kept : e.Kept)
    (mem : t ∈ Tables.items e.metadata.tables) (built : s.BuiltAt e t type dim) {r : Replica}
    (inside : r ∈ t.replicas) :
    ∃ index, s.newest r.path = some index ∧ index.param.distanceType = type ∧
      index.param.dim = dim ∧ IndexOf index (e.keysOf r) (vecOf (map.values t.name)) := by
  obtain ⟨p, has⟩ := has_of_mem_replicas mem inside
  obtain ⟨store, param, beyond, index, there, done, newest, types, dims⟩ := built r inside
  have param_eq := (buildIndex_eq_ok done).1
  refine ⟨index, newest, by rw [param_eq, types], by rw [param_eq, dims], ?_⟩
  rw [VdbEngine.keysOf_eq there]
  refine indexOf_of_built done fun key stored => ?_
  rw [← VdbEngine.keysOf_eq there] at stored
  obtain ⟨store', vv, there', value, bytes⟩ := refines.stored kept has stored
  obtain rfl := Option.some.inj (there.symm.trans there')
  exact ⟨vv, value, bytes, refines.small t.name key vv value⟩

/-- What an engine answers for the keys that are routed to it. -/
theorem answers_of_routed {p : Partition} {r : Replica} {key : Bytes}
    (refines : s.engine.Refines map) (has : Tables.Has s.engine.metadata.tables t p r)
    (zero : r.id = 0) (selected : partitionId key t.partitionNum = .ok p.id) :
    VEngine.get r.path key s.engine.disk beyond = .ok (answerOf (map.values t.name) key) := by
  obtain ⟨store, there, -⟩ := refines.consistent.stores has
  rw [VEngine.get, there]
  dsimp only
  rw [refines.values has zero key selected store there, answerOf]
  cases value : map.values t.name key with
  | none => rfl
  | some vv =>
      dsimp only [Option.map_some]
      rw [VecValue.fromString_toBytes (refines.small t.name key vv value)]
      rfl

/-- What an engine answers for the keys that were once stored in it. -/
theorem answers (kept : e.Kept) (mem : t ∈ Tables.items e.metadata.tables)
    (refines : s.engine.Refines map') (mem' : t ∈ Tables.items s.engine.metadata.tables)
    {r : Replica} (inside : r ∈ t.replicas) {key : Bytes} (stored : key ∈ e.keysOf r) :
    VEngine.get r.path key s.engine.disk beyond = .ok (answerOf (map'.values t.name) key) := by
  obtain ⟨p, has⟩ := has_of_mem_replicas mem inside
  obtain ⟨zero, selected⟩ := kept has key stored
  exact answers_of_routed refines ⟨mem', has.partition, has.replica⟩ zero selected

/-- A replica is asked by its newest index. -/
theorem askReplica_eq_ok_iff (consistent : s.engine.Consistent)
    (mem : t ∈ Tables.items s.engine.metadata.tables) {r : Replica} (inside : r ∈ t.replicas)
    {index : VindexAnnoy} (newest : s.newest r.path = some index)
    {ask : Bytes → VindexAnnoy → Except IndexFault (ℤ × List (VecResult D))} {condition : Prop}
    {n : ℤ} {results : List (VecResult D)}
    (asked : ∀ out, ask r.path index = .ok out ↔ condition ∧ out = (n, results))
    (out : List (VecResult D)) :
    s.askReplica ask r = .ok out ↔ condition ∧ out = results := by
  obtain ⟨p, has⟩ := has_of_mem_replicas mem inside
  rw [askReplica, consistent.engines has]
  dsimp only
  rw [askEngine, newest]
  dsimp only
  constructor
  · intro done
    obtain ⟨⟨n', results'⟩, found, done⟩ := ok_of_bind_ok done
    obtain ⟨holds, same⟩ := (asked _).mp found
    obtain ⟨-, rfl⟩ := Prod.mk.inj same
    exact ⟨holds, (Except.ok.inj done).symm⟩
  · rintro ⟨holds, rfl⟩
    rw [(asked _).mpr ⟨holds, rfl⟩]
    rfl

variable [LinearOrder D] {annoy : Annoy D} {sorting : Sorting D}

/-- All replicas are asked, and what they find is sorted by distance and cut. -/
theorem searchTable_eq_ok_iff (consistent : s.engine.Consistent)
    (mem : t ∈ Tables.items s.engine.metadata.tables) (positive : 0 < times limit)
    {ask : Int32 → Bytes → VindexAnnoy → Except IndexFault (ℤ × List (VecResult D))}
    {condition : Replica → Prop} {results : Replica → List (VecResult D)}
    (each : ∀ r ∈ t.replicas, ∀ out,
      s.askReplica (ask limit) r = .ok out ↔ condition r ∧ out = results r) :
    ∃ rs : List Replica, rs.Perm t.replicas ∧ ∀ out,
      s.searchTable sorting t.name limit ask = .ok out ↔
        (∀ r ∈ t.replicas, condition r) ∧
          out = (0, some ((sorting.sort (rs.flatMap results)).take (times limit))) := by
  obtain ⟨rs, visited, perm⟩ := consistent.placed.named.visits t mem
  refine ⟨rs, perm, fun out => ?_⟩
  have asked (lists : List (List (VecResult D))) :
      rs.mapM (s.askReplica (ask limit)) = .ok lists ↔
        (∀ r ∈ rs, condition r) ∧ lists = rs.map results :=
    mapM_eq_ok_iff fun r inside => each r (perm.mem_iff.mp inside)
  rw [searchTable, if_neg (by omega), consistent.sound.made.found mem]
  dsimp only
  rw [visited]
  dsimp only
  constructor
  · intro done
    obtain ⟨lists, collected, done⟩ := ok_of_bind_ok done
    obtain ⟨holds, rfl⟩ := (asked lists).mp collected
    refine ⟨fun r inside => holds r (perm.mem_iff.mpr inside), ?_⟩
    rw [List.flatMap_def]
    exact (Except.ok.inj done).symm
  · rintro ⟨holds, rfl⟩
    rw [everyLimit, (asked _).mpr ⟨fun r inside => holds r (perm.mem_iff.mp inside), rfl⟩,
      List.flatMap_def]
    rfl

theorem found_eq {r : Replica} {index : VindexAnnoy} (newest : s.newest r.path = some index) :
    s.found annoy query limit r =
      annoy.byVector index.param.distanceType index.vectors query (times limit) := by
  rw [found, newest]
  rfl

/-- What a table finds by a vector. -/
theorem getKNN_iff (annoy : Annoy D) (sorting : Sorting D) (beyond : Memory)
    (refines : e.Refines map) (kept : e.Kept)
    (mem : t ∈ Tables.items e.metadata.tables) (refines' : s.engine.Refines map')
    (mem' : t ∈ Tables.items s.engine.metadata.tables)
    (built : s.BuiltAt e t type (dimOf query)) (positive : 0 < times limit) :
    ∃ rs : List Replica, rs.Perm t.replicas ∧ ∀ out,
      s.getKNN annoy sorting t.name query limit beyond = .ok out ↔
        (∀ r ∈ t.replicas, ∀ entry ∈ s.found annoy query limit r,
          Readable (e.keysOf r) (map'.values t.name) entry.1) ∧
          out = (0, some ((sorting.sort (rs.flatMap fun r => sorting.sort
            ((s.found annoy query limit r).map
              (resultOf (e.keysOf r) (map'.values t.name))))).take (times limit))) := by
  refine searchTable_eq_ok_iff refines'.consistent mem' positive fun r inside out => ?_
  obtain ⟨index, newest, -, dim, indexed⟩ := indexOf refines kept mem built inside
  rw [found_eq newest]
  exact askReplica_eq_ok_iff refines'.consistent mem' inside newest
    (fun _ => getKNN_eq_ok_iff indexed
      (fun _ stored => answers kept mem refines' mem' inside stored) dim.symm positive) out

/-! ## Adding an index -/

/-- The index of an engine with a timestamp. -/
def indexAt (s : Searcher) (path : Bytes) (timestamp : UInt64) : Option VindexAnnoy :=
  (s.indices.getD path ∅)[timestamp]?

theorem addVIndex_eq_ok {s' : Searcher} {path : Bytes} {param : AddIndexParam}
    (done : s.addVIndex path param beyond = .ok s') :
    s'.engine = s.engine ∧ ∃ store index, s.engine.disk[path]? = some store ∧
      buildIndex (vindexParam path param) store.data beyond = .ok index ∧
        s.indexAt path param.timestamp = none ∧ ∀ path' timestamp,
          s'.indexAt path' timestamp =
            if path' = path ∧ timestamp = param.timestamp then some index
            else s.indexAt path' timestamp := by
  unfold addVIndex at done
  split at done
  · contradiction
  · rename_i store there
    split at done
    · contradiction
    · rename_i absent
      obtain ⟨index, built, done⟩ := ok_of_bind_ok done
      obtain rfl := Except.ok.inj done
      refine ⟨rfl, store, index, there, built, ?_, fun path' timestamp => ?_⟩
      · exact ExtTreeMap.getElem?_eq_none absent
      · rw [indexAt, ExtTreeMap.getD_insert]
        by_cases same : path' = path
        · subst same
          rw [if_pos ReflCmp.compare_self, ExtTreeMap.getElem?_insert, indexAt]
          by_cases equal : timestamp = param.timestamp
          · subst equal
            rw [if_pos ReflCmp.compare_self, if_pos ⟨rfl, rfl⟩]
          · rw [if_neg fun eq => equal (LawfulEqCmp.eq_of_compare eq).symm,
              if_neg fun both => equal both.2]
        · rw [if_neg fun eq => same (LawfulEqCmp.eq_of_compare eq).symm,
            if_neg fun both => same both.1, indexAt]

theorem getNewest_eq {indices : VindexManager} {timestamp : UInt64} {index : VindexAnnoy}
    (there : indices[timestamp]? = some index) (newest : ∀ later ∈ indices, later ≤ timestamp) :
    indices.getNewest = some index := by
  have mem : (timestamp, index) ∈ indices.toList :=
    ExtTreeMap.mem_toList_iff_getElem?_eq_some.mpr there
  obtain ⟨earlier, last, split⟩ : ∃ earlier last, indices.toList = earlier ++ [last] :=
    List.eq_nil_or_concat' _ |>.resolve_left (List.ne_nil_of_mem mem)
  have ordered : indices.toList.Pairwise fun a b => compare a.1 b.1 = .lt :=
    ExtTreeMap.ordered_keys_toList
  have last_mem : last ∈ indices.toList := by
    rw [split]
    exact List.mem_append_right _ (List.mem_singleton_self _)
  rw [split] at mem ordered
  rw [VindexManager.getNewest, split, List.getLast?_append, List.getLast?_singleton,
    Option.some_or, Option.map_some]
  rcases List.mem_append.mp mem with before | same
  · have less := (List.pairwise_append.mp ordered).2.2 _ before _ (List.mem_singleton_self _)
    have stored : last.1 ∈ indices := by
      rw [ExtTreeMap.mem_iff_isSome_getElem?,
        ExtTreeMap.mem_toList_iff_getElem?_eq_some.mp last_mem]
      rfl
    have le := (LawfulOrderOrd.isLE_compare _ _).mpr (newest last.1 stored)
    rw [OrientedOrd.eq_swap, less] at le
    contradiction
  · rw [← List.mem_singleton.mp same]

theorem newest_eq {path : Bytes} {timestamp : UInt64} {index : VindexAnnoy}
    (there : s.indexAt path timestamp = some index)
    (newest : ∀ later, s.indexAt path later ≠ none → later ≤ timestamp) :
    s.newest path = some index := by
  rw [indexAt, ExtTreeMap.getD_eq_getD_getElem?] at there
  cases found : s.indices[path]? with
  | none =>
      rw [found] at there
      simp at there
  | some manager =>
      rw [found, Option.getD_some] at there
      rw [Searcher.newest, found, Option.bind_some]
      refine getNewest_eq there fun later mem => newest later ?_
      rw [indexAt, ExtTreeMap.getD_eq_getD_getElem?, found, Option.getD_some,
        ExtTreeMap.getElem?_eq_some_getElem mem]
      exact nofun

theorem addIndexes_eq_ok {s' : Searcher} {param : AddIndexParam} {rs : List Replica}
    (opened : ∀ r ∈ rs, s.engine.engines[r.uid]? = some r.path)
    (done : rs.foldlM (addReplicaIndex param beyond) s = .ok s') :
    s'.engine = s.engine ∧
      (∀ r ∈ rs, ∃ store index, s.engine.disk[r.path]? = some store ∧
        buildIndex (vindexParam r.path param) store.data beyond = .ok index ∧
          s'.indexAt r.path param.timestamp = some index) ∧
        ∀ path timestamp, s'.indexAt path timestamp = s.indexAt path timestamp ∨
          timestamp = param.timestamp ∧ s.indexAt path timestamp = none := by
  induction rs generalizing s with
  | nil =>
      obtain rfl := Except.ok.inj done
      exact ⟨rfl, fun r mem => absurd mem List.not_mem_nil, fun _ _ => .inl rfl⟩
  | cons r rs ih =>
      rw [List.forall_mem_cons] at opened
      rw [List.foldlM_cons] at done
      obtain ⟨middle, first, rest⟩ := ok_of_bind_ok done
      rw [addReplicaIndex, opened.1] at first
      obtain ⟨engine, store, index, there, built, free, after⟩ := addVIndex_eq_ok first
      obtain ⟨engine', indexed, kept⟩ := ih (by rw [engine]; exact opened.2) rest
      rw [engine] at indexed
      have own : middle.indexAt r.path param.timestamp = some index := by
        rw [after, if_pos ⟨rfl, rfl⟩]
      refine ⟨engine'.trans engine, List.forall_mem_cons.mpr ⟨?_, indexed⟩, fun path timestamp => ?_⟩
      · refine ⟨store, index, there, built, ?_⟩
        rcases kept r.path param.timestamp with same | ⟨-, missing⟩
        · rw [same, own]
        · rw [own] at missing
          contradiction
      · by_cases new : path = r.path ∧ timestamp = param.timestamp
        · obtain ⟨rfl, rfl⟩ := new
          exact .inr ⟨rfl, free⟩
        · have before : middle.indexAt path timestamp = s.indexAt path timestamp := by
            rw [after, if_neg new]
          rw [← before]
          exact kept path timestamp

/-- An index that is added with a new timestamp is built of the current contents. -/
theorem builtAt_of_addIndex {s' : Searcher} {param : AddIndexParam}
    (consistent : s.engine.Consistent) (mem : t ∈ Tables.items s.engine.metadata.tables)
    (newer : ∀ path timestamp, s.indexAt path timestamp ≠ none → timestamp < param.timestamp)
    (done : s.addIndex t.name param beyond = .ok s') :
    s'.engine = s.engine ∧ s'.BuiltAt s.engine t param.distanceType param.dim := by
  obtain ⟨rs, visited, perm⟩ := consistent.placed.named.visits t mem
  rw [addIndex, visited] at done
  have opened : ∀ r ∈ rs, s.engine.engines[r.uid]? = some r.path := by
    intro r inside
    obtain ⟨p, has⟩ := has_of_mem_replicas mem (perm.mem_iff.mp inside)
    exact consistent.engines has
  obtain ⟨engine, indexed, kept⟩ := addIndexes_eq_ok opened done
  refine ⟨engine, fun r inside => ?_⟩
  obtain ⟨store, index, there, built, own⟩ := indexed r (perm.mem_iff.mpr inside)
  refine ⟨store, _, beyond, index, there, built, newest_eq own fun later found => ?_, rfl, rfl⟩
  rcases kept r.path later with same | ⟨rfl, -⟩
  · rw [same] at found
    exact UInt64.le_of_lt (newer r.path later found)
  · exact UInt64.le_refl _

end Searcher

end Vraft.VectorDb
