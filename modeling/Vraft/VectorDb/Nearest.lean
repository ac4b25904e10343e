import Vraft.VectorDb.Results

/-!
# Searching all partitions at once

The nearest of all vectors are among the nearest of every partition.  But what the
partitions find is sorted by distance whatever the distance means, and of inner products
the smallest are kept.
-/

namespace Vraft.VectorDb

open Raw Std

namespace Searcher

variable {D : Type} [LinearOrder D] {annoy : Annoy D} {sorting : Sorting D} {s : Searcher}
  {e : VdbEngine} {map : VectorMap} {t : Table} {type : DistanceType}
  {query : List Float32Bits} {limit : Int32} {beyond : Memory}

/-- All keys of a table with their values, in some order. -/
structure Lists (map : VectorMap) (table : Bytes) (contents : List (Bytes × VecValue)) : Prop where
  nodup : contents.Nodup
  mem_iff : ∀ key vv, (key, vv) ∈ contents ↔ map.values table key = some vv

/-- Everything that is stored, as results. -/
def allResults (annoy : Annoy D) (type : DistanceType) (query : List Float32Bits)
    (contents : List (Bytes × VecValue)) : List (VecResult D) :=
  contents.map fun stored =>
    ⟨stored.1, stored.2.attachValue, annoy.distance type stored.2.vec query⟩

/-- The partitions together hold everything. -/
theorem perm_allResults (annoy : Annoy D) (type : DistanceType) (query : List Float32Bits)
    (refines : e.Refines map) (kept : e.Kept)
    (mem : t ∈ Tables.items e.metadata.tables) {contents : List (Bytes × VecValue)}
    (lists : Lists map t.name contents) {rs : List Replica} (perm : rs.Perm t.replicas) :
    (rs.flatMap fun r => (e.keysOf r).map fun key => resultFor (map.values t.name) key
      (annoy.distance type (vecOf (map.values t.name) key) query)).Perm
      (allResults annoy type query contents) := by
  have keys : (contents.map Prod.fst).Nodup := by
    refine lists.nodup.map_on fun stored mem stored' mem' same => Prod.ext same ?_
    have value := (lists.mem_iff stored.1 stored.2).mp mem
    rw [same, (lists.mem_iff stored'.1 stored'.2).mp mem'] at value
    exact (Option.some.inj value).symm
  have whole : (t.replicas.flatMap e.keysOf).Perm (contents.map Prod.fst) := by
    refine (List.perm_ext_iff_of_nodup (refines.nodup_keys kept mem) keys).mpr fun key => ?_
    rw [refines.mem_keys kept mem, List.mem_map]
    constructor
    · rintro ⟨vv, value⟩
      exact ⟨(key, vv), (lists.mem_iff key vv).mpr value, rfl⟩
    · rintro ⟨⟨key, vv⟩, stored, rfl⟩
      exact ⟨vv, (lists.mem_iff key vv).mp stored⟩
  have results : allResults annoy type query contents = (contents.map Prod.fst).map fun key =>
      resultFor (map.values t.name) key
        (annoy.distance type (vecOf (map.values t.name) key) query) := by
    rw [allResults, List.map_map]
    refine List.map_congr_left fun stored inside => ?_
    rw [Function.comp_apply, resultFor, vecOf, (lists.mem_iff stored.1 stored.2).mp inside]
    rfl
  rw [results, ← List.map_flatMap]
  exact ((perm.flatMap_right _).trans whole).map _

/-- Searching an index of the current contents gives the nearest of all if and only if
what is found can be read, and for inner products nothing is nearer than something else
that was found. -/
theorem getKNN_nearest_iff (follows : VdbEngine.Follows VdbEngine.Routable s.engine map)
    (mem : t ∈ Tables.items s.engine.metadata.tables)
    (built : s.BuiltAt s.engine t type (dimOf query)) (positive : 0 < times limit)
    {contents : List (Bytes × VecValue)} (lists : Lists map t.name contents) :
    (∃ results, s.getKNN annoy sorting t.name query limit beyond = .ok (0, some results) ∧
      IsNearest type VecResult.distance (times limit) (allResults annoy type query contents)
        results) ↔
      (∀ r ∈ t.replicas, ∀ entry ∈ s.found annoy query limit r,
        Legible (s.engine.keysOf r) entry.1) ∧
        (type = .innerProduct → ∀ r ∈ t.replicas, ∀ entry ∈ s.found annoy query limit r,
          ∀ r' ∈ t.replicas, ∀ entry' ∈ s.found annoy query limit r', entry.2 = entry'.2) := by
  have refines := VdbEngine.refines_of_follows follows
  have kept := VdbEngine.kept_of_follows follows
  have readable : (∀ r ∈ t.replicas, ∀ entry ∈ s.found annoy query limit r,
      Readable (s.engine.keysOf r) (map.values t.name) entry.1) ↔
        ∀ r ∈ t.replicas, ∀ entry ∈ s.found annoy query limit r,
          Legible (s.engine.keysOf r) entry.1 := by
    refine forall₂_congr fun r inside => forall₂_congr fun entry _ => ⟨Readable.toLegible, ?_⟩
    refine fun legible => ⟨legible, fun key at_ missing => ?_⟩
    obtain ⟨p, has⟩ := has_of_mem_replicas mem inside
    obtain ⟨-, vv, -, value, -⟩ := refines.stored kept has (List.mem_of_getElem? at_)
    rw [missing] at value
    contradiction
  obtain ⟨rs, perm, searched⟩ :=
    getKNN_iff annoy sorting beyond refines kept mem refines mem built positive
  simp only [searched, readable]
  generalize whole_eq : sorting.sort (rs.flatMap fun r => sorting.sort
    ((s.found annoy query limit r).map
      (resultOf (s.engine.keysOf r) (map.values t.name)))) = whole
  have whole_perm : whole.Perm (rs.flatMap fun r => (s.found annoy query limit r).map
      (resultOf (s.engine.keysOf r) (map.values t.name))) := by
    rw [← whole_eq]
    exact (sorting.perm _).trans (List.Perm.flatMap_left rs fun r _ => sorting.perm _)
  have each : ∀ r ∈ rs, IsNearest type VecResult.distance (times limit)
      ((s.engine.keysOf r).map fun key => resultFor (map.values t.name) key
        (annoy.distance type (vecOf (map.values t.name) key) query))
      ((s.found annoy query limit r).map
        (resultOf (s.engine.keysOf r) (map.values t.name))) := by
    intro r inside
    obtain ⟨index, newest, rfl, -, indexed⟩ :=
      indexOf refines kept mem built (perm.mem_iff.mp inside)
    rw [found_eq newest]
    exact nearest_byVector indexed query (times limit)
  have merged := IsNearest.merge_iff each whole_perm (whole_eq ▸ sorting.ordered _) positive
  have all := perm_allResults annoy type query refines kept mem lists perm
  have equal : (∀ a ∈ whole, ∀ b ∈ whole, a.distance = b.distance) ↔
      ∀ r ∈ t.replicas, ∀ entry ∈ s.found annoy query limit r,
        ∀ r' ∈ t.replicas, ∀ entry' ∈ s.found annoy query limit r', entry.2 = entry'.2 := by
    simp only [whole_perm.mem_iff, List.mem_flatMap, List.mem_map, perm.mem_iff]
    constructor
    · intro same r inside entry mem r' inside' entry' mem'
      exact same _ ⟨r, inside, entry, mem, rfl⟩ _ ⟨r', inside', entry', mem', rfl⟩
    · rintro same _ ⟨r, inside, entry, mem, rfl⟩ _ ⟨r', inside', entry', mem', rfl⟩
      exact same r inside entry mem r' inside' entry' mem'
  rw [equal] at merged
  constructor
  · rintro ⟨results, ⟨legible, same⟩, nearest⟩
    obtain rfl := Option.some.inj (Prod.mk.inj same).2
    exact ⟨legible, merged.mp (nearest.of_perm all.symm)⟩
  · rintro ⟨legible, same⟩
    exact ⟨_, ⟨legible, rfl⟩, (merged.mpr same).of_perm all⟩

/-! ## One component -/

/-- Distances of the vectors 1 and 2 from the vector 1, as the bits of a `float`. -/
def unitDistance : DistanceType → List Float32Bits → List Float32Bits → ℕ
  | .innerProduct, vec, _ => (vec.headD 0).toNat
  | .cosine, _, _ => 0
  | .euclidean, vec, _ => if vec = [0x3F800000] then 0 else 0x3F800000

/-- A vector of one component. -/
def one : VecValue := ⟨[0x3F800000], [97]⟩

/-- A vector of twice that component. -/
def two : VecValue := ⟨[0x40000000], [98]⟩

/-- An index of vectors of one component. -/
def indexParam (type : DistanceType) : AddIndexParam := ⟨1, 1, .annoy, type, 10⟩

/-- What holds after an index has been added to a table with keys that are no numbers. -/
def AfterIndex (type : DistanceType) (post : Searcher → Prop) (e : VdbEngine) : Prop :=
  (∃ t ∈ Tables.items e.metadata.tables, t.name = [116] ∧
    ∀ r ∈ t.replicas, ∀ key ∈ e.keysOf r, key ≠ [] ∧ key.length ≠ 4) ∧
    Meets (addIndex ⟨e, ∅⟩ [116] (indexParam type) fun _ => 0) post fun _ => False

instance (type : DistanceType) (post : Searcher → Prop) [DecidablePred post] (e : VdbEngine) :
    Decidable (AfterIndex type post e) :=
  inferInstanceAs (Decidable (_ ∧ _))

/-- What is found by the vector 1. -/
def FindsOne (limit : Int32) (results : List (VecResult ℕ)) (s : Searcher) : Prop :=
  s.getKNN (Annoy.exact unitDistance) Sorting.exact [116] one.vec limit (fun _ => 0) =
    .ok (0, some results)

/-- What is found by its key. -/
def FindsKey (limit : Int32) (results : List (VecResult ℕ)) (s : Searcher) : Prop :=
  s.getKNNByKey (Annoy.exact unitDistance) Sorting.exact [116] [97] limit (fun _ => 0) =
    .ok (0, some results)

instance (limit : Int32) (results : List (VecResult ℕ)) (s : Searcher) :
    Decidable (FindsOne limit results s) :=
  inferInstanceAs (Decidable (_ = _))

instance (limit : Int32) (results : List (VecResult ℕ)) (s : Searcher) :
    Decidable (FindsKey limit results s) :=
  inferInstanceAs (Decidable (_ = _))

/-- Two partitions with a key each. -/
theorem found_two :
    Meets ((VdbEngine.fresh [47]).step (.addTable ⟨[116], 2, 1, 1⟩ [[116]]))
      (fun e => Meets (e.step (.put [116] [97] one))
        (fun e => Meets (e.step (.put [116] [100] two))
          (fun e => AfterIndex .innerProduct (FindsOne 1 [⟨[97], [97], 0x3F800000⟩]) e ∧
            AfterIndex .euclidean (fun s =>
              (FindsOne 1 [⟨[97], [97], 0⟩] s ∧ FindsKey 1 [⟨[97], [97], 0⟩] s) ∧
                FindsOne 2 [⟨[97], [97], 0⟩, ⟨[100], [98], 0x3F800000⟩] s ∧
                  FindsKey 2 [⟨[97], [97], 0⟩] s) e) fun _ => False)
        fun _ => False)
      fun _ => False := by
  decide +kernel

/-- The map after both keys have been put. -/
def twoKeys : VectorMap :=
  ((VectorMap.empty.step (.addTable ⟨[116], 2, 1, 1⟩ [[116]])).step
    (.put [116] [97] one)).step (.put [116] [100] two)

theorem lists_twoKeys : Lists twoKeys [116] [([97], one), ([100], two)] := by
  refine ⟨by decide, fun key vv => ?_⟩
  have values : twoKeys.values [116] key =
      if key = [100] then some two else if key = [97] then some one else none := by
    simp [twoKeys, VectorMap.step, VectorMap.put, VectorMap.addTable, VectorMap.empty,
      VectorMap.set, one, two, dimOf]
  rw [values]
  split_ifs with last first
  · subst last
    simp [eq_comm]
  · subst first
    simp [eq_comm]
  · simp [last, first]

/-- The engine with both keys, and what is found in it. -/
theorem follows_twoKeys : ∃ e, VdbEngine.Follows VdbEngine.Routable e twoKeys ∧
    AfterIndex .innerProduct (FindsOne 1 [⟨[97], [97], 0x3F800000⟩]) e ∧
      AfterIndex .euclidean (fun s =>
        (FindsOne 1 [⟨[97], [97], 0⟩] s ∧ FindsKey 1 [⟨[97], [97], 0⟩] s) ∧
          FindsOne 2 [⟨[97], [97], 0⟩, ⟨[100], [98], 0x3F800000⟩] s ∧
            FindsKey 2 [⟨[97], [97], 0⟩] s) e := by
  obtain ⟨e, added, rest⟩ := found_two.exists_ok
  obtain ⟨e', first, rest⟩ := rest.exists_ok
  obtain ⟨e'', second, finds⟩ := rest.exists_ok
  have table : VdbEngine.Routable (.fresh [47]) (.addTable ⟨[116], 2, 1, 1⟩ [[116]]) := fun _ => by
    decide +kernel
  have start := (VdbEngine.Follows.fresh [47]).step
    (fun _ => by simp [VdbEngine.fresh, Metadata.fresh, VdbEngine.tableParam]) table added
  have follows := (start.step (by exact trivial) (by exact trivial) first).step (by exact trivial)
    (by exact trivial) second
  exact ⟨e'', follows, finds⟩

/-- What has been added is an index of both keys. -/
theorem built_of_afterIndex {e : VdbEngine} {post : Searcher → Prop}
    (follows : VdbEngine.Follows VdbEngine.Routable e twoKeys) (after : AfterIndex type post e) :
    ∃ s : Searcher, s.engine = e ∧ ∃ t ∈ Tables.items e.metadata.tables, t.name = [116] ∧
      s.BuiltAt e t type (dimOf one.vec) ∧ (∀ r ∈ t.replicas, ∀ i, Legible (e.keysOf r) i) ∧
        post s := by
  obtain ⟨⟨t, mem, name, length⟩, searched⟩ := after
  obtain ⟨s, indexed, found⟩ := searched.exists_ok
  have consistent := (VdbEngine.refines_of_follows follows).consistent
  rw [← name] at indexed
  have newer (path : Bytes) (timestamp : UInt64)
      (there : (Searcher.mk e ∅).indexAt path timestamp ≠ none) :
      timestamp < (indexParam type).timestamp := absurd rfl there
  obtain ⟨engine, built⟩ := builtAt_of_addIndex consistent mem newer indexed
  exact ⟨s, engine, t, mem, name, built, fun r inside => legible_of_length (length r inside), found⟩

theorem getKNN_nearest_two : ∃ (s : Searcher) (map : VectorMap) (t : Table),
    VdbEngine.Follows VdbEngine.Routable s.engine map ∧
      t ∈ Tables.items s.engine.metadata.tables ∧ ∃ results,
        s.getKNN (Annoy.exact unitDistance) Sorting.exact t.name one.vec 1 (fun _ => 0) =
          .ok (0, some results) ∧
          IsNearest .euclidean VecResult.distance 1 (allResults (Annoy.exact unitDistance)
            .euclidean one.vec [([97], one), ([100], two)]) results := by
  obtain ⟨e, follows, -, after⟩ := follows_twoKeys
  obtain ⟨s, rfl, t, mem, name, built, legible, -⟩ := built_of_afterIndex follows after
  have lists := lists_twoKeys
  rw [← name] at lists
  exact ⟨s, twoKeys, t, follows, mem,
    (getKNN_nearest_iff follows mem built (by decide) lists).mpr
      ⟨fun r inside entry _ => legible r inside entry.1, nofun⟩⟩

theorem not_nearest : ¬∀ (s : Searcher) map, VdbEngine.Follows VdbEngine.Routable s.engine map →
    ∀ t ∈ Tables.items s.engine.metadata.tables, ∀ type query,
      s.BuiltAt s.engine t type (dimOf query) → ∀ (annoy : Annoy ℕ) (sorting : Sorting ℕ) limit
        beyond contents, 0 < times limit → Lists map t.name contents →
          ∃ results, s.getKNN annoy sorting t.name query limit beyond = .ok (0, some results) ∧
            IsNearest type VecResult.distance (times limit) (allResults annoy type query contents)
              results := by
  intro nearest
  obtain ⟨e, follows, after, -⟩ := follows_twoKeys
  obtain ⟨s, rfl, t, mem, name, built, -, lost⟩ := built_of_afterIndex follows after
  have lists := lists_twoKeys
  rw [FindsOne, ← name] at lost
  rw [← name] at lists
  obtain ⟨results, found, best⟩ := nearest s twoKeys follows t mem .innerProduct one.vec built
    (Annoy.exact unitDistance) Sorting.exact 1 (fun _ => 0) _ (by decide) lists
  obtain rfl := Option.some.inj (Prod.mk.inj (Except.ok.inj (lost.symm.trans found))).2
  have nearer : (⟨[100], [98], 0x40000000⟩ : VecResult ℕ) ∈
      allResults (Annoy.exact unitDistance) .innerProduct one.vec [([97], one), ([100], two)] :=
    List.mem_cons_of_mem _ (List.mem_singleton_self _)
  obtain ⟨b, selected, le⟩ := best.exists_le (by decide) nearer
  rw [List.mem_singleton] at selected
  subst selected
  exact absurd le (by decide)

end Searcher

end Vraft.VectorDb
