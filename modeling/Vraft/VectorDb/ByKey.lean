import Vraft.VectorDb.Nearest

/-!
# Searching by a key

The vector of a key is known to the index of its own partition only.  The other
partitions do not find the key, which is not looked at, so their vectors are missing
among the results.
-/

namespace Vraft.VectorDb

open Raw Std

section Index

variable {D : Type} [LinearOrder D] {annoy : Annoy D} {sorting : Sorting D} {index : VindexAnnoy}
  {keys : List Bytes} {vec : Bytes → List Float32Bits} {path key : Bytes} {disk : Disk}
  {beyond : Memory} {value : Bytes → Option VecValue} {limit : Int32}

/-- What an index finds by a key, which it may not have. -/
def foundIn (annoy : Annoy D) (index : VindexAnnoy) (keys : List Bytes) (key : Bytes)
    (limit : Int32) : List (ℕ × D) :=
  if key ∈ keys then
    annoy.byItem index.param.distanceType index.vectors (keys.idxOf key) (times limit)
  else []

theorem nearest_byItem (annoy : Annoy D) (limit : Int32) (indexOf : IndexOf index keys vec)
    (mem : key ∈ keys) :
    IsNearest index.param.distanceType Prod.snd (times limit)
      (measured (annoy.distance index.param.distanceType) index.vectors (vec key))
      (foundIn annoy index keys key limit) := by
  rw [foundIn, if_pos mem]
  refine annoy.byItem_nearest _ _ _ _ _ ?_
  rw [indexOf.vectors, List.getElem?_map, List.getElem?_idxOf mem, Option.map_some]

theorem lt_of_mem_foundIn (indexOf : IndexOf index keys vec) {entry : ℕ × D}
    (mem : entry ∈ foundIn annoy index keys key limit) : entry.1 < keys.length := by
  by_cases own : key ∈ keys
  · exact lt_of_mem_nearest indexOf (nearest_byItem annoy limit indexOf own) mem
  · rw [foundIn, if_neg own] at mem
    contradiction

/-- The number that is returned is not zero if the key is not known. -/
theorem getKNNByKey_eq_ok_iff (indexOf : IndexOf index keys vec)
    (answers : ∀ key ∈ keys, VEngine.get path key disk beyond = .ok (answerOf value key))
    (plain : ∀ i < keys.length, key = encodeInt32 (Int32.ofNat i) →
      key ∈ keys ∧ i < keys.idxOf key) (positive : 0 < times limit)
    {out : ℤ × List (VecResult D)} :
    index.getKNNByKey annoy sorting key limit path disk beyond = .ok out ↔
      (∀ entry ∈ foundIn annoy index keys key limit, Readable keys value entry.1) ∧
        out = (if key ∈ keys then 0 else -1,
          sorting.sort ((foundIn annoy index keys key limit).map (resultOf keys value))) := by
  rw [VindexAnnoy.getKNNByKey, if_pos positive, indexOf.keyid]
  by_cases mem : key ∈ keys
  · have at_ := List.getElem?_idxOf mem
    have lt := (List.getElem?_eq_some_iff.mp at_).1
    have small := indexOf.small
    have later : ∀ m, keys.idxOf key ≤ m → m < keys.length → key ≠ encodeInt32 (Int32.ofNat m) :=
      fun m le lt same => absurd (plain m lt same).2 (Nat.not_lt.mpr le)
    rw [getKey_number (getElem?_key indexOf.nodup indexOf.small at_ later)]
    dsimp only
    rw [toInt_ofNat (by omega), Int.toNat_natCast, if_pos mem]
    have prepared := @prepared_eq_ok_iff _ _ _ _ _ _ _ _ _ sorting indexOf answers
      (foundIn annoy index keys key limit) (fun _ => lt_of_mem_foundIn indexOf) out
    rw [← prepared, foundIn, if_pos mem]
  · have nothing : sorting.sort ([] : List (VecResult D)) = [] :=
      List.perm_nil.mp (sorting.perm [])
    have other : ∀ m < keys.length, key ≠ encodeInt32 (Int32.ofNat m) :=
      fun m lt same => mem (plain m lt same).1
    rw [KeyidMeta.getKey, getElem?_no_key mem other, foundIn, if_neg mem, if_neg mem, List.map_nil,
      nothing]
    dsimp only
    rw [Except.ok.injEq, eq_comm, iff_and_self]
    intro _ entry found
    cases found

end Index

namespace Searcher

variable {D : Type} [LinearOrder D] {annoy : Annoy D} {sorting : Sorting D} {s : Searcher}
  {e : VdbEngine} {map map' : VectorMap} {t : Table} {type : DistanceType} {dim : Int32}
  {key : Bytes} {limit : Int32} {beyond : Memory}

/-- What the newest index of a replica finds by a key. -/
def foundByKey (annoy : Annoy D) (s : Searcher) (e : VdbEngine) (key : Bytes) (limit : Int32)
    (r : Replica) : List (ℕ × D) :=
  (s.newest r.path).elim [] fun index => foundIn annoy index (e.keysOf r) key limit

theorem foundByKey_eq {r : Replica} {index : VindexAnnoy} (newest : s.newest r.path = some index) :
    s.foundByKey annoy e key limit r = foundIn annoy index (e.keysOf r) key limit := by
  rw [foundByKey, newest]
  rfl

/-- What a table finds by a key. -/
theorem getKNNByKey_iff (annoy : Annoy D) (sorting : Sorting D) (beyond : Memory)
    (refines : e.Refines map) (kept : e.Kept) (mem : t ∈ Tables.items e.metadata.tables)
    (refines' : s.engine.Refines map') (mem' : t ∈ Tables.items s.engine.metadata.tables)
    (built : s.BuiltAt e t type dim)
    (plain : ∀ r ∈ t.replicas, ∀ i < (e.keysOf r).length, key = encodeInt32 (Int32.ofNat i) →
      key ∈ e.keysOf r ∧ i < (e.keysOf r).idxOf key)
    (positive : 0 < times limit) :
    ∃ rs : List Replica, rs.Perm t.replicas ∧ ∀ out,
      s.getKNNByKey annoy sorting t.name key limit beyond = .ok out ↔
        (∀ r ∈ t.replicas, ∀ entry ∈ s.foundByKey annoy e key limit r,
          Readable (e.keysOf r) (map'.values t.name) entry.1) ∧
          out = (0, some ((sorting.sort (rs.flatMap fun r => sorting.sort
            ((s.foundByKey annoy e key limit r).map
              (resultOf (e.keysOf r) (map'.values t.name))))).take (times limit))) := by
  refine searchTable_eq_ok_iff refines'.consistent mem' positive fun r inside out => ?_
  obtain ⟨index, newest, -, -, indexed⟩ := indexOf refines kept mem built inside
  rw [foundByKey_eq newest]
  exact askReplica_eq_ok_iff refines'.consistent mem' inside newest
    (fun _ => getKNNByKey_eq_ok_iff indexed
      (fun _ stored => answers kept mem refines' mem' inside stored) (plain r inside) positive) out

/-- The same results, up to others with the same distances. -/
def SameUpToTies (results results' : List (VecResult D)) : Prop :=
  (results.map VecResult.distance).Perm (results'.map VecResult.distance)

section Parts

variable {r : Replica} {rs : List Replica} {k : ℕ} {results : Replica → List (VecResult D)}

/-- The replicas besides one of them. -/
theorem exists_others (nodup : t.replicas.Nodup) (inside : r ∈ t.replicas) :
    ∃ others : List Replica, (r :: others).Perm t.replicas ∧
      ∀ r', r' ∈ others ↔ r' ∈ t.replicas ∧ r' ≠ r := by
  obtain ⟨front, back, split⟩ := List.append_of_mem inside
  have perm : (r :: (front ++ back)).Perm t.replicas := by
    rw [split]
    exact List.perm_middle.symm
  refine ⟨front ++ back, perm, fun r' => ?_⟩
  have absent := (List.nodup_cons.mp (perm.nodup_iff.mpr nodup)).1
  rw [← perm.mem_iff, List.mem_cons]
  constructor
  · intro mem
    refine ⟨.inr mem, ?_⟩
    rintro rfl
    exact absent mem
  · rintro ⟨rfl | mem, other⟩
    · exact absurd rfl other
    · exact mem

/-- What is sorted is the part of one replica and the parts of the others. -/
theorem perm_sorted (sorting : Sorting D) (results : Replica → List (VecResult D))
    {others : List Replica} (split : (r :: others).Perm t.replicas)
    (perm : rs.Perm t.replicas) :
    (sorting.sort (rs.flatMap fun r => sorting.sort (results r))).Perm
      (results r ++ others.flatMap results) := by
  have unsorted : (rs.flatMap fun r => sorting.sort (results r)).Perm (rs.flatMap results) :=
    List.Perm.flatMap_left rs fun r _ => sorting.perm _
  have parted : (rs.flatMap results).Perm ((r :: others).flatMap results) :=
    (perm.trans split.symm).flatMap_right _
  exact (sorting.perm _).trans (unsorted.trans parted)

/-- The front of all parts has the distances of one of them. -/
theorem sameUpToTies_iff (sorting : Sorting D) {own : List (VecResult D)} {others : List Replica}
    (split : (r :: others).Perm t.replicas) (perm : rs.Perm t.replicas)
    (same : SameUpToTies own (results r)) (few : (results r).length ≤ k) :
    SameUpToTies own
      ((sorting.sort (rs.flatMap fun r => sorting.sort (results r))).take k) ↔
      others.flatMap results = [] ∨ (results r).length = k ∧
        ∀ a ∈ results r, ∀ b ∈ others.flatMap results, a.distance ≤ b.distance := by
  have least : Least VecResult.distance k (results r ++ others.flatMap results) _ :=
    Least.of_ordered (perm_sorted sorting results split perm) (sorting.ordered _)
  rw [← least.map_perm_iff few]
  exact ⟨fun found => found.symm.trans same, fun found => same.trans found.symm⟩

end Parts

/-- In the partition of a key, the key and its vector find the same distances. -/
theorem map_found_eq (annoy : Annoy D) (limit : Int32) (refines : e.Refines map) (kept : e.Kept)
    (mem : t ∈ Tables.items e.metadata.tables) (built : s.BuiltAt e t type dim) {r : Replica}
    (inside : r ∈ t.replicas) (own : key ∈ e.keysOf r) {vv : VecValue}
    (stored : map.values t.name key = some vv) :
    (s.foundByKey annoy e key limit r).map Prod.snd =
      (s.found annoy vv.vec limit r).map Prod.snd ∧
        (s.found annoy vv.vec limit r).length ≤ times limit := by
  obtain ⟨index, newest, -, -, indexed⟩ := indexOf refines kept mem built inside
  have nearest := nearest_byItem annoy limit indexed own
  have same : vecOf (map.values t.name) key = vv.vec := by
    rw [vecOf, stored]
    rfl
  rw [same] at nearest
  rw [foundByKey_eq newest, found_eq newest]
  have byVector := annoy.byVector_nearest index.param.distanceType index.vectors vv.vec
    (times limit)
  exact ⟨nearest.map_eq byVector, byVector.length_le⟩

/-- The other partitions do not find the key. -/
theorem foundByKey_other (annoy : Annoy D) (limit : Int32) (refines : e.Refines map)
    (kept : e.Kept) (mem : t ∈ Tables.items e.metadata.tables) {r r' : Replica}
    (inside : r ∈ t.replicas) (inside' : r' ∈ t.replicas) (own : key ∈ e.keysOf r)
    (other : r' ≠ r) : s.foundByKey annoy e key limit r' = [] := by
  have absent : key ∉ e.keysOf r' := by
    intro there
    obtain ⟨p, has⟩ := has_of_mem_replicas mem inside
    obtain ⟨p', has'⟩ := has_of_mem_replicas mem inside'
    exact other (refines.eq_of_mem_keysOf kept has' has there own)
  rw [foundByKey]
  cases s.newest r'.path with
  | none => rfl
  | some index => exact if_neg absent

/-- Searching by a key finds the same as searching by its vector if and only if what is
found can be read, and the other partitions have nothing to add: they are empty, or the own
partition has enough vectors, all of which are sorted before theirs.  The key is not
spelled like a number, save one that its own partition has given before it. -/
theorem sameSearch_iff (follows : VdbEngine.Follows VdbEngine.Routable e map)
    (later : VdbEngine.Steps VdbEngine.Routable e s.engine)
    (follows' : VdbEngine.Follows VdbEngine.Routable s.engine map')
    (mem : t ∈ Tables.items e.metadata.tables) {vv : VecValue}
    (built : s.BuiltAt e t type (dimOf vv.vec)) (stored : map.values t.name key = some vv)
    {r : Replica} (inside : r ∈ t.replicas) (own : key ∈ e.keysOf r)
    (plain : ∀ r' ∈ t.replicas, ∀ i < (e.keysOf r').length, key = encodeInt32 (Int32.ofNat i) →
      key ∈ e.keysOf r' ∧ i < (e.keysOf r').idxOf key)
    (positive : 0 < times limit) :
    (∃ byKey byVector,
      s.getKNNByKey annoy sorting t.name key limit beyond = .ok (0, some byKey) ∧
        s.getKNN annoy sorting t.name vv.vec limit beyond = .ok (0, some byVector) ∧
          SameUpToTies byKey byVector) ↔
      ((∀ r' ∈ t.replicas, ∀ entry ∈ s.foundByKey annoy e key limit r',
        Readable (e.keysOf r') (map'.values t.name) entry.1) ∧
        ∀ r' ∈ t.replicas, ∀ entry ∈ s.found annoy vv.vec limit r',
          Readable (e.keysOf r') (map'.values t.name) entry.1) ∧
        ((∀ r' ∈ t.replicas, r' ≠ r → s.found annoy vv.vec limit r' = []) ∨
          (s.found annoy vv.vec limit r).length = times limit ∧
            ∀ a ∈ s.found annoy vv.vec limit r, ∀ r' ∈ t.replicas, r' ≠ r →
              ∀ b ∈ s.found annoy vv.vec limit r', a.2 ≤ b.2) := by
  have refines := VdbEngine.refines_of_follows follows
  have refines' := VdbEngine.refines_of_follows follows'
  have kept := VdbEngine.kept_of_follows follows
  have mem' := (VdbEngine.consistent_of_steps refines.consistent later).2 t mem
  obtain ⟨rs, perm, byKey⟩ := getKNNByKey_iff annoy sorting beyond refines kept mem refines' mem'
    built plain positive
  obtain ⟨rs', perm', byVector⟩ :=
    getKNN_iff annoy sorting beyond refines kept mem refines' mem' built positive
  obtain ⟨distances, few⟩ := map_found_eq annoy limit refines kept mem built inside own stored
  obtain ⟨others, split, mem_others⟩ :=
    exists_others (refines.consistent.nodup_replicas mem) inside
  let results := fun r' => (s.found annoy vv.vec limit r').map
    (resultOf (e.keysOf r') (map'.values t.name))
  let own_results := fun r' => (s.foundByKey annoy e key limit r').map
    (resultOf (e.keysOf r') (map'.values t.name))
  have alone : (sorting.sort (rs.flatMap fun r => sorting.sort (own_results r))).Perm
      (own_results r) := by
    have nothing : others.flatMap own_results = [] := by
      refine List.flatMap_eq_nil_iff.mpr fun r' there => ?_
      obtain ⟨inside', other⟩ := (mem_others r').mp there
      exact List.map_eq_nil_iff.mpr
        (foundByKey_other annoy limit refines kept mem inside inside' own other)
    have perm := perm_sorted sorting own_results split perm
    rwa [nothing, List.append_nil] at perm
  have short : (results r).length ≤ times limit := by
    rw [List.length_map]
    exact few
  have same : SameUpToTies
      ((sorting.sort (rs.flatMap fun r => sorting.sort (own_results r))).take (times limit))
      (results r) := by
    have length := congrArg List.length distances
    rw [List.length_map, List.length_map] at length
    have whole := alone.length_eq
    rw [List.length_map, length] at whole
    rw [List.take_of_length_le (whole.trans_le few), SameUpToTies, map_distance_resultOf,
      ← distances, ← map_distance_resultOf]
    exact alone.map _
  have merged := sameUpToTies_iff sorting split perm' same short
  have condition : (others.flatMap results = [] ∨ (results r).length = times limit ∧
      ∀ a ∈ results r, ∀ b ∈ others.flatMap results, a.distance ≤ b.distance) ↔
      ((∀ r' ∈ t.replicas, r' ≠ r → s.found annoy vv.vec limit r' = []) ∨
        (s.found annoy vv.vec limit r).length = times limit ∧
          ∀ a ∈ s.found annoy vv.vec limit r, ∀ r' ∈ t.replicas, r' ≠ r →
            ∀ b ∈ s.found annoy vv.vec limit r', a.2 ≤ b.2) := by
    refine or_congr ?_ (and_congr (by rw [List.length_map]) ?_)
    · simp only [results, List.flatMap_eq_nil_iff, List.map_eq_nil_iff, mem_others, and_imp]
    · simp only [results, List.mem_flatMap, List.mem_map, mem_others]
      constructor
      · intro below a mem r' there other b mem'
        exact below _ ⟨a, mem, rfl⟩ _ ⟨r', ⟨there, other⟩, b, mem', rfl⟩
      · rintro below _ ⟨a, mem, rfl⟩ _ ⟨r', ⟨there, other⟩, b, mem', rfl⟩
        exact below a mem r' there other b mem'
  rw [condition] at merged
  constructor
  · rintro ⟨_, _, found, found', ties⟩
    obtain ⟨readable, out⟩ := (byKey _).mp found
    obtain ⟨readable', out'⟩ := (byVector _).mp found'
    obtain rfl := Option.some.inj (Prod.mk.inj out).2
    obtain rfl := Option.some.inj (Prod.mk.inj out').2
    exact ⟨⟨readable, readable'⟩, merged.mp ties⟩
  · rintro ⟨⟨readable, readable'⟩, nearest⟩
    exact ⟨_, _, (byKey _).mpr ⟨readable, rfl⟩, (byVector _).mpr ⟨readable', rfl⟩,
      merged.mpr nearest⟩

/-- One of two vectors is searched for: the nearest is found either way. -/
theorem sameSearch_two : ∃ (s : Searcher) (t : Table) (r : Replica), r ∈ t.replicas ∧
    [97] ∈ s.engine.keysOf r ∧
      s.getKNNByKey (Annoy.exact unitDistance) Sorting.exact t.name [97] 1 (fun _ => 0) =
        .ok (0, some [⟨[97], [97], 0⟩]) ∧
        ((∀ r' ∈ t.replicas, r' ≠ r → s.found (Annoy.exact unitDistance) one.vec 1 r' = []) ∨
          (s.found (Annoy.exact unitDistance) one.vec 1 r).length = 1 ∧
            ∀ a ∈ s.found (Annoy.exact unitDistance) one.vec 1 r, ∀ r' ∈ t.replicas, r' ≠ r →
              ∀ b ∈ s.found (Annoy.exact unitDistance) one.vec 1 r', a.2 ≤ b.2) := by
  obtain ⟨e, follows, -, after⟩ := follows_twoKeys
  obtain ⟨s, rfl, t, mem, name, built, -, ⟨byVector, byKey⟩, -⟩ := built_of_afterIndex follows after
  have stored := (lists_twoKeys.mem_iff [97] one).mp List.mem_cons_self
  rw [FindsOne, ← name] at byVector
  rw [FindsKey, ← name] at byKey
  rw [← name] at stored
  obtain ⟨r, inside, own⟩ := List.mem_flatMap.mp (((VdbEngine.refines_of_follows follows).mem_keys
    (VdbEngine.kept_of_follows follows) mem).mpr ⟨one, stored⟩)
  have condition := (sameSearch_iff follows .none follows mem built stored inside own
    (fun _ _ i _ same => absurd (congrArg List.length same) (by rw [length_encodeInt32]; decide))
      (by decide)).mp ⟨_, _, byKey, byVector, List.Perm.refl _⟩
  exact ⟨s, t, r, inside, own, byKey, condition.2⟩

theorem not_sameSearch : ¬∀ (s : Searcher) map, VdbEngine.Follows VdbEngine.Routable s.engine map →
    ∀ t ∈ Tables.items s.engine.metadata.tables, ∀ type key vv, map.values t.name key = some vv →
      s.BuiltAt s.engine t type (dimOf vv.vec) → ∀ (annoy : Annoy ℕ) (sorting : Sorting ℕ) limit
        beyond, 0 < times limit → ∃ byKey byVector,
          s.getKNNByKey annoy sorting t.name key limit beyond = .ok (0, some byKey) ∧
            s.getKNN annoy sorting t.name vv.vec limit beyond = .ok (0, some byVector) ∧
              SameUpToTies byKey byVector := by
  intro same
  obtain ⟨e, follows, -, after⟩ := follows_twoKeys
  obtain ⟨s, rfl, t, mem, name, built, -, -, byVector, byKey⟩ := built_of_afterIndex follows after
  have stored := (lists_twoKeys.mem_iff [97] one).mp List.mem_cons_self
  rw [FindsOne, ← name] at byVector
  rw [FindsKey, ← name] at byKey
  rw [← name] at stored
  obtain ⟨results, results', found, found', ties⟩ := same s twoKeys follows t mem .euclidean [97] one
    stored built (Annoy.exact unitDistance) Sorting.exact 2 (fun _ => 0) (by decide)
  obtain rfl := Option.some.inj (Prod.mk.inj (Except.ok.inj (byKey.symm.trans found))).2
  obtain rfl := Option.some.inj (Prod.mk.inj (Except.ok.inj (byVector.symm.trans found'))).2
  exact absurd ties.length_eq (by decide)

end Searcher

end Vraft.VectorDb
