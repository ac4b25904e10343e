import Vraft.VectorDb.Contents

/-!
# What the partitions hold

A key is stored for the first replica of its partition only.  So the stores of a table
hold different keys, and together they hold what the map says.
-/

namespace Vraft.VectorDb

open Raw Std

namespace VdbEngine

/-- The keys in the store of a replica. -/
def keysOf (e : VdbEngine) (r : Replica) : List Bytes :=
  ((e.disk[r.path]?).map fun store => store.data.keys).getD []

/-- Every key is where it is routed to. -/
def Kept (e : VdbEngine) : Prop :=
  ∀ ⦃t p r⦄, Tables.Has e.metadata.tables t p r → ∀ key ∈ e.keysOf r,
    r.id = 0 ∧ partitionId key t.partitionNum = .ok p.id

section Keys

variable {e : VdbEngine} {r : Replica} {store : Store} {key : Bytes}

theorem keysOf_eq (there : e.disk[r.path]? = some store) : e.keysOf r = store.data.keys := by
  rw [keysOf, there]
  rfl

theorem nodup_keysOf (e : VdbEngine) (r : Replica) : (e.keysOf r).Nodup := by
  rw [keysOf]
  cases e.disk[r.path]? with
  | none => exact List.nodup_nil
  | some store => exact Indexed.nodup_keys store.data

theorem mem_keysOf :
    key ∈ e.keysOf r ↔ ∃ store, e.disk[r.path]? = some store ∧ key ∈ store.data := by
  rw [keysOf]
  cases e.disk[r.path]? with
  | none => simp
  | some store => simp

end Keys

theorem kept_fresh (dataPath : Bytes) : Kept (fresh dataPath) :=
  fun _ _ _ has => absurd has.table List.not_mem_nil

namespace Kept

variable {e e' : VdbEngine} {map : VectorMap} {table key : Bytes} {rv : ℤ}

/-- A key is written to where it is routed to. -/
theorem set (kept : Kept e) (consistent : e.Consistent) {t : Table} {p : Partition} {r : Replica}
    {store : Store} (has : Tables.Has e.metadata.tables t p r) (zero : r.id = 0)
    (selected : partitionId key t.partitionNum = .ok p.id) (there : e.disk[r.path]? = some store)
    {data : Db} (written : ∀ k ∈ data, k = key ∨ k ∈ store.data) :
    Kept { e with disk := e.disk.insert r.path { store with data } } := by
  intro t' p' r' has' k mem
  obtain ⟨store', there', inside⟩ := mem_keysOf.mp mem
  dsimp only at there'
  rw [ExtTreeMap.getElem?_insert] at there'
  split at there'
  · rename_i same
    obtain ⟨rfl, rfl, rfl⟩ := consistent.placed.paths has' has
      (LawfulEqCmp.eq_of_compare same).symm
    obtain rfl := Option.some.inj there'
    rcases written k inside with rfl | earlier
    · exact ⟨zero, selected⟩
    · exact kept has' k (mem_keysOf.mpr ⟨store, there, earlier⟩)
  · exact kept has' k (mem_keysOf.mpr ⟨store', there', inside⟩)

theorem put (kept : Kept e) (refines : Refines e map) {vv : VecValue}
    (done : e.put table key vv = .ok (rv, e')) : Kept e' := by
  obtain ⟨engine, routed, done⟩ := ok_of_bind_ok done
  cases exists_ : map.dims table with
  | none =>
      rw [refines.no_engine exists_ key] at routed
      obtain rfl := Except.ok.inj routed
      obtain ⟨-, rfl⟩ := Prod.mk.inj (Except.ok.inj done)
      exact kept
  | some dim =>
      obtain ⟨t, p, r, store, has, -, zero, selected, engine_eq, there, -⟩ :=
        refines.routed exists_ key
      rw [engine_eq] at routed
      obtain rfl := Except.ok.inj routed
      obtain ⟨⟨rv', disk⟩, written, done⟩ := ok_of_bind_ok done
      obtain ⟨-, rfl⟩ := Prod.mk.inj (Except.ok.inj done)
      obtain ⟨store', found, ⟨-, rfl⟩ | ⟨-, -, rfl⟩⟩ := VEngine.put_eq_ok written
      · exact kept
      · obtain rfl := Option.some.inj (found.symm.trans there)
        refine kept.set refines.consistent has zero selected there fun k inside => ?_
        rw [ExtTreeMap.mem_insert] at inside
        exact inside.imp_left fun same => (LawfulEqCmp.eq_of_compare same).symm

theorem delete (kept : Kept e) (refines : Refines e map)
    (done : e.delete table key = .ok (rv, e')) : Kept e' := by
  obtain ⟨engine, routed, done⟩ := ok_of_bind_ok done
  cases exists_ : map.dims table with
  | none =>
      rw [refines.no_engine exists_ key] at routed
      obtain rfl := Except.ok.inj routed
      obtain ⟨-, rfl⟩ := Prod.mk.inj (Except.ok.inj done)
      exact kept
  | some dim =>
      obtain ⟨t, p, r, store, has, -, zero, selected, engine_eq, there, -⟩ :=
        refines.routed exists_ key
      rw [engine_eq] at routed
      obtain rfl := Except.ok.inj routed
      obtain ⟨⟨rv', disk⟩, written, done⟩ := ok_of_bind_ok done
      obtain ⟨-, rfl⟩ := Prod.mk.inj (Except.ok.inj done)
      obtain ⟨store', found, rfl⟩ := VEngine.delete_eq_ok written
      obtain rfl := Option.some.inj (found.symm.trans there)
      refine kept.set refines.consistent has zero selected there fun k inside => ?_
      exact .inr (ExtTreeMap.mem_of_mem_erase inside)

/-- A new table is empty. -/
theorem addTable (kept : Kept e) (consistent : e.Consistent) {param : AddTableParam}
    {order : List Bytes} (visits : e.Visits (.addTable param order))
    (meets : e.Routable (.addTable param order))
    (done : e.addTable param order = .ok (rv, e')) : Kept e' := by
  have later := consistent.addTable visits meets done
  rcases addTable_eq_ok done with ⟨rfl, -⟩ | ⟨absent, m, rs, added, -, rfl⟩
  · exact kept
  rcases Metadata.addTable_eq_ok added with ⟨-, t, found⟩ | ⟨-, -, tables, -⟩
  · exact absurd (absent.symm.trans found) nofun
  change m.tables = e.metadata.tables.insert param.name _ at tables
  have name : (createTable (e.tableParam param) e.metadata.counters).1.name = param.name := by
    rw [createTable_eq]
    rfl
  generalize (createTable (e.tableParam param) e.metadata.counters).1 = new at tables name
  intro t p r has key mem
  obtain ⟨store, there, inside⟩ := mem_keysOf.mp mem
  change (makeAll rs e.disk)[r.path]? = some store at there
  rw [getElem?_makeAll] at there
  have table := has.table
  change t ∈ Tables.items m.tables at table
  rw [tables] at table
  rcases (mem_items_insert absent).mp table with rfl | earlier
  · have differ : t ∉ Tables.items e.metadata.tables :=
      consistent.not_mem_of_absent (by rw [name]; exact absent)
    rw [consistent.no_store absent later.placed tables differ has, Option.none_or] at there
    obtain ⟨r', -, rfl⟩ := Option.map_eq_some_iff.mp there
    exact absurd inside ExtTreeMap.not_mem_empty
  · have older : Tables.Has e.metadata.tables t p r := ⟨earlier, has.partition, has.replica⟩
    obtain ⟨store', found, -⟩ := consistent.stores older
    rw [found, Option.some_or] at there
    obtain rfl := Option.some.inj there
    exact kept older key (mem_keysOf.mpr ⟨store', found, inside⟩)

theorem step (kept : Kept e) (refines : Refines e map) {event : Event} (visits : e.Visits event)
    (meets : e.Routable event) (done : e.step event = .ok e') : Kept e' := by
  cases event with
  | addTable param order =>
      obtain ⟨⟨rv, after⟩, added, done⟩ := ok_of_bind_ok done
      obtain rfl := Except.ok.inj done
      exact kept.addTable refines.consistent visits meets added
  | put table key vv =>
      obtain ⟨⟨rv, after⟩, written, done⟩ := ok_of_bind_ok done
      obtain rfl := Except.ok.inj done
      exact kept.put refines written
  | get table key beyond =>
      obtain ⟨_, -, done⟩ := ok_of_bind_ok done
      obtain rfl := Except.ok.inj done
      exact kept
  | delete table key =>
      obtain ⟨⟨rv, after⟩, written, done⟩ := ok_of_bind_ok done
      obtain rfl := Except.ok.inj done
      exact kept.delete refines written
  | reopen beyond order =>
      obtain ⟨engines, reopened, -⟩ := refines.consistent.reopen meets visits
      obtain rfl := Except.ok.inj (reopened.symm.trans done)
      exact kept

end Kept

theorem kept_of_follows {e : VdbEngine} {map : VectorMap} (follows : Follows Routable e map) :
    Kept e := by
  induction follows with
  | fresh dataPath => exact kept_fresh dataPath
  | step before visits meets done ih => exact ih.step (refines_of_follows before) visits meets done

/-! ## The partitions of a table -/

section Together

variable {e : VdbEngine} {map : VectorMap} {t : Table} {rs : List Replica}

/-- What is stored for a key of a replica. -/
theorem Refines.stored (refines : Refines e map) (kept : Kept e) {p : Partition} {r : Replica}
    (has : Tables.Has e.metadata.tables t p r) {key : Bytes} (mem : key ∈ e.keysOf r) :
    ∃ store vv, e.disk[r.path]? = some store ∧ map.values t.name key = some vv ∧
      store.data[key]? = some vv.toBytes := by
  obtain ⟨zero, selected⟩ := kept has key mem
  obtain ⟨store, there, inside⟩ := mem_keysOf.mp mem
  have value := refines.values has zero key selected store there
  rw [ExtTreeMap.getElem?_eq_some_getElem inside, eq_comm, Option.map_eq_some_iff] at value
  obtain ⟨vv, found, bytes⟩ := value
  refine ⟨store, vv, there, found, ?_⟩
  rw [ExtTreeMap.getElem?_eq_some_getElem inside, bytes]

/-- The stores of a table hold the keys of the map. -/
theorem Refines.mem_keys (refines : Refines e map) (kept : Kept e)
    (mem : t ∈ Tables.items e.metadata.tables) {key : Bytes} :
    key ∈ t.replicas.flatMap e.keysOf ↔ ∃ vv, map.values t.name key = some vv := by
  rw [List.mem_flatMap]
  constructor
  · rintro ⟨r, replica, inside⟩
    obtain ⟨p, partition, within⟩ := List.mem_flatMap.mp replica
    obtain ⟨-, vv, -, found, -⟩ := refines.stored kept ⟨mem, partition, within⟩ inside
    exact ⟨vv, found⟩
  · rintro ⟨vv, found⟩
    obtain ⟨p, r, has, selected, -, -, zero, -⟩ := refines.consistent.routed t mem key
    obtain ⟨store, there, -⟩ := refines.consistent.stores has
    have value := refines.values has zero key selected store there
    rw [found, Option.map_some] at value
    refine ⟨r, List.mem_flatMap.mpr ⟨p, has.partition, has.replica⟩, mem_keysOf.mpr ⟨store, there, ?_⟩⟩
    rw [ExtTreeMap.mem_iff_isSome_getElem?, value]
    rfl

/-- No two replicas of a table hold the same key. -/
theorem Refines.eq_of_mem_keysOf (refines : Refines e map) (kept : Kept e) {p p' : Partition}
    {r r' : Replica} (has : Tables.Has e.metadata.tables t p r)
    (has' : Tables.Has e.metadata.tables t p' r') {key : Bytes} (mem : key ∈ e.keysOf r)
    (mem' : key ∈ e.keysOf r') : r = r' := by
  obtain ⟨zero, selected⟩ := kept has key mem
  obtain ⟨zero', selected'⟩ := kept has' key mem'
  have number : p.id = p'.id := Except.ok.inj (selected.symm.trans selected')
  exact (has.eq refines.consistent.sound.made has' ⟨rfl, number, zero.trans zero'.symm⟩).2

theorem Consistent.nodup_replicas (consistent : e.Consistent)
    (mem : t ∈ Tables.items e.metadata.tables) : t.replicas.Nodup := by
  have nodup := Tables.nodup_replicas consistent.sound.made fun has has' same => by
    obtain ⟨table, partition, -⟩ := consistent.placed.paths has has' (congrArg Replica.path same)
    exact ⟨table, partition⟩
  exact (List.nodup_flatMap.mp nodup).1 t mem

theorem Refines.nodup_keys (refines : Refines e map) (kept : Kept e)
    (mem : t ∈ Tables.items e.metadata.tables) : (t.replicas.flatMap e.keysOf).Nodup := by
  refine List.nodup_flatMap.mpr ⟨fun r _ => nodup_keysOf e r,
    (refines.consistent.nodup_replicas mem).imp_of_mem ?_⟩
  intro r r' within within' differ
  obtain ⟨p, partition, replica⟩ := List.mem_flatMap.mp within
  obtain ⟨p', partition', replica'⟩ := List.mem_flatMap.mp within'
  refine List.disjoint_left.mpr fun key inside inside' => differ ?_
  exact refines.eq_of_mem_keysOf kept ⟨mem, partition, replica⟩ ⟨mem, partition', replica'⟩ inside
    inside'

end Together

end VdbEngine

end Vraft.VectorDb
