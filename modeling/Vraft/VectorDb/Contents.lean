import Vraft.VectorDb.Routing

/-!
# The database as a map

What the database is for: a map from tables and keys to vectors.  The engine answers
like this map in every run in which keys reach the engines created for them.
-/

namespace Vraft.VectorDb

open Raw Std

/-- The dimensions of the tables, and the values of their keys. -/
structure VectorMap where
  dims : Bytes → Option Int32
  values : Bytes → Bytes → Option VecValue

namespace VectorMap

/-- No tables and no values. -/
def empty : VectorMap := ⟨fun _ => none, fun _ _ => none⟩

/-- An existing table stays as it is. -/
def addTable (map : VectorMap) (name : Bytes) (dim : Int32) : VectorMap :=
  { map with dims := fun other =>
      if other = name ∧ map.dims name = none then some dim else map.dims other }

/-- Replace the value of one key of one table. -/
def set (map : VectorMap) (table key : Bytes) (value : Option VecValue) : VectorMap :=
  { map with values := fun other k =>
      if other = table ∧ k = key then value else map.values other k }

/-- Only a vector of the dimension of the table is put. -/
def put (map : VectorMap) (table key : Bytes) (vv : VecValue) : VectorMap :=
  if map.dims table = some (dimOf vv.vec) then map.set table key (some vv) else map

/-- The key has no value any more. -/
def delete (map : VectorMap) (table key : Bytes) : VectorMap :=
  map.set table key none

/-- The number that is returned, and the object that is filled. -/
def answer (map : VectorMap) (table key : Bytes) : ℤ × Option VecObj :=
  match map.dims table with
  | none => (-1, none)
  | some _ =>
      match map.values table key with
      | some vv => (0, some ⟨key, vv⟩)
      | none => (-2, none)

/-- What a request does to the map. -/
def step (map : VectorMap) : VdbEngine.Event → VectorMap
  | .addTable param _ => map.addTable param.name param.dim
  | .put table key vv => map.put table key vv
  | .delete table key => map.delete table key
  | .get .. => map
  | .reopen .. => map

end VectorMap

namespace VdbEngine

/-- The engine and the map after the same steps. -/
inductive Follows (condition : VdbEngine → Event → Prop) : VdbEngine → VectorMap → Prop
  | fresh (dataPath : Bytes) : Follows condition (fresh dataPath) .empty
  | step {e e' : VdbEngine} {map : VectorMap} {event : Event} (before : Follows condition e map)
      (visits : e.Visits event) (meets : condition e event) (done : e.step event = .ok e') :
      Follows condition e' (map.step event)

/-- The stores of first replicas hold what the map says of the keys that are routed to
them. -/
structure Refines (e : VdbEngine) (map : VectorMap) : Prop where
  consistent : e.Consistent
  dims : ∀ name, map.dims name = (e.metadata.tables[name]?).map Table.dim
  absent : ∀ name, map.dims name = none → ∀ key, map.values name key = none
  small : ∀ name key vv, map.values name key = some vv → vv.maxBytes < 2 ^ 31
  values : ∀ {t p r}, Tables.Has e.metadata.tables t p r → r.id = 0 →
    ∀ key, partitionId key t.partitionNum = .ok p.id →
      ∀ store, e.disk[r.path]? = some store →
        store.data[key]? = (map.values t.name key).map VecValue.toBytes

theorem refines_fresh (dataPath : Bytes) : Refines (fresh dataPath) .empty := by
  refine ⟨consistent_fresh dataPath, fun name => by simp [VectorMap.empty, fresh, Metadata.fresh],
    fun _ _ _ => rfl, nofun, fun has => ?_⟩
  exact absurd has.table List.not_mem_nil

namespace Refines

variable {e e' : VdbEngine} {map : VectorMap} {table key : Bytes} {rv : ℤ}

/-- The table and the store a key is routed to. -/
theorem routed (refines : Refines e map) {dim : Int32} (exists_ : map.dims table = some dim)
    (key : Bytes) : ∃ t p r store, Tables.Has e.metadata.tables t p r ∧ t.name = table ∧
      r.id = 0 ∧ partitionId key t.partitionNum = .ok p.id ∧
        e.getVEngine table key = .ok (some r.path) ∧ e.disk[r.path]? = some store ∧
          store.dim = dim := by
  rw [refines.dims, Option.map_eq_some_iff] at exists_
  obtain ⟨t, found, rfl⟩ := exists_
  have name := (refines.consistent.placed.made table t found).1
  have mem : t ∈ Tables.items e.metadata.tables := Tables.mem_items.mpr ⟨table, found⟩
  obtain ⟨p, r, has, selected, -, -, zero, engine, -⟩ := refines.consistent.routed t mem key
  obtain ⟨store, there, dim⟩ := refines.consistent.stores has
  rw [name] at engine
  exact ⟨t, p, r, store, has, name, zero, selected, engine, there, dim⟩

theorem no_engine (refines : Refines e map) (absent : map.dims table = none) (key : Bytes) :
    e.getVEngine table key = .ok none := by
  rw [refines.dims, Option.map_eq_none_iff] at absent
  rw [getVEngine, absent]

/-- The engine answers like the map. -/
theorem get (refines : Refines e map) (table key : Bytes) (beyond : Memory) :
    e.get table key beyond = .ok (map.answer table key) := by
  unfold VdbEngine.get VectorMap.answer
  cases exists_ : map.dims table with
  | none =>
      rw [refines.no_engine exists_ key]
      rfl
  | some dim =>
      obtain ⟨t, p, r, store, has, name, zero, selected, engine, there, -⟩ :=
        refines.routed exists_ key
      have stored := refines.values has zero key selected store there
      rw [name] at stored
      rw [engine, ok_bind]
      dsimp only
      rw [VEngine.get, there]
      dsimp only
      rw [stored]
      cases value : map.values table key with
      | none => rfl
      | some vv =>
          dsimp only [Option.map_some]
          rw [VecValue.fromString_toBytes (refines.small table key vv value)]
          rfl

/-- What is written to the store of a key is the value of this key only. -/
theorem set (refines : Refines e map) {t : Table} {p : Partition} {r : Replica} {store : Store}
    (has : Tables.Has e.metadata.tables t p r) (zero : r.id = 0)
    (selected : partitionId key t.partitionNum = .ok p.id) (there : e.disk[r.path]? = some store)
    {value : Option VecValue} {data : Db} (fits : ∀ vv, value = some vv → vv.maxBytes < 2 ^ 31)
    (written : ∀ k : Bytes, data[k]? =
      if k = key then value.map VecValue.toBytes else store.data[k]?) :
    Refines { e with disk := e.disk.insert r.path { store with data } }
      (map.set t.name key value) := by
  have made := refines.consistent.placed.made
  refine ⟨refines.consistent.of_sameStores (sameStores_insert there data), refines.dims,
    fun name none_there k => ?_, fun name k vv found => ?_,
    fun {t' p' r'} has' zero' k selected' store' there' => ?_⟩
  · have other : name ≠ t.name := by
      rintro rfl
      have found := refines.dims t.name
      rw [made.found has.table] at found
      exact absurd (none_there.symm.trans found) nofun
    show (if name = t.name ∧ k = key then value else map.values name k) = none
    rw [if_neg fun same => other same.1]
    exact refines.absent name none_there k
  · change (if name = t.name ∧ k = key then value else map.values name k) = some vv at found
    split at found
    · exact fits vv found
    · exact refines.small name k vv found
  · change (e.disk.insert r.path { store with data })[r'.path]? = some store' at there'
    show store'.data[k]? = Option.map VecValue.toBytes
      (if t'.name = t.name ∧ k = key then value else map.values t'.name k)
    rw [ExtTreeMap.getElem?_insert] at there'
    split at there'
    · rename_i same
      obtain ⟨rfl, rfl, rfl⟩ := refines.consistent.placed.paths has' has
        (LawfulEqCmp.eq_of_compare same).symm
      obtain rfl := Option.some.inj there'
      rw [written]
      by_cases equal : k = key
      · rw [if_pos equal, if_pos ⟨rfl, equal⟩]
      · rw [if_neg equal, if_neg fun both => equal both.2]
        exact refines.values has' zero' k selected' store there
    · rename_i differ
      rw [if_neg, refines.values has' zero' k selected' store' there']
      rintro ⟨name, rfl⟩
      have table := made.eq_of_name has'.table has.table name
      subst table
      have number : p'.id = p.id := Except.ok.inj (selected'.symm.trans selected)
      obtain ⟨-, rfl⟩ := has'.eq made has ⟨rfl, number, zero'.trans zero.symm⟩
      exact differ ReflCmp.compare_self

theorem put (refines : Refines e map) {vv : VecValue} (done : e.put table key vv = .ok (rv, e')) :
    Refines e' (map.put table key vv) := by
  obtain ⟨engine, routed, done⟩ := ok_of_bind_ok done
  cases exists_ : map.dims table with
  | none =>
      rw [refines.no_engine exists_ key] at routed
      obtain rfl := Except.ok.inj routed
      obtain ⟨-, rfl⟩ := Prod.mk.inj (Except.ok.inj done)
      rw [VectorMap.put, exists_, if_neg nofun]
      exact refines
  | some dim =>
      obtain ⟨t, p, r, store, has, rfl, zero, selected, engine_eq, there, rfl⟩ :=
        refines.routed exists_ key
      rw [engine_eq] at routed
      obtain rfl := Except.ok.inj routed
      obtain ⟨⟨rv', disk⟩, written, done⟩ := ok_of_bind_ok done
      obtain ⟨-, rfl⟩ := Prod.mk.inj (Except.ok.inj done)
      obtain ⟨store', found, outcome⟩ := VEngine.put_eq_ok written
      obtain rfl := Option.some.inj (found.symm.trans there)
      rw [VectorMap.put, exists_]
      rcases outcome with ⟨other, rfl⟩ | ⟨same, fits, rfl⟩
      · rw [if_neg fun equal => other (Option.some.inj equal).symm]
        exact refines
      · rw [if_pos (congrArg some same.symm)]
        refine refines.set has zero selected there ?_ fun k => ?_
        · exact fun _ equal => Option.some.inj equal ▸ fits
        · rw [ExtTreeMap.getElem?_insert]
          by_cases equal : k = key
          · subst equal
            rw [if_pos ReflCmp.compare_self, if_pos rfl]
            rfl
          · rw [if_neg fun same => equal (LawfulEqCmp.eq_of_compare same).symm, if_neg equal]

theorem delete (refines : Refines e map) (done : e.delete table key = .ok (rv, e')) :
    Refines e' (map.delete table key) := by
  obtain ⟨engine, routed, done⟩ := ok_of_bind_ok done
  cases exists_ : map.dims table with
  | none =>
      rw [refines.no_engine exists_ key] at routed
      obtain rfl := Except.ok.inj routed
      obtain ⟨-, rfl⟩ := Prod.mk.inj (Except.ok.inj done)
      have same : map.delete table key = map := by
        refine congrArg (VectorMap.mk map.dims) (funext₂ fun name k => ?_)
        split
        · rename_i here
          rw [here.1]
          exact (refines.absent table exists_ k).symm
        · rfl
      rw [same]
      exact refines
  | some dim =>
      obtain ⟨t, p, r, store, has, rfl, zero, selected, engine_eq, there, -⟩ :=
        refines.routed exists_ key
      rw [engine_eq] at routed
      obtain rfl := Except.ok.inj routed
      obtain ⟨⟨rv', disk⟩, written, done⟩ := ok_of_bind_ok done
      obtain ⟨-, rfl⟩ := Prod.mk.inj (Except.ok.inj done)
      obtain ⟨store', found, rfl⟩ := VEngine.delete_eq_ok written
      obtain rfl := Option.some.inj (found.symm.trans there)
      refine refines.set has zero selected there nofun fun k => ?_
      rw [ExtTreeMap.getElem?_erase]
      by_cases equal : k = key
      · subst equal
        rw [if_pos ReflCmp.compare_self, if_pos rfl]
        rfl
      · rw [if_neg fun same => equal (LawfulEqCmp.eq_of_compare same).symm, if_neg equal]

theorem addTable (refines : Refines e map) {param : AddTableParam} {order : List Bytes}
    (visits : e.Visits (.addTable param order)) (meets : e.Routable (.addTable param order))
    (done : e.addTable param order = .ok (rv, e')) :
    Refines e' (map.addTable param.name param.dim) := by
  have consistent := refines.consistent.addTable visits meets done
  rcases addTable_eq_ok done with ⟨rfl, t, found⟩ | ⟨absent, m, rs, added, -, rfl⟩
  · have exists_ : map.dims param.name ≠ none := by
      rw [refines.dims, found]
      exact nofun
    have same : map.addTable param.name param.dim = map := by
      refine congrArg (VectorMap.mk · map.values) (funext fun name => if_neg ?_)
      exact fun both => exists_ both.2
    rw [same]
    exact refines
  rcases Metadata.addTable_eq_ok added with ⟨-, t, found⟩ | ⟨-, -, tables, -⟩
  · exact absurd (absent.symm.trans found) nofun
  change m.tables = e.metadata.tables.insert param.name _ at tables
  have none_there : map.dims param.name = none := by rw [refines.dims, absent, Option.map_none]
  have new : (createTable (e.tableParam param) e.metadata.counters).1.name = param.name ∧
      (createTable (e.tableParam param) e.metadata.counters).1.dim = param.dim := by
    rw [createTable_eq]
    exact ⟨rfl, rfl⟩
  generalize (createTable (e.tableParam param) e.metadata.counters).1 = table at tables new
  refine ⟨consistent, fun name => ?_, fun name missing key => ?_, refines.small,
    fun {t p r} has zero key selected store there => ?_⟩
  · show (if name = param.name ∧ map.dims param.name = none then some param.dim
      else map.dims name) = (m.tables[name]?).map Table.dim
    rw [tables, ExtTreeMap.getElem?_insert]
    by_cases same : name = param.name
    · subst same
      rw [if_pos ⟨rfl, none_there⟩, if_pos ReflCmp.compare_self, Option.map_some, new.2]
    · rw [if_neg fun both => same both.1,
        if_neg fun equal => same (LawfulEqCmp.eq_of_compare equal).symm, refines.dims]
  · change (if name = param.name ∧ map.dims param.name = none then some param.dim
      else map.dims name) = none at missing
    split at missing
    · contradiction
    · exact refines.absent name missing key
  · have mem := has.table
    change t ∈ Tables.items m.tables at mem
    change (makeAll rs e.disk)[r.path]? = some store at there
    rw [getElem?_makeAll] at there
    rw [tables] at mem
    rcases (mem_items_insert absent).mp mem with rfl | earlier
    · have differ : t ∉ Tables.items e.metadata.tables :=
        refines.consistent.not_mem_of_absent (by rw [new.1]; exact absent)
      rw [refines.consistent.no_store absent consistent.placed tables differ has,
        Option.none_or] at there
      obtain ⟨r', -, rfl⟩ := Option.map_eq_some_iff.mp there
      show (∅ : Db)[key]? = (map.values t.name key).map VecValue.toBytes
      rw [new.1, refines.absent param.name none_there key]
      exact ExtTreeMap.getElem?_empty
    · have older : Tables.Has e.metadata.tables t p r := ⟨earlier, has.partition, has.replica⟩
      obtain ⟨store', found, -⟩ := refines.consistent.stores older
      rw [found, Option.some_or] at there
      obtain rfl := Option.some.inj there
      exact refines.values older zero key selected store' found

theorem step (refines : Refines e map) {event : Event} (visits : e.Visits event)
    (meets : e.Routable event) (done : e.step event = .ok e') : Refines e' (map.step event) := by
  cases event with
  | addTable param order =>
      obtain ⟨⟨rv, after⟩, added, done⟩ := ok_of_bind_ok done
      obtain rfl := Except.ok.inj done
      exact refines.addTable visits meets added
  | put table key vv =>
      obtain ⟨⟨rv, after⟩, written, done⟩ := ok_of_bind_ok done
      obtain rfl := Except.ok.inj done
      exact refines.put written
  | get table key beyond =>
      obtain ⟨_, -, done⟩ := ok_of_bind_ok done
      obtain rfl := Except.ok.inj done
      exact refines
  | delete table key =>
      obtain ⟨⟨rv, after⟩, written, done⟩ := ok_of_bind_ok done
      obtain rfl := Except.ok.inj done
      exact refines.delete written
  | reopen beyond order =>
      obtain ⟨engines, reopened, -⟩ := refines.consistent.reopen meets visits
      have consistent := refines.consistent.step visits meets done
      obtain rfl := Except.ok.inj (reopened.symm.trans done)
      exact ⟨consistent, refines.dims, refines.absent, refines.small, refines.values⟩

end Refines

/-! ## Runs -/

theorem refines_of_follows {e : VdbEngine} {map : VectorMap} (follows : Follows Routable e map) :
    Refines e map := by
  induction follows with
  | fresh dataPath => exact refines_fresh dataPath
  | step before visits meets done ih => exact ih.step visits meets done

end VdbEngine

end Vraft.VectorDb
