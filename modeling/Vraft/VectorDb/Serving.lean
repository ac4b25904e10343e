import Vraft.VectorDb.Contents
import Vraft.VectorDb.Objects

/-!
# Requests that are served

What can stop the database is told by each request and the state before it: a table
whose names or numbers cannot be used, records without room, directories that are not
made, metadata that cannot be restored.  A request without these is served, and in runs
of such requests every key has its engine and the database answers like a map.
-/

namespace Vraft.VectorDb

open Raw Std

/-! ## Records that have room -/

/-- The sizes of the directory of the tables and of all records fit into `int32_t`. -/
structure Recordable (tables : Tables) : Prop where
  names : Names.maxBytes tables.keys < 2 ^ 31
  table : ∀ t ∈ Tables.items tables, t.maxBytes < 2 ^ 31
  partition : ∀ t ∈ Tables.items tables, ∀ p ∈ t.partitions.items, p.maxBytes < 2 ^ 31
  replica : ∀ t ∈ Tables.items tables, ∀ p ∈ t.partitions.items, ∀ r ∈ p.replicas.items,
    r.maxBytes < 2 ^ 31

instance (tables : Tables) : Decidable (Recordable tables) :=
  decidable_of_iff
    (Names.maxBytes tables.keys < 2 ^ 31 ∧ (∀ t ∈ Tables.items tables, t.maxBytes < 2 ^ 31) ∧
      (∀ t ∈ Tables.items tables, ∀ p ∈ t.partitions.items, p.maxBytes < 2 ^ 31) ∧
      ∀ t ∈ Tables.items tables, ∀ p ∈ t.partitions.items, ∀ r ∈ p.replicas.items,
        r.maxBytes < 2 ^ 31)
    ⟨fun ⟨names, table, partition, replica⟩ => ⟨names, table, partition, replica⟩,
      fun fits => ⟨fits.names, fits.table, fits.partition, fits.replica⟩⟩

section Records

theorem toString_of_fits {maxBytes : ℕ} {bytes : Bytes} (fits : maxBytes < 2 ^ 31)
    (room : bytes.length ≤ maxBytes) : toString maxBytes bytes = .ok bytes :=
  if_pos ⟨fits, room⟩

/-- Items that are visited by name are written if each of them is. -/
theorem exists_mapM_deref {α β : Type} {name : α → Bytes} {items : List α}
    {bindings : List (Bytes × Option α)} {write : α → Except MetadataFault β}
    (perm : bindings.Perm (items.map fun item => (name item, some item)))
    (each : ∀ item ∈ items, ∃ result, write item = .ok result) :
    ∃ out, (bindings.mapM fun binding => do
      let item ← deref binding.2
      write item) = .ok out := by
  refine exists_mapM fun binding mem => ?_
  obtain ⟨item, inside, rfl⟩ := List.mem_map.mp (perm.mem_iff.mp mem)
  exact each item inside

theorem exists_partitionRecords {p : Partition} {replicas : List Replica} (made : p.Made replicas)
    (names : (replicas.map Replica.name).Nodup) (fits : p.maxBytes < 2 ^ 31)
    (small : ∀ r ∈ p.replicas.items, r.maxBytes < 2 ^ 31) :
    ∃ records, partitionRecords p = .ok records := by
  have each : ∀ r ∈ replicas, ∃ record, replicaRecord r = .ok record := by
    intro r mem
    refine ⟨(r.name, r.toBytes), ?_⟩
    rw [replicaRecord, toString_of_fits (small r (made.items.mem_iff.mpr mem)) r.length_toBytes_le]
    rfl
  have perm : p.replicas.byName.toList.Perm (replicas.map fun r => (r.name, some r)) := by
    rw [made.all]
    exact Indexed.toList_byName names
  obtain ⟨rest, later⟩ := exists_mapM_deref perm each
  refine ⟨(p.name, p.toBytes) :: rest, ?_⟩
  rw [partitionRecords, toString_of_fits fits p.length_toBytes_le, ok_bind, later]
  rfl

theorem exists_tableRecords {t : Table} {partitions : List Partition} (made : t.Made partitions)
    (names : (partitions.map Partition.name).Nodup) (fits : t.maxBytes < 2 ^ 31)
    (each : ∀ p ∈ partitions, ∃ records, partitionRecords p = .ok records) :
    ∃ records, tableRecords t = .ok records := by
  have perm : t.partitions.byName.toList.Perm (partitions.map fun p => (p.name, some p)) := by
    rw [made.all]
    exact Indexed.toList_byName names
  obtain ⟨rest, later⟩ := exists_mapM_deref perm each
  refine ⟨(t.name, t.toBytes) :: rest.flatten, ?_⟩
  rw [tableRecords, toString_of_fits fits t.length_toBytes_le, ok_bind, later]
  rfl

/-- The metadata is written if its records have room. -/
theorem exists_persist {tables : Tables} (made : Tables.Made tables) (named : Named tables)
    (fits : Recordable tables) {order : List Bytes} (perm : order.Perm tables.keys) (old : Db) :
    ∃ db, persist order tables old = .ok db := by
  have replicas {t p} (mem : t ∈ Tables.items tables) (inside : p ∈ t.partitions.items)
      {replicas : List Replica} (parts : p.Made replicas) : (replicas.map Replica.name).Nodup := by
    refine List.Nodup.map_on (fun r within r' within' same => ?_) parts.nodup.of_map
    have number := (named.distinct t mem p inside r (parts.items.mem_iff.mpr within) t mem p inside
      r' (parts.items.mem_iff.mpr within') same).2.2
    exact List.inj_on_of_nodup_map parts.nodup within within' number
  have each : ∀ t ∈ Tables.items tables, ∃ records, tableRecords t = .ok records := by
    intro t mem
    obtain ⟨partitions, self⟩ := made.partitions mem
    refine exists_tableRecords self (self.nodup_names (named.partition t mem)) (fits.table t mem)
      fun p within => ?_
    have inside := self.items.mem_iff.mpr within
    obtain ⟨_, parts⟩ := (made.ofTable mem inside).made
    exact exists_partitionRecords parts (replicas mem inside parts)
      (fits.partition t mem p inside) (fits.replica t mem p inside)
  obtain ⟨records, written⟩ := exists_mapM fun t mem =>
    each t ((visited_perm perm).mem_iff.mp mem)
  have same : Names.maxBytes order = Names.maxBytes tables.keys :=
    congrArg (4 + ·) (perm.map _).sum_eq
  have batched : batch order tables = .ok ((tablesKey, Names.toBytes order) :: records.flatten) := by
    rw [batch, toString_of_fits (same.trans_lt fits.names) (Names.length_toBytes_le order), ok_bind,
      written]
    rfl
  exact ⟨_, by rw [persist, batched, ok_bind]; rfl⟩

end Records

namespace VdbEngine

/-! ## The condition of a request -/

/-- The table that would be added. -/
def addedTable (e : VdbEngine) (param : AddTableParam) : Table :=
  (createTable (e.tableParam param) e.metadata.counters).1

/-- Nothing stops a request: keys can be routed afterwards, records and values have room
where they are written, and the directories of new replicas can be made. -/
def Served (e : VdbEngine) : Event → Prop
  | .addTable param order => e.Routable (.addTable param order) ∧
      (e.metadata.tables[param.name]? = none →
        Recordable (e.metadata.tables.insert param.name (e.addedTable param)) ∧
          ∀ p ∈ (e.addedTable param).partitions.items, ∀ r ∈ p.replicas.items, MakesDir r.path)
  | .put _ _ vv => vv.maxBytes < 2 ^ 31
  | event => e.Routable event

theorem routable_of_served {e : VdbEngine} {event : Event} (served : e.Served event) :
    e.Routable event := by
  cases event with
  | addTable param order => exact served.1
  | put table key vv => exact trivial
  | get table key beyond => exact trivial
  | delete table key => exact trivial
  | reopen beyond order => exact served

theorem Steps.mono {condition weaker : VdbEngine → Event → Prop}
    (implies : ∀ e event, condition e event → weaker e event) {e e' : VdbEngine}
    (steps : Steps condition e e') : Steps weaker e e' := by
  induction steps with
  | none => exact .none
  | step _ visits meets done ih => exact ih.step visits (implies _ _ meets) done

theorem Follows.mono {condition weaker : VdbEngine → Event → Prop}
    (implies : ∀ e event, condition e event → weaker e event) {e : VdbEngine} {map : VectorMap}
    (follows : Follows condition e map) : Follows weaker e map := by
  induction follows with
  | fresh dataPath => exact .fresh dataPath
  | step _ visits meets done ih => exact ih.step visits (implies _ _ meets) done

/-! ## Progress -/

section Progress

variable {e : VdbEngine} {map : VectorMap} {param : AddTableParam} {order : List Bytes}

theorem ofMetadata_ok {α : Type} {out : Except MetadataFault α} {value : α}
    (done : out = .ok value) : ofMetadata out = .ok value := by
  rw [done]
  rfl

/-- The metadata takes a table that can be written. -/
theorem metadata_addTable (absent : e.metadata.tables[param.name]? = none) {db : Db}
    (written : persist order (e.metadata.tables.insert param.name (e.addedTable param))
      e.metadata.db = .ok db) :
    e.metadata.addTable (e.tableParam param) order =
      .ok (0, ⟨(createTable (e.tableParam param) e.metadata.counters).2,
        e.metadata.tables.insert param.name (e.addedTable param), db⟩) := by
  have none_there : e.metadata.tables[(e.tableParam param).name]? = none := absent
  have name : (createTable (e.tableParam param) e.metadata.counters).1.name = param.name := by
    rw [createTable_eq]
    rfl
  rw [addedTable] at written ⊢
  rw [Metadata.addTable, none_there]
  dsimp only
  rw [name, written]
  rfl

/-- No engine is open at the path of a replica of a table that is not there yet. -/
theorem Consistent.closed (consistent : e.Consistent) {name : Bytes} {new : Table} {tables : Tables}
    (absent : e.metadata.tables[name]? = none) (placed : Placed e.dataPath tables)
    (inserted : tables = e.metadata.tables.insert name new)
    (differ : new ∉ Tables.items e.metadata.tables) {p : Partition} {r : Replica}
    (has : Tables.Has tables new p r) (uid : UInt64) : e.engines[uid]? ≠ some r.path := by
  intro opened
  obtain ⟨t', p', r', has', same⟩ := consistent.opened opened
  have there : Tables.Has tables t' p' r' := by
    refine ⟨?_, has'.partition, has'.replica⟩
    rw [inserted]
    exact (mem_items_insert absent).mpr (.inr has'.table)
  obtain ⟨rfl, -, -⟩ := placed.paths there has same
  exact differ has'.table

/-- Tables are added. -/
theorem Consistent.exists_addTable (consistent : e.Consistent)
    (visits : e.Visits (.addTable param order)) (served : e.Served (.addTable param order)) :
    ∃ rv e', e.addTable param order = .ok (rv, e') := by
  obtain ⟨meets, room⟩ := served
  cases found : e.metadata.tables[param.name]? with
  | some t =>
      have there : e.metadata.tables[(e.tableParam param).name]? = some t := found
      have added : e.metadata.addTable (e.tableParam param) order = .ok (-1, e.metadata) := by
        rw [Metadata.addTable, there]
      exact ⟨-1, e, by rw [VdbEngine.addTable, ofMetadata_ok added]; rfl⟩
  | none =>
      obtain ⟨-, -, nameable, -, -⟩ := meets found
      obtain ⟨recordable, dirs⟩ := room found
      have name : (e.addedTable param).name = param.name := by
        rw [addedTable, createTable_eq]
        rfl
      have differ : e.addedTable param ∉ Tables.items e.metadata.tables :=
        consistent.not_mem_of_absent (by rw [name]; exact found)
      have missing : param.name ∉ e.metadata.tables := by
        intro mem
        rw [ExtTreeMap.getElem?_eq_some_getElem mem] at found
        contradiction
      have placed : Placed e.dataPath (e.metadata.tables.insert param.name (e.addedTable param)) :=
        consistent.placed_insert found nameable rfl
      have perm : order.Perm (e.metadata.tables.insert param.name (e.addedTable param)).keys :=
        (visits found).trans (Indexed.keys_insert missing).symm
      obtain ⟨db, written⟩ := exists_persist placed.made placed.named recordable perm e.metadata.db
      have mem := (mem_items_insert found).mpr (.inl (Eq.refl (e.addedTable param)))
      obtain ⟨visited, looked, replicas⟩ := placed.named.visits _ mem
      rw [name] at looked
      have has_of_mem {r} (within : r ∈ visited) : ∃ p, Tables.Has
          (e.metadata.tables.insert param.name (e.addedTable param)) (e.addedTable param) p r := by
        obtain ⟨p, inside, within⟩ := List.mem_flatMap.mp (replicas.mem_iff.mp within)
        exact ⟨p, mem, inside, within⟩
      have paths : (visited.map Replica.path).Nodup := by
        rw [(replicas.map Replica.path).nodup_iff]
        refine placed.nodup_paths.sublist (.map _ ?_)
        exact List.sublist_flatten_of_mem (List.mem_map.mpr ⟨_, mem, rfl⟩)
      have closed : ∀ r ∈ visited, ∀ uid : UInt64, e.engines[uid]? ≠ some r.path := by
        intro r within
        obtain ⟨p, has⟩ := has_of_mem within
        exact consistent.closed found placed rfl differ has
      have made : ∀ r ∈ visited, HasRoom e.disk r.path := by
        intro r within _
        obtain ⟨p, has⟩ := has_of_mem within
        exact dirs p has.partition r has.replica
      obtain ⟨e', opened⟩ := exists_createVEngines (e := { e with
        metadata := ⟨(createTable (e.tableParam param) e.metadata.counters).2,
          e.metadata.tables.insert param.name (e.addedTable param), db⟩ }) paths closed made
      refine ⟨0, e', ?_⟩
      rw [VdbEngine.addTable, ofMetadata_ok (metadata_addTable found written), ok_bind]
      dsimp only
      rw [if_neg (by decide), ofMetadata_ok looked, ok_bind, opened]
      rfl

example : Meets ((fresh [47]).step (.addTable ⟨[97, 32, 98], 1, 1, 3⟩ [[97, 32, 98]]))
    (fun _ => False) (· = .directory) := by
  decide +kernel

/-- Values are put. -/
theorem Refines.exists_put (refines : Refines e map) (table key : Bytes) {vv : VecValue}
    (fits : vv.maxBytes < 2 ^ 31) : ∃ rv e', e.put table key vv = .ok (rv, e') := by
  unfold VdbEngine.put
  cases exists_ : map.dims table with
  | none =>
      rw [refines.no_engine exists_ key]
      exact ⟨-1, e, rfl⟩
  | some dim =>
      obtain ⟨t, p, r, store, -, -, -, -, engine, there, -⟩ := refines.routed exists_ key
      rw [engine, ok_bind]
      dsimp only
      rw [VEngine.put, there, toString_of_fits fits vv.length_toBytes_le]
      dsimp only
      split
      · exact ⟨-1, _, rfl⟩
      · exact ⟨0, _, rfl⟩

/-- Keys are deleted. -/
theorem Refines.exists_delete (refines : Refines e map) (table key : Bytes) :
    ∃ rv e', e.delete table key = .ok (rv, e') := by
  unfold VdbEngine.delete
  cases exists_ : map.dims table with
  | none =>
      rw [refines.no_engine exists_ key]
      exact ⟨-1, e, rfl⟩
  | some dim =>
      obtain ⟨t, p, r, store, -, -, -, -, engine, there, -⟩ := refines.routed exists_ key
      rw [engine, ok_bind]
      dsimp only
      rw [VEngine.delete, there]
      exact ⟨0, _, rfl⟩

/-- Nothing stops a request that meets the condition. -/
theorem Refines.exists_step (refines : Refines e map) {event : Event} (visits : e.Visits event)
    (served : e.Served event) : ∃ e', e.step event = .ok e' := by
  cases event with
  | addTable param order =>
      obtain ⟨rv, e', done⟩ := refines.consistent.exists_addTable visits served
      exact ⟨e', by rw [VdbEngine.step, done]; rfl⟩
  | put table key vv =>
      obtain ⟨rv, e', done⟩ := refines.exists_put table key served
      exact ⟨e', by rw [VdbEngine.step, done]; rfl⟩
  | get table key beyond =>
      exact ⟨e, by rw [VdbEngine.step, refines.get]; rfl⟩
  | delete table key =>
      obtain ⟨rv, e', done⟩ := refines.exists_delete table key
      exact ⟨e', by rw [VdbEngine.step, done]; rfl⟩
  | reopen beyond order =>
      obtain ⟨engines, reopened, -⟩ := refines.consistent.reopen served visits
      exact ⟨_, reopened⟩

end Progress

/-! ## Routing in runs -/

/-- The first table of a database. -/
theorem reached_first {condition : VdbEngine → Event → Prop} {dataPath : Bytes}
    {param : AddTableParam} {e : VdbEngine}
    (meets : condition (fresh dataPath) (.addTable param [param.name]))
    (done : (fresh dataPath).step (.addTable param [param.name]) = .ok e) : Reached condition e :=
  ⟨dataPath, .step .none (fun _ => by simp [fresh, Metadata.fresh, tableParam]) meets done⟩

/-- In every run of requests that are served, the engine answers like a map, and every
request that meets the condition is served. -/
theorem get_of_follows {e : VdbEngine} {map : VectorMap} (follows : Follows Served e map) :
    (∀ table key beyond, e.get table key beyond = .ok (map.answer table key)) ∧
      ∀ event, e.Visits event → e.Served event → ∃ e', e.step event = .ok e' := by
  have refines := refines_of_follows (follows.mono fun _ _ => routable_of_served)
  exact ⟨refines.get, fun event visits served => refines.exists_step visits served⟩

/-- A vector of one component. -/
def unit : VecValue := ⟨[0x3F800000], [97]⟩

theorem put_small :
    Meets ((fresh [47]).step (.addTable ⟨[116], 2, 1, 1⟩ [[116]]))
      (fun e => Meets (e.step (.put [116] [107] unit)) (fun _ => True) fun _ => False)
      fun _ => False := by
  decide +kernel

theorem get_of_follows_small : ∃ e map, Follows Served e map ∧
    e.get [116] [107] (fun _ => 0) = .ok (0, some ⟨[107], unit⟩) ∧
      ∃ e', e.step (.delete [116] [107]) = .ok e' := by
  obtain ⟨e, added, written⟩ := put_small.exists_ok
  obtain ⟨e', done, -⟩ := written.exists_ok
  have first : Served (fresh [47]) (.addTable ⟨[116], 2, 1, 1⟩ [[116]]) :=
    ⟨fun _ => by decide +kernel, fun _ => by decide +kernel⟩
  have one := (Follows.fresh [47]).step (fun _ => by simp [fresh, Metadata.fresh, tableParam])
    first added
  have fits : unit.maxBytes < 2 ^ 31 := by decide
  have follows := one.step (by exact trivial) (by exact fits) done
  obtain ⟨answers, served⟩ := get_of_follows follows
  exact ⟨e', _, follows, answers [116] [107] fun _ => 0, served _ trivial trivial⟩

/-- A second process gives the identifier of the first replica again. -/
theorem overwritten :
    Meets ((fresh [47]).step (.addTable ⟨[116], 1, 1, 1⟩ [[116]]))
      (fun e => Meets (e.step (.put [116] [107] unit))
        (fun e => Meets (e.metadata.reopen fun _ => 0)
            (fun m => [[116]].Perm m.tables.keys) (fun _ => False) ∧
          Meets (e.step (.reopen (fun _ => 0) [[116]]))
            (fun e => [[117], [116]].Perm ([117] :: e.metadata.tables.keys) ∧
              Meets (e.step (.addTable ⟨[117], 1, 1, 1⟩ [[117], [116]]))
                (fun e => Meets (e.get [116] [107] fun _ => 0) (fun out => out.1 = -2)
                  fun _ => False)
                fun _ => False)
            fun _ => False)
        fun _ => False)
      fun _ => False := by
  decide +kernel

theorem not_get_of_follows : ¬∀ e map, Follows (fun _ _ => True) e map →
    ∀ table key beyond, e.get table key beyond = .ok (map.answer table key) := by
  intro answers
  obtain ⟨e, added, rest⟩ := overwritten.exists_ok
  obtain ⟨e', written, listed, rest⟩ := rest.exists_ok
  obtain ⟨e'', reopened, order, rest⟩ := rest.exists_ok
  obtain ⟨final, again, lost⟩ := rest.exists_ok
  have start : Follows (fun _ _ => True) (fresh [47]) .empty := .fresh [47]
  have one := start.step (fun _ => by simp [fresh, Metadata.fresh, tableParam]) trivial added
  have two := one.step (by exact trivial) trivial written
  have three := two.step (by exact fun m found => listed.of_ok found) trivial reopened
  have four := three.step (by exact fun _ => order) trivial again
  exact absurd (lost.of_ok (answers final _ four [116] [107] fun _ => 0)) (by decide)

end VdbEngine

end Vraft.VectorDb
