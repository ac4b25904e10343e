import Vraft.VectorDb.Creation

/-!
# Metadata after a restart

The records of all tables, partitions and replicas share one space of keys with the
directory of the tables.  If no two of them have the same key and no string is longer
than the decoder can step over, then opening the store again brings all of it back.
-/

namespace Vraft.VectorDb

open Raw Std

/-! ## Keys and records -/

namespace Partition

/-- The keys of the records of a partition. -/
def keys (p : Partition) : List Bytes :=
  p.name :: p.replicas.items.map Replica.name

/-- The record of a partition, and those of its replicas. -/
def records (p : Partition) : List (Bytes × Bytes) :=
  (p.name, p.toBytes) :: p.replicas.items.map fun r => (r.name, r.toBytes)

end Partition

namespace Table

/-- The keys of the records of a table. -/
def keys (t : Table) : List Bytes :=
  t.name :: t.partitions.items.flatMap Partition.keys

/-- The record of a table, and those of its partitions. -/
def records (t : Table) : List (Bytes × Bytes) :=
  (t.name, t.toBytes) :: t.partitions.items.flatMap Partition.records

end Table

namespace Tables

/-- All tables. -/
def items (tables : Tables) : List Table :=
  tables.toList.map Prod.snd

/-- The keys under which `Persist` writes. -/
def recordKeys (tables : Tables) : List Bytes :=
  tablesKey :: (items tables).flatMap Table.keys

end Tables

section Inserting

variable {tables : Tables} {name : Bytes} {t : Table}

theorem items_insert (absent : tables[name]? = none) :
    (Tables.items (tables.insert name t)).Perm (t :: Tables.items tables) := by
  have missing : name ∉ tables := by
    intro mem
    rw [ExtTreeMap.getElem?_eq_some_getElem mem] at absent
    contradiction
  exact (Indexed.toList_insert missing).map Prod.snd

theorem mem_items_insert (absent : tables[name]? = none) {t' : Table} :
    t' ∈ Tables.items (tables.insert name t) ↔ t' = t ∨ t' ∈ Tables.items tables := by
  rw [(items_insert absent).mem_iff, List.mem_cons]

theorem size_eq_length (tables : Tables) : tables.size = (Tables.items tables).length := by
  rw [Tables.items, List.length_map, ExtTreeMap.length_toList]

theorem size_insert (absent : tables[name]? = none) :
    (tables.insert name t).size = tables.size + 1 := by
  rw [size_eq_length, (items_insert absent).length_eq, List.length_cons, size_eq_length]

end Inserting

/-- A string whose length has one byte. -/
def Brief (text : Bytes) : Prop :=
  text.length < 128

instance (text : Bytes) : Decidable (Brief text) :=
  inferInstanceAs (Decidable (text.length < 128))

/-- The names and paths are brief, and no two records have the same key. -/
structure Storable (tables : Tables) : Prop where
  table : ∀ t ∈ Tables.items tables, Brief t.name ∧ Brief t.path
  partition : ∀ t ∈ Tables.items tables, ∀ p ∈ t.partitions.items, Brief p.name ∧ Brief p.path
  replica : ∀ t ∈ Tables.items tables, ∀ p ∈ t.partitions.items, ∀ r ∈ p.replicas.items,
    Brief r.name ∧ Brief r.path
  distinct : (Tables.recordKeys tables).Nodup

instance (tables : Tables) : Decidable (Storable tables) :=
  decidable_of_iff
    ((∀ t ∈ Tables.items tables, Brief t.name ∧ Brief t.path) ∧
      (∀ t ∈ Tables.items tables, ∀ p ∈ t.partitions.items, Brief p.name ∧ Brief p.path) ∧
      (∀ t ∈ Tables.items tables, ∀ p ∈ t.partitions.items, ∀ r ∈ p.replicas.items,
        Brief r.name ∧ Brief r.path) ∧ (Tables.recordKeys tables).Nodup)
    ⟨fun ⟨table, partition, replica, distinct⟩ => ⟨table, partition, replica, distinct⟩,
      fun storable => ⟨storable.table, storable.partition, storable.replica, storable.distinct⟩⟩

/-! ## What is written -/

theorem replicaRecord_eq_ok {r : Replica} {record : Bytes × Bytes}
    (done : replicaRecord r = .ok record) :
    record = (r.name, r.toBytes) ∧ r.maxBytes < 2 ^ 31 := by
  obtain ⟨value, written, done⟩ := ok_of_bind_ok done
  obtain ⟨rfl, fits, -⟩ := toString_eq_ok written
  exact ⟨(Except.ok.inj done).symm, fits⟩

/-- What is written of items that are visited by name. -/
theorem mapM_deref_eq_ok {α β : Type} {name : α → Bytes} {items : List α}
    {bindings : List (Bytes × Option α)} {write : α → Except MetadataFault β} {out : List β}
    (perm : bindings.Perm (items.map fun item => (name item, some item)))
    (done : (bindings.mapM fun binding => do
      let item ← deref binding.2
      write item) = .ok out) :
    ∃ visited : List α, visited.Perm items ∧
      List.Forall₂ (fun item result => write item = .ok result) visited out := by
  have all : ∀ binding ∈ bindings, ∃ item, binding = (name item, some item) := by
    intro binding mem
    obtain ⟨item, -, same⟩ := List.mem_map.mp (perm.mem_iff.mp mem)
    exact ⟨item, same.symm⟩
  refine ⟨bindings.filterMap Prod.snd, ?_, ?_⟩
  · have visited := perm.filterMap Prod.snd
    rwa [List.filterMap_map, show (Prod.snd ∘ fun item => (name item, some item)) = some from rfl,
      List.filterMap_some] at visited
  · have results := forall₂_of_mapM_ok done
    clear perm done
    induction results with
    | nil => exact .nil
    | cons first _ ih =>
        rw [List.forall_mem_cons] at all
        obtain ⟨item, rfl⟩ := all.1
        exact .cons first (ih all.2)

theorem replicaRecords_eq {visited : List Replica} {out : List (Bytes × Bytes)}
    (results : List.Forall₂ (fun r record => replicaRecord r = .ok record) visited out) :
    out = visited.map (fun r => (r.name, r.toBytes)) ∧ ∀ r ∈ visited, r.maxBytes < 2 ^ 31 := by
  induction results with
  | nil => exact ⟨rfl, by simp⟩
  | cons first _ ih =>
      obtain ⟨rfl, small⟩ := replicaRecord_eq_ok first
      rw [List.map_cons, List.forall_mem_cons, ih.1]
      exact ⟨rfl, small, ih.2⟩

/-- The records of a partition are written if they fit. -/
structure Partition.Fits (p : Partition) (replicas : List Replica) : Prop where
  self : p.maxBytes < 2 ^ 31
  replica : ∀ r ∈ replicas, r.maxBytes < 2 ^ 31

theorem partitionRecords_eq_ok {p : Partition} {replicas : List Replica} (made : p.Made replicas)
    (names : (replicas.map Replica.name).Nodup) {out : List (Bytes × Bytes)}
    (done : partitionRecords p = .ok out) : out.Perm p.records ∧ p.Fits replicas := by
  obtain ⟨value, written, done⟩ := ok_of_bind_ok done
  obtain ⟨rest, later, done⟩ := ok_of_bind_ok done
  obtain ⟨rfl, fits, -⟩ := toString_eq_ok written
  obtain rfl := Except.ok.inj done
  rw [made.all] at later
  obtain ⟨visited, perm, results⟩ := mapM_deref_eq_ok (Indexed.toList_byName names) later
  obtain ⟨rfl, small⟩ := replicaRecords_eq results
  exact ⟨((perm.trans made.items.symm).map _).cons _, fits,
    fun r mem => small r (perm.mem_iff.mpr mem)⟩

/-- The names tell the partitions apart, and in each of them the replicas. -/
def DistinctNames (partitions : List Partition) : Prop :=
  (partitions.map Partition.name).Nodup ∧
    ∀ p ∈ partitions, ∀ replicas, p.Made replicas → (replicas.map Replica.name).Nodup

/-- The records of a table are written if they fit. -/
structure Table.Fits (t : Table) (partitions : List Partition) : Prop where
  self : t.maxBytes < 2 ^ 31
  partition : ∀ p ∈ partitions, ∃ replicas, p.Made replicas ∧ p.Fits replicas

theorem flatten_records_perm {visited : List Partition} {out : List (List (Bytes × Bytes))}
    (results : List.Forall₂ (fun p records => partitionRecords p = .ok records) visited out)
    (made : ∀ p ∈ visited, ∃ replicas, p.Made replicas ∧ (replicas.map Replica.name).Nodup) :
    out.flatten.Perm (visited.flatMap Partition.records) ∧
      ∀ p ∈ visited, ∃ replicas, p.Made replicas ∧ p.Fits replicas := by
  induction results with
  | nil => exact ⟨.nil, by simp⟩
  | cons first _ ih =>
      rw [List.forall_mem_cons] at made
      obtain ⟨⟨replicas, self, names⟩, rest⟩ := made
      obtain ⟨perm, fits⟩ := partitionRecords_eq_ok self names first
      rw [List.flatten_cons, List.flatMap_cons, List.forall_mem_cons]
      exact ⟨perm.append (ih rest).1, ⟨replicas, self, fits⟩, (ih rest).2⟩

theorem tableRecords_eq_ok {t : Table} {partitions : List Partition} (made : t.Made partitions)
    (names : DistinctNames partitions) {out : List (Bytes × Bytes)}
    (done : tableRecords t = .ok out) : out.Perm t.records ∧ t.Fits partitions := by
  obtain ⟨value, written, done⟩ := ok_of_bind_ok done
  obtain ⟨rest, later, done⟩ := ok_of_bind_ok done
  obtain ⟨rfl, fits, -⟩ := toString_eq_ok written
  obtain rfl := Except.ok.inj done
  rw [made.all] at later
  obtain ⟨visited, perm, results⟩ := mapM_deref_eq_ok (Indexed.toList_byName names.1) later
  have all : ∀ p ∈ visited, ∃ replicas, p.Made replicas ∧ (replicas.map Replica.name).Nodup := by
    intro p mem
    obtain ⟨replicas, self⟩ := (made.each p (perm.mem_iff.mp mem)).made
    exact ⟨replicas, self, names.2 p (perm.mem_iff.mp mem) replicas self⟩
  obtain ⟨records, each⟩ := flatten_records_perm results all
  refine ⟨?_, fits, fun p mem => each p (perm.mem_iff.mpr mem)⟩
  exact (records.trans ((perm.trans made.items.symm).flatMap_right _)).cons _

/-- Names that are made of different numbers are different. -/
theorem nodup_names {α : Type} {id : α → Int32} {name : α → Bytes} {base : Bytes} {items : List α}
    (ids : (items.map id).Nodup) (named : ∀ item ∈ items, name item = numberedName base (id item))
    (brief : ∀ item ∈ items, (name item).length < 255) : (items.map name).Nodup := by
  rw [List.map_congr_left named]
  refine List.Nodup.map_on ?_ ids.of_map
  intro item mem item' mem' same
  refine List.inj_on_of_nodup_map ids mem mem' (numberedName_inj ?_ same)
  rw [← named item mem]
  exact brief item mem

/-- All tables are as they were created, under their names. -/
def Tables.Made (tables : Tables) : Prop :=
  ∀ (k : Bytes) (t : Table), tables[k]? = some t → t.name = k ∧ ∃ partitions, t.Made partitions

/-- A table that has just been created is added under its name. -/
theorem Tables.Made.insert {tables : Tables} (made : Tables.Made tables) (param : TableParam)
    (counters : Counters) :
    Tables.Made (tables.insert param.name (createTable param counters).1) := by
  intro k t found
  rw [ExtTreeMap.getElem?_insert] at found
  split at found
  · rename_i same
    obtain rfl := Option.some.inj found
    obtain rfl := LawfulEqCmp.eq_of_compare same
    exact ⟨by rw [createTable_eq]; rfl, _, createTable_made param counters⟩
  · exact made k t found

section Written

variable {tables : Tables}

theorem Tables.mem_items {t : Table} : t ∈ Tables.items tables ↔ ∃ k : Bytes, tables[k]? = some t := by
  simp only [Tables.items, List.mem_map, Prod.exists, exists_eq_right,
    ExtTreeMap.mem_toList_iff_getElem?_eq_some]

theorem Storable.distinctNames (storable : Storable tables) {t : Table}
    (mem : t ∈ Tables.items tables) {partitions : List Partition} (made : t.Made partitions) :
    DistinctNames partitions := by
  constructor
  · refine nodup_names made.nodup (fun p inside => (made.each p inside).name) fun p inside => ?_
    have brief := (storable.partition t mem p (made.items.mem_iff.mpr inside)).1
    exact brief.trans (by decide)
  · intro p inside replicas self
    refine nodup_names self.nodup (fun r within => (self.each r within).name) fun r within => ?_
    have brief := (storable.replica t mem p (made.items.mem_iff.mpr inside) r
      (self.items.mem_iff.mpr within)).1
    exact brief.trans (by decide)

/-- Visiting the tables in any order visits all of them. -/
theorem visited_perm {order : List Bytes} (perm : order.Perm tables.keys) :
    (order.filterMap fun name => tables[name]?).Perm (Tables.items tables) := by
  have whole : tables.keys.filterMap (fun name => tables[name]?) = Tables.items tables := by
    rw [Tables.items, ← ExtTreeMap.map_fst_toList_eq_keys, List.filterMap_map,
      ← List.filterMap_eq_map]
    refine List.filterMap_congr fun binding mem => ?_
    exact ExtTreeMap.mem_toList_iff_getElem?_eq_some.mp mem
  rw [← whole]
  exact perm.filterMap _

/-- The directory and all records are there. -/
structure Written (tables : Tables) (db : Db) (order : List Bytes) : Prop where
  perm : order.Perm tables.keys
  small : Names.maxBytes order < 2 ^ 31
  names : db[tablesKey]? = some (Names.toBytes order)
  fits : ∀ t ∈ Tables.items tables, ∃ partitions, t.Made partitions ∧ t.Fits partitions
  records : ∀ t ∈ Tables.items tables, ∀ record ∈ t.records, db[record.1]? = some record.2

theorem flatten_tableRecords_perm {visited : List Table} {out : List (List (Bytes × Bytes))}
    (results : List.Forall₂ (fun t records => tableRecords t = .ok records) visited out)
    (made : ∀ t ∈ visited, ∃ partitions, t.Made partitions ∧ DistinctNames partitions) :
    out.flatten.Perm (visited.flatMap Table.records) ∧
      ∀ t ∈ visited, ∃ partitions, t.Made partitions ∧ t.Fits partitions := by
  induction results with
  | nil => exact ⟨.nil, by simp⟩
  | cons first _ ih =>
      rw [List.forall_mem_cons] at made
      obtain ⟨⟨partitions, self, names⟩, rest⟩ := made
      obtain ⟨perm, fits⟩ := tableRecords_eq_ok self names first
      rw [List.flatten_cons, List.flatMap_cons, List.forall_mem_cons]
      exact ⟨perm.append (ih rest).1, ⟨partitions, self, fits⟩, (ih rest).2⟩

theorem map_fst_records (t : Table) : t.records.map Prod.fst = t.keys := by
  have partition (p : Partition) : p.records.map Prod.fst = p.keys := by
    rw [Partition.records, List.map_cons, List.map_map]
    rfl
  rw [Table.records, List.map_cons, List.map_flatMap, Table.keys]
  simp only [partition]

/-- What `Persist` writes is there afterwards. -/
theorem written_of_persist (made : Tables.Made tables) (storable : Storable tables)
    {order : List Bytes} {old db : Db} (perm : order.Perm tables.keys)
    (done : persist order tables old = .ok db) : Written tables db order := by
  obtain ⟨records, batched, done⟩ := ok_of_bind_ok done
  obtain rfl := Except.ok.inj done
  obtain ⟨names, written, batched⟩ := ok_of_bind_ok batched
  obtain ⟨lists, later, batched⟩ := ok_of_bind_ok batched
  obtain ⟨rfl, small, -⟩ := toString_eq_ok written
  obtain rfl := Except.ok.inj batched
  have visited := visited_perm perm
  have all : ∀ t ∈ order.filterMap (fun name => tables[name]?),
      ∃ partitions, t.Made partitions ∧ DistinctNames partitions := by
    intro t mem
    rw [visited.mem_iff] at mem
    obtain ⟨k, found⟩ := Tables.mem_items.mp mem
    obtain ⟨partitions, self⟩ := (made k t found).2
    exact ⟨partitions, self, storable.distinctNames mem self⟩
  obtain ⟨flat, fits⟩ := flatten_tableRecords_perm (forall₂_of_mapM_ok later) all
  have whole := flat.trans (visited.flatMap_right Table.records)
  have keys : (((tablesKey, Names.toBytes order) :: lists.flatten).map Prod.fst).Nodup := by
    have perm_keys := (whole.map Prod.fst).cons tablesKey
    rw [List.map_flatMap] at perm_keys
    simp only [map_fst_records] at perm_keys
    exact perm_keys.nodup_iff.mpr storable.distinct
  have found {record : Bytes × Bytes}
      (mem : record ∈ (tablesKey, Names.toBytes order) :: lists.flatten) :
      (old.insertMany ((tablesKey, Names.toBytes order) :: lists.flatten))[record.1]? =
        some record.2 := by
    refine ExtTreeMap.getElem?_insertMany_list_of_mem ReflCmp.compare_self ?_ mem
    refine (List.pairwise_map.mp keys).imp fun differ same => ?_
    exact differ (LawfulEqCmp.eq_of_compare same)
  refine ⟨perm, small, found List.mem_cons_self, ?_, ?_⟩
  · exact fun t mem => fits t (visited.mem_iff.mpr mem)
  · intro t mem record inside
    refine found (List.mem_cons_of_mem _ (whole.mem_iff.mpr ?_))
    exact List.mem_flatMap.mpr ⟨t, mem, inside⟩

end Written

/-! ## What is read back -/

theorem Partition.Made.short {p : Partition} {replicas : List Replica} (made : p.Made replicas)
    (brief : ∀ r ∈ replicas, Brief r.name) (names : (replicas.map Replica.name).Nodup) :
    Parts.Short p.replicas p.replicaNum := by
  have length : replicas.length = times p.replicaNum := by
    rw [← List.length_map Replica.id, made.ids, List.length_map, List.length_range]
  rw [made.all]
  refine ⟨fun name mem => ?_, ?_, ?_⟩
  · rw [ExtTreeMap.mem_keys, Indexed.mem_byName] at mem
    obtain ⟨r, inside, rfl⟩ := List.mem_map.mp mem
    exact brief r inside
  · rw [Indexed.size_byId made.nodup, length]
  · rw [Indexed.size_byName names, length]

theorem Table.Made.short {t : Table} {partitions : List Partition} (made : t.Made partitions)
    (brief : ∀ p ∈ partitions, Brief p.name) (names : (partitions.map Partition.name).Nodup) :
    Parts.Short t.partitions t.partitionNum := by
  have length : partitions.length = times t.partitionNum := by
    rw [← List.length_map Partition.id, made.ids, List.length_map, List.length_range]
  rw [made.all]
  refine ⟨fun name mem => ?_, ?_, ?_⟩
  · rw [ExtTreeMap.mem_keys, Indexed.mem_byName] at mem
    obtain ⟨p, inside, rfl⟩ := List.mem_map.mp mem
    exact brief p inside
  · rw [Indexed.size_byId made.nodup, length]
  · rw [Indexed.size_byName names, length]

section Reading

variable {tables : Tables} {db : Db} {order : List Bytes} {t : Table} {partitions : List Partition}

theorem loadReplica_eq_ok {r : Replica} (short : r.Short) (fits : r.maxBytes < 2 ^ 31)
    (stored : db[r.name]? = some r.toBytes) (beyond : Memory) :
    loadReplica db beyond r.name = .ok r := by
  rw [loadReplica, stored]
  exact Replica.fromString_toBytes short fits beyond

theorem loadPartition_eq_ok (storable : Storable tables) (written : Written tables db order)
    (mem : t ∈ Tables.items tables) (made : t.Made partitions) {p : Partition}
    (inside : p ∈ partitions) (fits : ∃ replicas, p.Made replicas ∧ p.Fits replicas)
    (beyond : Memory) : loadPartition db beyond p.name = .ok p := by
  obtain ⟨replicas, self, fits⟩ := fits
  have names := (storable.distinctNames mem made).2 p inside replicas self
  have within : p ∈ t.partitions.items := made.items.mem_iff.mpr inside
  have belongs := made.each p inside
  have recorded : ∀ record ∈ p.records, record ∈ t.records := fun record of =>
    List.mem_cons_of_mem _ (List.mem_flatMap.mpr ⟨p, within, of⟩)
  have brief : ∀ r ∈ replicas, Brief r.name ∧ Brief r.path := fun r of =>
    storable.replica t mem p within r (self.items.mem_iff.mpr of)
  have tableName : Brief p.tableName := by
    rw [belongs.tableName]
    exact (storable.table t mem).1
  have short : p.Short := ⟨(storable.partition t mem p within).1,
    (storable.partition t mem p within).2, tableName,
    self.short (fun r of => (brief r of).1) names⟩
  have stored : db[p.name]? = some p.toBytes :=
    written.records t mem _ (recorded _ List.mem_cons_self)
  have found : ∀ r ∈ replicas, loadReplica db beyond r.name = .ok r := by
    intro r of
    have named := self.each r of
    refine loadReplica_eq_ok ⟨(brief r of).1, (brief r of).2, ?_, ?_⟩ (fits.replica r of)
      (written.records t mem (r.name, r.toBytes) (recorded _ ?_)) beyond
    · rw [named.tableName]
      exact tableName
    · rw [named.partitionName]
      exact short.name
    · exact List.mem_cons_of_mem _ (List.mem_map.mpr ⟨r, self.items.mem_iff.mpr of, rfl⟩)
  have refilled : p.replicas.blank.refill Replica.id Replica.name (loadReplica db beyond) =
      .ok p.replicas := by
    rw [self.all]
    exact Indexed.refill_blank self.nodup names found
  rw [loadPartition, stored]
  dsimp only
  rw [Partition.fromString_toBytes short fits.self, ok_bind, Partition.blank, refilled]
  rfl

theorem loadTable_eq_ok (storable : Storable tables) (written : Written tables db order)
    (mem : t ∈ Tables.items tables) (beyond : Memory) : loadTable db beyond t.name = .ok t := by
  obtain ⟨partitions, made, fits⟩ := written.fits t mem
  have names := (storable.distinctNames mem made).1
  have short : t.Short := ⟨(storable.table t mem).1, (storable.table t mem).2,
    made.short (fun p inside =>
      (storable.partition t mem p (made.items.mem_iff.mpr inside)).1) names⟩
  have stored : db[t.name]? = some t.toBytes := written.records t mem _ List.mem_cons_self
  have refilled : t.partitions.blank.refill Partition.id Partition.name (loadPartition db beyond) =
      .ok t.partitions := by
    rw [made.all]
    exact Indexed.refill_blank made.nodup names fun p inside =>
      loadPartition_eq_ok storable written mem made inside (fits.partition p inside) beyond
  rw [loadTable, stored]
  dsimp only
  rw [Table.fromString_toBytes short fits.self, ok_bind, Table.blank, refilled]
  rfl

/-- All tables come back from what has been written. -/
theorem load_eq_ok (made : Tables.Made tables) (storable : Storable tables)
    (written : Written tables db order) (beyond : Memory) : load db beyond = .ok tables := by
  have brief : ∀ name ∈ order, name.length < 128 := by
    intro name mem
    obtain ⟨t, found⟩ : ∃ t, tables[name]? = some t := by
      have inside := written.perm.mem_iff.mp mem
      rw [ExtTreeMap.mem_keys] at inside
      exact ⟨tables[name], ExtTreeMap.getElem?_eq_some_getElem inside⟩
    rw [← (made name t found).1]
    exact (storable.table t (Tables.mem_items.mpr ⟨name, found⟩)).1
  have inserted (visited : List Bytes) (inside : ∀ name ∈ visited, name ∈ tables)
      (loaded : Tables) :
      ∃ loaded', visited.foldlM (fun tables name => do
          let t ← loadTable db beyond name
          pure (tables.insert t.name t)) loaded = Except.ok loaded' ∧
        ∀ k : Bytes, loaded'[k]? = if k ∈ visited then tables[k]? else loaded[k]? := by
    induction visited generalizing loaded with
    | nil => exact ⟨loaded, rfl, by simp⟩
    | cons name visited ih =>
        rw [List.forall_mem_cons] at inside
        obtain ⟨t, found⟩ : ∃ t, tables[name]? = some t :=
          ⟨_, ExtTreeMap.getElem?_eq_some_getElem inside.1⟩
        have named := (made name t found).1
        have first : loadTable db beyond name = .ok t := by
          rw [← named]
          exact loadTable_eq_ok storable written (Tables.mem_items.mpr ⟨name, found⟩) beyond
        obtain ⟨loaded', done, all⟩ := ih inside.2 (loaded.insert t.name t)
        refine ⟨loaded', ?_, fun k => ?_⟩
        · rw [List.foldlM_cons, first]
          exact done
        · rw [all, ExtTreeMap.getElem?_insert, named]
          by_cases later : k ∈ visited
          · rw [if_pos later, if_pos (List.mem_cons_of_mem _ later)]
          · rw [if_neg later]
            by_cases same : name = k
            · subst same
              rw [if_pos ReflCmp.compare_self, if_pos List.mem_cons_self, found]
            · rw [if_neg fun equal => same (LawfulEqCmp.eq_of_compare equal),
                if_neg fun mem => (List.mem_cons.mp mem).elim (fun equal => same equal.symm) later]
  obtain ⟨loaded, done, all⟩ := inserted order
    (fun name mem => ExtTreeMap.mem_keys.mp (written.perm.mem_iff.mp mem)) ∅
  have same : loaded = tables := by
    refine ExtTreeMap.ext_getElem? fun k => ?_
    rw [all]
    split
    · rfl
    · rename_i absent
      rw [written.perm.mem_iff, ExtTreeMap.mem_keys] at absent
      rw [ExtTreeMap.getElem?_empty, ExtTreeMap.getElem?_eq_none absent]
  rw [load, written.names]
  dsimp only
  rw [Names.fromString_toBytes brief written.small, ok_bind, done, same]

end Reading

/-! ## Runs -/

namespace Metadata

/-- What is in memory was created, and the database has been written from it. -/
structure Sound (m : Metadata) : Prop where
  made : Tables.Made m.tables
  saved : (m.tables = ∅ ∧ m.db = ∅) ∨ ∃ order old, order.Perm m.tables.keys ∧
    persist order m.tables old = .ok m.db

/-- The store is opened again only while its records can be told apart and decoded. -/
def StorableAtReopen (m : Metadata) : Event → Prop
  | .addTable _ _ => True
  | .reopen _ => Storable m.tables

theorem sound_fresh : Sound fresh :=
  ⟨fun k t found => by simp [fresh] at found, .inl ⟨rfl, rfl⟩⟩

theorem addTable_eq_ok {m m' : Metadata} {param : TableParam} {order : List Bytes} {rv : ℤ}
    (done : m.addTable param order = .ok (rv, m')) :
    (m' = m ∧ ∃ t, m.tables[param.name]? = some t) ∨
      (m.tables[param.name]? = none ∧ m'.counters = (createTable param m.counters).2 ∧
        m'.tables = m.tables.insert param.name (createTable param m.counters).1 ∧
          persist order m'.tables m.db = .ok m'.db) := by
  unfold addTable at done
  split at done
  · rename_i t found
    obtain ⟨-, rfl⟩ := Prod.mk.inj (Except.ok.inj done)
    exact .inl ⟨rfl, t, found⟩
  · rename_i absent
    have named : (createTable param m.counters).1.name = param.name := by rw [createTable_eq]; rfl
    dsimp only at done
    rw [named] at done
    obtain ⟨db, written, done⟩ := ok_of_bind_ok done
    obtain ⟨-, rfl⟩ := Prod.mk.inj (Except.ok.inj done)
    exact .inr ⟨absent, rfl, rfl, written⟩

theorem Sound.addTable {m m' : Metadata} (sound : m.Sound) {param : TableParam}
    {order : List Bytes} {rv : ℤ} (visits : m.Visits (.addTable param order))
    (done : m.addTable param order = .ok (rv, m')) : m'.Sound := by
  rcases addTable_eq_ok done with ⟨rfl, -⟩ | ⟨absent, -, tables, written⟩
  · exact sound
  have missing : param.name ∉ m.tables := by
    intro mem
    rw [ExtTreeMap.getElem?_eq_some_getElem mem] at absent
    contradiction
  refine ⟨?_, .inr ⟨order, m.db, ?_, written⟩⟩
  · rw [tables]
    exact sound.made.insert param m.counters
  · rw [tables]
    exact (visits absent).trans (Indexed.keys_insert missing).symm

theorem Sound.reopen {m : Metadata} (sound : m.Sound) (storable : Storable m.tables)
    (beyond : Memory) : m.reopen beyond = .ok ⟨.zero, m.tables, m.db⟩ := by
  have loaded : load m.db beyond = .ok m.tables := by
    rcases sound.saved with ⟨tables, db⟩ | ⟨order, old, perm, done⟩
    · rw [tables, db]
      rfl
    · exact load_eq_ok sound.made storable (written_of_persist sound.made storable perm done) beyond
  rw [Metadata.reopen, loaded]
  rfl

theorem sound_of_reached {condition : Metadata → Event → Prop}
    (storable : ∀ m event, condition m event → m.StorableAtReopen event) {m : Metadata}
    (reached : Reached condition m) : m.Sound := by
  induction reached with
  | fresh => exact sound_fresh
  | @step m m' event before visits meets done sound =>
      cases event with
      | addTable param order =>
          obtain ⟨⟨rv, after⟩, added, done⟩ := ok_of_bind_ok done
          obtain rfl := Except.ok.inj done
          exact sound.addTable visits added
      | reopen beyond =>
          have same := sound.reopen (storable m _ meets) beyond
          obtain rfl := Except.ok.inj (same.symm.trans done)
          exact ⟨sound.made, sound.saved⟩

/-- Opening the store again brings back the same tables, without a failing assert. -/
def Restored (m : Metadata) : Prop :=
  ∀ beyond, ∃ m', m.reopen beyond = .ok m' ∧ m'.tables = m.tables

/-- Metadata survives a restart in every run in which the store is opened again only
while its names and paths are brief and no two records have the same key. -/
theorem restored {m : Metadata} (reached : Reached StorableAtReopen m)
    (storable : Storable m.tables) : m.Restored := fun beyond =>
  ⟨_, (sound_of_reached (fun _ _ meets => meets) reached).reopen storable beyond, rfl⟩

/-- The first table of a store. -/
theorem reached_first {condition : Metadata → Event → Prop} {param : TableParam} {m : Metadata}
    (meets : condition fresh (.addTable param [param.name]))
    (done : fresh.step (.addTable param [param.name]) = .ok m) : Reached condition m :=
  .step .fresh (fun _ => by simp [fresh]) meets done

/-- A table with two partitions of one replica each, at a short path. -/
theorem restored_small : ∃ m, Reached StorableAtReopen m ∧
    fresh.step (.addTable ⟨[116], [47, 100], 2, 1, 3⟩ [[116]]) = .ok m ∧ m.Restored := by
  have evaluated : Meets (fresh.step (.addTable ⟨[116], [47, 100], 2, 1, 3⟩ [[116]]))
      (fun m => Storable m.tables) fun _ => False := by decide +kernel
  obtain ⟨m, done, storable⟩ := evaluated.exists_ok
  have reached : Reached StorableAtReopen m := reached_first trivial done
  exact ⟨m, reached, done, restored reached storable⟩

/-- At a path of 130 bytes the number of partitions is decoded from other bytes. -/
theorem reopen_long_path :
    Meets (fresh.step (.addTable ⟨[116], List.replicate 130 97, 0, 0, 3⟩ [[116]]))
      (fun m => Meets (m.reopen fun _ => 0) (fun _ => False) (· = .partitionMissing))
      fun _ => False := by
  decide +kernel

theorem not_restored : ¬∀ m, Reached (fun _ _ => True) m → m.Restored := by
  intro restored
  obtain ⟨m, done, fails⟩ := reopen_long_path.exists_ok
  obtain ⟨m', reopened, -⟩ := restored m (reached_first trivial done) fun _ => 0
  exact fails.of_ok reopened

end Metadata

end Vraft.VectorDb
