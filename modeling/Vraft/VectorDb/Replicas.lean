import Vraft.VectorDb.Engine
import Vraft.VectorDb.Lookup

/-!
# Replicas and their engines

The replicas of all tables, the paths of their engines, and what opening these engines
and calling the engine of the database does to them.
-/

namespace Vraft.VectorDb

open Raw Std

/-! ## Replicas of tables -/

/-- A replica of a partition of a table. -/
structure Tables.Has (tables : Tables) (t : Table) (p : Partition) (r : Replica) : Prop where
  table : t ∈ Tables.items tables
  partition : p ∈ t.partitions.items
  replica : r ∈ p.replicas.items

/-- The replicas of all partitions. -/
def Table.replicas (t : Table) : List Replica :=
  t.partitions.items.flatMap fun p => p.replicas.items

/-- The replicas of all tables. -/
def Tables.replicas (tables : Tables) : List Replica :=
  (Tables.items tables).flatMap Table.replicas

/-- How many replicas the tables have. -/
def replicaCount (tables : Tables) : ℕ :=
  ((Tables.items tables).map fun t => times t.partitionNum * times t.replicaNum).sum

section Replicas

variable {tables : Tables} {t t' : Table} {p p' : Partition} {r r' : Replica}

theorem Tables.mem_replicas :
    r ∈ Tables.replicas tables ↔ ∃ t p, Tables.Has tables t p r := by
  simp only [Tables.replicas, Table.replicas, List.mem_flatMap]
  constructor
  · rintro ⟨t, mem, p, inside, within⟩
    exact ⟨t, p, mem, inside, within⟩
  · rintro ⟨t, p, mem, inside, within⟩
    exact ⟨t, mem, p, inside, within⟩

/-- A replica is where its numbers say. -/
theorem Tables.Has.eq (made : Tables.Made tables) (has : Tables.Has tables t p r)
    (has' : Tables.Has tables t' p' r') (same : t = t' ∧ p.id = p'.id ∧ r.id = r'.id) :
    p = p' ∧ r = r' := by
  obtain ⟨rfl, partition, replica⟩ := same
  obtain ⟨partitions, self⟩ := made.partitions has.table
  obtain rfl : p = p' := by
    have found := self.byId.mpr ⟨has.partition, partition⟩
    rw [self.byId.mpr ⟨has'.partition, rfl⟩] at found
    exact (Option.some.inj found).symm
  obtain ⟨replicas, parts⟩ := (made.ofTable has.table has.partition).made
  have found := parts.byId.mpr ⟨has.replica, replica⟩
  rw [parts.byId.mpr ⟨has'.replica, rfl⟩] at found
  exact ⟨rfl, (Option.some.inj found).symm⟩

theorem Tables.items_nodup (made : Tables.Made tables) : (Tables.items tables).Nodup := by
  have names : (Tables.items tables).map Table.name = tables.keys := by
    rw [Tables.items, List.map_map, ← ExtTreeMap.map_fst_toList_eq_keys]
    refine List.map_congr_left fun binding mem => ?_
    exact (made _ _ (ExtTreeMap.mem_toList_iff_getElem?_eq_some.mp mem)).1
  refine List.Nodup.of_map Table.name ?_
  rw [names]
  exact Indexed.nodup_keys _

/-- No replica is there twice. -/
theorem Tables.nodup_replicas (made : Tables.Made tables)
    (apart : ∀ {t p r t' p' r'}, Tables.Has tables t p r → Tables.Has tables t' p' r' → r = r' →
      t = t' ∧ p = p') :
    (Tables.replicas tables).Nodup := by
  refine List.nodup_flatMap.mpr ⟨fun t mem => List.nodup_flatMap.mpr ⟨fun p inside => ?_, ?_⟩, ?_⟩
  · obtain ⟨replicas, parts⟩ := (made.ofTable mem inside).made
    exact parts.items.nodup_iff.mpr parts.nodup.of_map
  · obtain ⟨partitions, self⟩ := made.partitions mem
    have nodup : t.partitions.items.Nodup := self.items.nodup_iff.mpr self.nodup.of_map
    refine nodup.imp_of_mem fun inside inside' differ => ?_
    refine List.disjoint_left.mpr fun r within within' => differ ?_
    exact (apart ⟨mem, inside, within⟩ ⟨mem, inside', within'⟩ rfl).2
  · refine (Tables.items_nodup made).imp_of_mem fun mem mem' differ => ?_
    refine List.disjoint_left.mpr fun r within within' => differ ?_
    obtain ⟨p, inside, within⟩ := List.mem_flatMap.mp within
    obtain ⟨p', inside', within'⟩ := List.mem_flatMap.mp within'
    exact (apart ⟨mem, inside, within⟩ ⟨mem', inside', within'⟩ rfl).1

end Replicas

/-! ## Paths -/

section Paths

theorem cut_last {sep : UInt8} {front front' back back' : Bytes} (plain : ∀ ch ∈ back, ch ≠ sep)
    (plain' : ∀ ch ∈ back', ch ≠ sep) (same : front ++ sep :: back = front' ++ sep :: back') :
    front = front' ∧ back = back' := by
  rcases List.append_eq_append_iff.mp same with ⟨more, rfl, rest⟩ | ⟨more, rfl, rest⟩
  · cases more with
    | nil => exact ⟨(List.append_nil _).symm, (List.cons.inj rest).2⟩
    | cons ch more =>
        refine absurd rfl (plain sep ?_)
        rw [(List.cons.inj rest).2]
        exact List.mem_append_right _ List.mem_cons_self
  · cases more with
    | nil => exact ⟨List.append_nil _, (List.cons.inj rest).2.symm⟩
    | cons ch more =>
        refine absurd rfl (plain' sep ?_)
        rw [(List.cons.inj rest).2]
        exact List.mem_append_right _ List.mem_cons_self

theorem decimal_inj {i j : Int32} (same : decimal i = decimal j) : i = j := by
  rw [← atoi_decimal i, same, atoi_decimal]

/-- The path below the directory of the data tells the table and both numbers. -/
theorem path_inj {name name' : Bytes} {i i' j j' : Int32}
    (same : name ++ 47 :: (name ++ separator :: decimal i) ++
        47 :: (name ++ separator :: decimal i ++ separator :: decimal j) =
      name' ++ 47 :: (name' ++ separator :: decimal i') ++
        47 :: (name' ++ separator :: decimal i' ++ separator :: decimal j')) :
    name = name' ∧ i = i' ∧ j = j' := by
  have number : ∀ {k : Int32}, ∀ ch ∈ decimal k, ch ≠ separator := fun ch mem =>
    (ne_of_mem_decimal mem).2
  have regroup (name : Bytes) (i j : Int32) :
      name ++ 47 :: (name ++ separator :: decimal i) ++
        47 :: (name ++ separator :: decimal i ++ separator :: decimal j) =
      (name ++ 47 :: (name ++ separator :: decimal i) ++ 47 :: name ++ separator :: decimal i) ++
        separator :: decimal j := by
    simp only [List.append_assoc, List.cons_append]
  rw [regroup, regroup] at same
  obtain ⟨same, last⟩ := cut_last number number same
  obtain ⟨same, middle⟩ := cut_last number number same
  have i_eq := decimal_inj middle
  subst i_eq
  have lengths := congrArg List.length same
  simp only [List.length_append, List.length_cons] at lengths
  rw [List.append_assoc, List.append_assoc] at same
  exact ⟨(List.append_inj same (by omega)).1, rfl, decimal_inj last⟩

end Paths

/-! ## Partitions of keys -/

/-- The partition of a key, where there is one. -/
theorem partitionId_eq_ok {num : Int32} (positive : 0 < times num) (key : Bytes) :
    ∃ i < times num, partitionId key num = .ok (Int32.ofNat i) := by
  have nonneg : 0 ≤ num.toInt := by
    rw [times] at positive
    omega
  have size : num.toUInt32.toNat = times num := by
    rw [Int32.toNat_toUInt32_of_le (Int32.le_iff_toInt_le.mpr nonneg)]
    rfl
  have ne : num ≠ 0 := by
    rintro rfl
    exact absurd positive (by decide)
  refine ⟨(crc32 key).toNat % times num, Nat.mod_lt _ positive, ?_⟩
  rw [partitionId, if_neg ne, ← size, ← UInt32.toNat_mod, ← UInt32.toInt32_ofNat',
    UInt32.ofNat_toNat]

/-! ## Opening engines -/

section Opening

variable {e e' : VdbEngine} {rs : List Replica}

/-- The engines after some replicas have been given theirs. -/
def openAll (rs : List Replica) (engines : Engines) : Engines :=
  rs.foldl (fun engines r => engines.insert r.uid r.path) engines

/-- The stores after a path has been given one. -/
def withStore (path : Bytes) (dim : Int32) (disk : Disk) : Disk :=
  match disk[path]? with
  | some _ => disk
  | none => disk.insert path ⟨dim, ∅⟩

/-- The stores after some replicas have been given theirs. -/
def makeAll (rs : List Replica) (disk : Disk) : Disk :=
  rs.foldl (fun disk r => withStore r.path r.dim disk) disk

/-- A store is there, or its directory can be made. -/
def HasRoom (disk : Disk) (path : Bytes) : Prop :=
  disk[path]? = none → MakesDir path

theorem make_eq_ok_iff {path : Bytes} {dim : Int32} {disk disk' : Disk} :
    VEngine.make path dim disk = .ok disk' ↔
      HasRoom disk path ∧ disk' = withStore path dim disk := by
  unfold VEngine.make withStore HasRoom
  cases found : disk[path]? with
  | some store =>
      dsimp only
      rw [Except.ok.injEq, eq_comm]
      exact (and_iff_right nofun).symm
  | none =>
      dsimp only
      by_cases made : MakesDir path
      · rw [if_pos made, Except.ok.injEq, eq_comm]
        exact (and_iff_right fun _ => made).symm
      · rw [if_neg made]
        exact iff_of_false nofun fun both => made (both.1 rfl)

theorem createVEngine_eq_ok {r : Replica} (done : e.createVEngine r = .ok e') :
    e' = { e with
      engines := e.engines.insert r.uid r.path
      disk := withStore r.path r.dim e.disk } := by
  unfold VdbEngine.createVEngine at done
  split at done
  · contradiction
  · obtain ⟨disk, made, done⟩ := ok_of_bind_ok done
    obtain ⟨-, rfl⟩ := make_eq_ok_iff.mp made
    exact (Except.ok.inj done).symm

theorem createVEngines_eq_ok (done : rs.foldlM VdbEngine.createVEngine e = .ok e') :
    e' = { e with engines := openAll rs e.engines, disk := makeAll rs e.disk } := by
  induction rs generalizing e with
  | nil => exact (Except.ok.inj done).symm
  | cons r rs ih =>
      rw [List.foldlM_cons] at done
      obtain ⟨middle, first, rest⟩ := ok_of_bind_ok done
      obtain rfl := createVEngine_eq_ok first
      exact ih rest

theorem getElem?_withStore {path : Bytes} {dim : Int32} {disk : Disk} (k : Bytes) :
    (withStore path dim disk)[k]? =
      if path = k then some (disk[k]?.getD ⟨dim, ∅⟩) else disk[k]? := by
  unfold withStore
  cases found : disk[path]? with
  | some store =>
      dsimp only
      split
      · rename_i same
        rw [← same, found]
        rfl
      · rfl
  | none =>
      dsimp only
      rw [ExtTreeMap.getElem?_insert]
      by_cases same : path = k
      · subst same
        rw [if_pos ReflCmp.compare_self, if_pos rfl, found]
        rfl
      · rw [if_neg fun equal => same (LawfulEqCmp.eq_of_compare equal), if_neg same]

/-- Engines with different paths can be opened where none of them is open and all
directories are there or can be made. -/
theorem exists_createVEngines (differ : (rs.map Replica.path).Nodup)
    (closed : ∀ r ∈ rs, ∀ uid : UInt64, e.engines[uid]? ≠ some r.path)
    (room : ∀ r ∈ rs, HasRoom e.disk r.path) :
    ∃ e', rs.foldlM VdbEngine.createVEngine e = .ok e' := by
  induction rs generalizing e with
  | nil => exact ⟨e, rfl⟩
  | cons r rs ih =>
      rw [List.map_cons, List.nodup_cons] at differ
      rw [List.forall_mem_cons] at closed room
      have first : e.createVEngine r = .ok { e with
          engines := e.engines.insert r.uid r.path
          disk := withStore r.path r.dim e.disk } := by
        rw [VdbEngine.createVEngine, if_neg, make_eq_ok_iff.mpr ⟨room.1, rfl⟩]
        · rfl
        · intro opened
          obtain ⟨binding, mem, same⟩ := List.any_eq_true.mp opened
          rw [ExtTreeMap.mem_toList_iff_getElem?_eq_some, of_decide_eq_true same] at mem
          exact closed.1 _ mem
      rw [List.foldlM_cons, first]
      refine ih differ.2 (fun later mem uid found => ?_) fun later mem absent => ?_
      · dsimp only at found
        rw [ExtTreeMap.getElem?_insert] at found
        split at found
        · exact differ.1 (List.mem_map.mpr ⟨later, mem, (Option.some.inj found).symm⟩)
        · exact closed.2 later mem uid found
      · refine room.2 later mem ?_
        dsimp only at absent
        rw [getElem?_withStore] at absent
        split at absent
        · contradiction
        · exact absent

theorem openAll_of_not_mem {engines : Engines} {uid : UInt64}
    (other : ∀ r ∈ rs, r.uid ≠ uid) : (openAll rs engines)[uid]? = engines[uid]? := by
  induction rs generalizing engines with
  | nil => rfl
  | cons r rs ih =>
      rw [List.forall_mem_cons] at other
      rw [openAll, List.foldl_cons, ← openAll, ih other.2, ExtTreeMap.getElem?_insert,
        if_neg fun same => other.1 (LawfulEqCmp.eq_of_compare same)]

theorem openAll_of_mem {engines : Engines} {r : Replica} (mem : r ∈ rs)
    (apart : ∀ r' ∈ rs, r'.uid = r.uid → r' = r) :
    (openAll rs engines)[r.uid]? = some r.path := by
  induction rs generalizing engines with
  | nil => contradiction
  | cons first rs ih =>
      rw [List.forall_mem_cons] at apart
      rw [openAll, List.foldl_cons, ← openAll]
      by_cases later : r ∈ rs
      · exact ih later apart.2
      · obtain rfl := (List.mem_cons.mp mem).resolve_right later
        rw [openAll_of_not_mem, ExtTreeMap.getElem?_insert_self]
        exact fun r' inside same => later (apart.2 r' inside same ▸ inside)

/-- An engine was open before, or is that of a replica. -/
theorem openAll_eq_some {engines : Engines} {uid : UInt64} {path : Bytes}
    (found : (openAll rs engines)[uid]? = some path) :
    engines[uid]? = some path ∨ ∃ r ∈ rs, r.path = path := by
  induction rs generalizing engines with
  | nil => exact .inl found
  | cons r rs ih =>
      rw [openAll, List.foldl_cons, ← openAll] at found
      rcases ih found with earlier | ⟨r', mem, same⟩
      · rw [ExtTreeMap.getElem?_insert] at earlier
        split at earlier
        · exact .inr ⟨r, List.mem_cons_self, Option.some.inj earlier⟩
        · exact .inl earlier
      · exact .inr ⟨r', List.mem_cons_of_mem _ mem, same⟩

/-- A store that is there stays as it is, and others are made empty. -/
theorem getElem?_makeAll {disk : Disk} (path : Bytes) :
    (makeAll rs disk)[path]? =
      disk[path]?.or ((rs.find? fun r => r.path = path).map fun r => ⟨r.dim, ∅⟩) := by
  induction rs generalizing disk with
  | nil => simp [makeAll]
  | cons r rs ih =>
      rw [makeAll, List.foldl_cons, ← makeAll, ih, getElem?_withStore, List.find?_cons]
      by_cases same : r.path = path
      · rw [if_pos same, decide_eq_true same]
        cases disk[path]? <;> rfl
      · rw [if_neg same, decide_eq_false same]

end Opening

/-! ## What one call does -/

section Calls

variable {e e' : VdbEngine} {rv : ℤ}

theorem ofMetadata_eq_ok {α : Type} {out : Except MetadataFault α} {value : α}
    (done : ofMetadata out = .ok value) : out = .ok value := by
  cases out with
  | error fault => contradiction
  | ok found => exact congrArg Except.ok (Except.ok.inj done)

theorem addTable_eq_ok {param : AddTableParam} {order : List Bytes}
    (done : e.addTable param order = .ok (rv, e')) :
    (e' = e ∧ ∃ t, e.metadata.tables[param.name]? = some t) ∨
      (e.metadata.tables[param.name]? = none ∧ ∃ m rs,
        e.metadata.addTable (e.tableParam param) order = .ok (0, m) ∧
          forEachReplicaInTable m.tables param.name = .ok rs ∧
            e' = { e with
              metadata := m
              engines := openAll rs e.engines
              disk := makeAll rs e.disk }) := by
  obtain ⟨⟨rv', m⟩, added, done⟩ := ok_of_bind_ok done
  have added := ofMetadata_eq_ok added
  have run := added
  unfold Metadata.addTable at run
  have named : (e.tableParam param).name = param.name := rfl
  rw [named] at run
  cases found : e.metadata.tables[param.name]? with
  | some t =>
      rw [found] at run
      obtain ⟨rfl, rfl⟩ := Prod.mk.inj (Except.ok.inj run)
      obtain ⟨-, rfl⟩ := Prod.mk.inj (Except.ok.inj done)
      exact .inl ⟨rfl, t, rfl⟩
  | none =>
      rw [found] at run
      obtain ⟨db, -, run⟩ := ok_of_bind_ok run
      obtain ⟨rfl, -⟩ := Prod.mk.inj (Except.ok.inj run)
      obtain ⟨rs, visited, done⟩ := ok_of_bind_ok done
      obtain ⟨final, opened, done⟩ := ok_of_bind_ok done
      obtain ⟨-, rfl⟩ := Prod.mk.inj (Except.ok.inj done)
      exact .inr ⟨rfl, m, rs, added, ofMetadata_eq_ok visited, createVEngines_eq_ok opened⟩

/-- The same stores with the same dimensions. -/
def SameStores (disk disk' : Disk) : Prop :=
  ∀ path : Bytes, (disk'[path]?).map Store.dim = (disk[path]?).map Store.dim

theorem sameStores_insert {disk : Disk} {path : Bytes} {store : Store}
    (found : disk[path]? = some store) (data : Db) :
    SameStores disk (disk.insert path { store with data }) := by
  intro k
  rw [ExtTreeMap.getElem?_insert]
  split
  · rename_i same
    rw [← LawfulEqCmp.eq_of_compare same, found]
    rfl
  · rfl

theorem VEngine.put_eq_ok {path key : Bytes} {vv : VecValue} {disk disk' : Disk}
    (done : VEngine.put path key vv disk = .ok (rv, disk')) :
    ∃ store, disk[path]? = some store ∧
      ((dimOf vv.vec ≠ store.dim ∧ disk' = disk) ∨
        (dimOf vv.vec = store.dim ∧ vv.maxBytes < 2 ^ 31 ∧
          disk' = disk.insert path { store with data := store.data.insert key vv.toBytes })) := by
  unfold VEngine.put at done
  split at done
  · contradiction
  · rename_i store found
    refine ⟨store, found, ?_⟩
    split at done
    · rename_i other
      exact .inl ⟨other, (Prod.mk.inj (Except.ok.inj done)).2.symm⟩
    · rename_i same
      obtain ⟨value, written, done⟩ := ok_of_bind_ok done
      obtain ⟨rfl, fits, -⟩ := toString_eq_ok (ofMetadata_eq_ok written)
      exact .inr ⟨not_not.mp same, fits, (Prod.mk.inj (Except.ok.inj done)).2.symm⟩

theorem VEngine.delete_eq_ok {path key : Bytes} {disk disk' : Disk}
    (done : VEngine.delete path key disk = .ok (rv, disk')) :
    ∃ store, disk[path]? = some store ∧
      disk' = disk.insert path { store with data := store.data.erase key } := by
  unfold VEngine.delete at done
  split at done
  · contradiction
  · rename_i store found
    exact ⟨store, found, (Prod.mk.inj (Except.ok.inj done)).2.symm⟩

theorem sameStores_of_put {table key : Bytes} {vv : VecValue}
    (done : e.put table key vv = .ok (rv, e')) :
    ∃ disk, e' = { e with disk } ∧ SameStores e.disk disk := by
  obtain ⟨engine, -, done⟩ := ok_of_bind_ok done
  cases engine with
  | none =>
      obtain ⟨-, rfl⟩ := Prod.mk.inj (Except.ok.inj done)
      exact ⟨_, rfl, fun _ => rfl⟩
  | some path =>
      obtain ⟨⟨rv', disk⟩, written, done⟩ := ok_of_bind_ok done
      obtain ⟨-, rfl⟩ := Prod.mk.inj (Except.ok.inj done)
      refine ⟨disk, rfl, ?_⟩
      obtain ⟨store, found, ⟨-, rfl⟩ | ⟨-, -, rfl⟩⟩ := VEngine.put_eq_ok written
      · exact fun _ => rfl
      · exact sameStores_insert found _

theorem sameStores_of_delete {table key : Bytes}
    (done : e.delete table key = .ok (rv, e')) :
    ∃ disk, e' = { e with disk } ∧ SameStores e.disk disk := by
  obtain ⟨engine, -, done⟩ := ok_of_bind_ok done
  cases engine with
  | none =>
      obtain ⟨-, rfl⟩ := Prod.mk.inj (Except.ok.inj done)
      exact ⟨_, rfl, fun _ => rfl⟩
  | some path =>
      obtain ⟨⟨rv', disk⟩, written, done⟩ := ok_of_bind_ok done
      obtain ⟨-, rfl⟩ := Prod.mk.inj (Except.ok.inj done)
      obtain ⟨store, found, rfl⟩ := VEngine.delete_eq_ok written
      exact ⟨_, rfl, sameStores_insert found _⟩

end Calls

/-! ## New replicas -/

section New

variable {param : TableParam} {counters : Counters}

/-- The identifiers of new replicas follow each other. -/
theorem uid_of_created {p : Partition} {r : Replica}
    (inside : p ∈ (createTable param counters).1.partitions.items)
    (within : r ∈ p.replicas.items) :
    ∃ i < times param.partitionNum, ∃ j < times param.replicaNum,
      p.id = Int32.ofNat i ∧ r.id = Int32.ofNat j ∧
        r.uid = counters.replicaUid + UInt64.ofNat (i * times param.replicaNum + j) := by
  obtain ⟨i, lt, rfl⟩ := mem_created.mp inside
  obtain ⟨j, below, rfl⟩ := mem_replicas_partitionOf.mp within
  refine ⟨i, lt, j, below, partitionOf_id _ _, rfl, ?_⟩
  rw [UInt64.ofNat_add, ← add_assoc]
  rfl

theorem toNat_uid_of_created {p : Partition} {r : Replica} {count : ℕ}
    (inside : p ∈ (createTable param counters).1.partitions.items)
    (within : r ∈ p.replicas.items) (own : counters.replicaUid.toNat = count)
    (room : count + times param.partitionNum * times param.replicaNum ≤ 2 ^ 64) :
    ∃ i < times param.partitionNum, ∃ j < times param.replicaNum,
      p.id = Int32.ofNat i ∧ r.id = Int32.ofNat j ∧
        i * times param.replicaNum + j < times param.partitionNum * times param.replicaNum ∧
          r.uid.toNat = count + (i * times param.replicaNum + j) := by
  obtain ⟨i, lt, j, below, partition, replica, uid⟩ := uid_of_created inside within
  have small : i * times param.replicaNum + j <
      times param.partitionNum * times param.replicaNum := by
    calc i * times param.replicaNum + j < (i + 1) * times param.replicaNum := by
          rw [Nat.succ_mul]
          omega
      _ ≤ times param.partitionNum * times param.replicaNum := Nat.mul_le_mul_right _ lt
  refine ⟨i, lt, j, below, partition, replica, small, ?_⟩
  have value : counters.replicaUid = UInt64.ofNat count := by
    rw [← own, UInt64.ofNat_toNat]
  rw [uid, value, ← UInt64.ofNat_add, UInt64.toNat_ofNat', Nat.mod_eq_of_lt (by omega)]

end New

end Vraft.VectorDb
