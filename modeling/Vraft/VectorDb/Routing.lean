import Vraft.VectorDb.Replicas

/-!
# Routing keys to engines

A key is routed by its checksum to a partition, by names to the first replica of this
partition, and by the identifier of the replica to an engine.  So it reaches the engine
that was created for the replica if there are partitions and replicas at all, their
names are found again, and no identifier has been given twice.
-/

namespace Vraft.VectorDb

open Raw Std

/-! ## Names and paths -/

/-- The tables have names that can be told apart, and paths below one directory. -/
structure Placed (dataPath : Bytes) (tables : Tables) : Prop where
  made : Tables.Made tables
  nameable : ∀ t ∈ Tables.items tables, t.Nameable
  path : ∀ t ∈ Tables.items tables, t.path = joinPath dataPath t.name

namespace Placed

variable {dataPath : Bytes} {tables : Tables} {t t' : Table} {p p' : Partition} {r r' : Replica}

theorem named (placed : Placed dataPath tables) : Named tables :=
  (named_iff placed.made).mpr placed.nameable

/-- The names of a partition and a replica are composed of the numbers. -/
theorem names (placed : Placed dataPath tables) (has : Tables.Has tables t p r) :
    p.name = t.name ++ separator :: decimal p.id ∧
      r.name = t.name ++ separator :: decimal p.id ++ separator :: decimal r.id := by
  have made := placed.made
  have found := placed.named.partition t has.table p has.partition
  obtain ⟨plain, fits⟩ := (getPartition_name_iff made has.table has.partition).mp found
  have room := (getReplica_name_iff made has.table has.partition has.replica found).mp
    (placed.named.replica t has.table p has.partition r has.replica)
  have base : p.name = t.name ++ separator :: decimal p.id := by
    rw [(made.ofTable has.table has.partition).name]
    exact numberedName_of_noNul plain.noNul fits
  refine ⟨base, ?_⟩
  rw [(made.ofPartition has.table has.partition has.replica).name, base]
  refine numberedName_of_noNul (noNul_numbered plain.noNul) ?_
  rw [List.length_append, List.length_cons]
  omega

/-- Different replicas have different paths. -/
theorem paths (placed : Placed dataPath tables) (has : Tables.Has tables t p r)
    (has' : Tables.Has tables t' p' r') (same : r.path = r'.path) :
    t = t' ∧ p = p' ∧ r = r' := by
  have made := placed.made
  have composed {t p r} (has : Tables.Has tables t p r) :
      r.path = dataPath ++ 47 :: (t.name ++ 47 :: (t.name ++ separator :: decimal p.id) ++
        47 :: (t.name ++ separator :: decimal p.id ++ separator :: decimal r.id)) := by
    obtain ⟨partition, replica⟩ := placed.names has
    rw [(made.ofPartition has.table has.partition has.replica).path,
      (made.ofTable has.table has.partition).path, placed.path t has.table, partition, replica]
    simp only [joinPath, List.append_assoc, List.cons_append]
  rw [composed has, composed has'] at same
  obtain ⟨name, partition, replica⟩ := path_inj (List.cons.inj (List.append_cancel_left same)).2
  have table := made.eq_of_name has.table has'.table name
  exact ⟨table, has.eq made has' ⟨table, partition, replica⟩⟩

theorem nodup_paths (placed : Placed dataPath tables) :
    ((Tables.replicas tables).map Replica.path).Nodup := by
  have apart {t p r t' p' r'} (has : Tables.Has tables t p r) (has' : Tables.Has tables t' p' r')
      (same : r = r') : t = t' ∧ p = p' := by
    obtain ⟨table, partition, -⟩ := placed.paths has has' (congrArg Replica.path same)
    exact ⟨table, partition⟩
  refine List.Nodup.map_on (fun r mem r' mem' same => ?_) (Tables.nodup_replicas placed.made apart)
  obtain ⟨t, p, has⟩ := Tables.mem_replicas.mp mem
  obtain ⟨t', p', has'⟩ := Tables.mem_replicas.mp mem'
  exact (placed.paths has has' same).2.2

/-- The replicas of all tables, as they are visited. -/
theorem visited (placed : Placed dataPath tables) {order : List Bytes}
    (perm : order.Perm tables.keys) :
    ∃ visited, order.mapM (forEachReplicaInTable tables) = .ok visited ∧
      visited.flatten.Perm (Tables.replicas tables) := by
  have made := placed.made
  have each : ∀ name ∈ order, ∃ t ∈ Tables.items tables, t.name = name := by
    intro name mem
    have inside := perm.mem_iff.mp mem
    rw [ExtTreeMap.mem_keys] at inside
    have found := ExtTreeMap.getElem?_eq_some_getElem inside
    exact ⟨_, Tables.mem_items.mpr ⟨name, found⟩, (made _ _ found).1⟩
  let look := fun name =>
    (forEachReplicaInTable tables name).toOption.getD []
  have ok : ∀ name ∈ order, forEachReplicaInTable tables name = .ok (look name) := by
    intro name mem
    obtain ⟨t, inside, rfl⟩ := each name mem
    obtain ⟨visited, done, -⟩ := placed.named.visits t inside
    simp only [look, done, Except.toOption, Option.getD_some]
  refine ⟨_, mapM_eq_ok_map ok, ?_⟩
  have names : tables.keys = (Tables.items tables).map Table.name := by
    rw [Tables.items, List.map_map, ← ExtTreeMap.map_fst_toList_eq_keys]
    refine List.map_congr_left fun binding mem => ?_
    exact (made _ _ (ExtTreeMap.mem_toList_iff_getElem?_eq_some.mp mem)).1.symm
  rw [← List.flatMap_def]
  refine (perm.flatMap_right look).trans ?_
  rw [names, List.flatMap_map]
  refine List.Perm.flatMap_left _ fun t inside => ?_
  obtain ⟨visited, done, perm⟩ := placed.named.visits t inside
  have looked : look t.name = visited := by
    simp only [look, done, Except.toOption, Option.getD_some]
  rw [looked]
  exact perm

end Placed

namespace VdbEngine

/-- Every key of every table has the engine that was created for the first replica of
its partition, and no other replica has this engine. -/
def Routed (e : VdbEngine) : Prop :=
  ∀ t ∈ Tables.items e.metadata.tables, ∀ key : Bytes, ∃ p r,
    Tables.Has e.metadata.tables t p r ∧
      partitionId key t.partitionNum = .ok p.id ∧
        0 ≤ p.id.toInt ∧ p.id.toInt < t.partitionNum.toInt ∧ r.id = 0 ∧
          e.getVEngine t.name key = .ok (some r.path) ∧
            ∀ t' p' r', Tables.Has e.metadata.tables t' p' r' → r'.path = r.path →
              t' = t ∧ p' = p ∧ r' = r

/-- A table is added with a partition and a replica at least, with names that can be
told apart, and by the process that has created all replicas there are.  The database
is opened again only while its metadata can be restored. -/
def Routable (e : VdbEngine) : Event → Prop
  | .addTable param _ => e.metadata.tables[param.name]? = none →
      0 < times param.partitionNum ∧ 0 < times param.replicaNum ∧
        (newTable (e.tableParam param) e.metadata.counters).Nameable ∧
          e.metadata.counters.replicaUid.toNat = replicaCount e.metadata.tables ∧
            replicaCount e.metadata.tables + times param.partitionNum * times param.replicaNum ≤
              2 ^ 64
  | .reopen _ _ => Storable e.metadata.tables
  | _ => True

/-! ## The invariant -/

/-- The metadata can be trusted, every replica has the engine and the store that were
created for it, and there are no others. -/
structure Consistent (e : VdbEngine) : Prop where
  sound : e.metadata.Sound
  placed : Placed e.dataPath e.metadata.tables
  counted : ∀ t ∈ Tables.items e.metadata.tables,
    0 < times t.partitionNum ∧ 0 < times t.replicaNum
  uid : ∀ {t p r t' p' r'}, Tables.Has e.metadata.tables t p r →
    Tables.Has e.metadata.tables t' p' r' → r.uid = r'.uid →
      t = t' ∧ p.id = p'.id ∧ r.id = r'.id
  below : e.metadata.counters.replicaUid.toNat = replicaCount e.metadata.tables →
    ∀ {t p r}, Tables.Has e.metadata.tables t p r → r.uid.toNat < replicaCount e.metadata.tables
  engines : ∀ {t p r}, Tables.Has e.metadata.tables t p r →
    e.engines[r.uid]? = some r.path
  opened : ∀ {uid : UInt64} {path : Bytes}, e.engines[uid]? = some path →
    ∃ t p r, Tables.Has e.metadata.tables t p r ∧ r.path = path
  stores : ∀ {t p r}, Tables.Has e.metadata.tables t p r →
    ∃ store, e.disk[r.path]? = some store ∧ store.dim = t.dim
  disk : ∀ {path : Bytes} {store}, e.disk[path]? = some store →
    ∃ t p r, Tables.Has e.metadata.tables t p r ∧ r.path = path

theorem consistent_fresh (dataPath : Bytes) : Consistent (fresh dataPath) := by
  have none_there : Tables.items (fresh dataPath).metadata.tables = [] := rfl
  have nothing {t p r} {post : Prop} (has : Tables.Has (fresh dataPath).metadata.tables t p r) :
      post := absurd has.table List.not_mem_nil
  constructor
  · exact Metadata.sound_fresh
  · exact ⟨Metadata.sound_fresh.made, fun t mem => absurd mem List.not_mem_nil,
      fun t mem => absurd mem List.not_mem_nil⟩
  · exact fun t mem => absurd mem List.not_mem_nil
  · exact fun has _ _ => nothing has
  · exact fun _ _ _ _ has => nothing has
  · exact fun has => nothing has
  · intro uid path found
    simp [fresh] at found
  · exact fun has => nothing has
  · intro path store found
    simp [fresh] at found

theorem mul_add_inj {num i i' j j' : ℕ} (below : j < num) (below' : j' < num)
    (same : i * num + j = i' * num + j') : i = i' ∧ j = j' := by
  have positive : 0 < num := by omega
  have quotient := congrArg (· / num) same
  have rest := congrArg (· % num) same
  simp only [Nat.mul_comm _ num, Nat.mul_add_div positive, Nat.mul_add_mod, Nat.div_eq_of_lt below,
    Nat.div_eq_of_lt below', Nat.mod_eq_of_lt below, Nat.mod_eq_of_lt below'] at quotient rest
  exact ⟨by omega, rest⟩

namespace Consistent

variable {e : VdbEngine} {t : Table} {p : Partition} {r : Replica}

theorem routed (consistent : e.Consistent) : e.Routed := by
  intro t mem key
  have made := consistent.sound.made
  obtain ⟨positive, some_replica⟩ := consistent.counted t mem
  obtain ⟨i, lt, selected⟩ := partitionId_eq_ok positive key
  obtain ⟨partitions, self⟩ := made.partitions mem
  obtain ⟨p, inside, number⟩ := self.id_iff.mpr ⟨i, lt, rfl⟩
  have belongs := made.ofTable mem inside
  obtain ⟨replicas, parts⟩ := belongs.made
  obtain ⟨r, within, zero⟩ := parts.id_iff.mpr ⟨0, by rw [belongs.replicaNum]; exact some_replica, rfl⟩
  have has : Tables.Has e.metadata.tables t p r := ⟨mem, inside, within⟩
  have found : getReplica e.metadata.tables (replicaName (partitionName t.name (Int32.ofNat i)) 0) =
      .ok (some r) := by
    have replica := consistent.placed.named.replica t mem p inside r within
    have zero : r.id = 0 := zero
    rwa [(made.ofPartition mem inside within).name, belongs.name, number, zero] at replica
  have small := times_lt t.partitionNum
  refine ⟨p, r, has, by rw [number]; exact selected, ?_, ?_, zero, ?_, ?_⟩
  · rw [number]
    exact toInt_nonneg lt
  · rw [number, toInt_ofNat (by omega)]
    rw [times] at lt
    omega
  · unfold getVEngine
    rw [made.found mem]
    dsimp only
    rw [selected, ok_bind, found]
    exact congrArg Except.ok (consistent.engines has)
  · exact fun t' p' r' has' same => consistent.placed.paths has' has same

/-! ## Steps -/

/-- Contents do not matter. -/
theorem of_sameStores (consistent : e.Consistent) {disk : Disk} (same : SameStores e.disk disk) :
    Consistent { e with disk } := by
  refine { consistent with stores := fun {_ _ r} has => ?_, disk := fun {path store} found => ?_ }
  · obtain ⟨store, found, dim⟩ := consistent.stores has
    have there := same r.path
    rw [found, Option.map_some, Option.map_eq_some_iff] at there
    obtain ⟨store', found', dim'⟩ := there
    exact ⟨store', found', dim'.trans dim⟩
  · have there := same path
    dsimp only at found
    rw [found, Option.map_some, eq_comm, Option.map_eq_some_iff] at there
    obtain ⟨store', found', -⟩ := there
    exact consistent.disk found'

/-- There are replicas if they are counted. -/
theorem replicaCount_pos (consistent : e.Consistent) (has : Tables.Has e.metadata.tables t p r) :
    0 < replicaCount e.metadata.tables := by
  obtain ⟨partition, replica⟩ := consistent.counted t has.table
  exact (Nat.mul_pos partition replica).trans_le
    (List.single_le_sum (fun _ _ => Nat.zero_le _) _ (List.mem_map_of_mem has.table))

/-- What has been opened again: the same stores, and every replica has its engine. -/
theorem reopen (consistent : e.Consistent) (storable : Storable e.metadata.tables)
    {beyond : Memory} {order : List Bytes} (visits : e.Visits (.reopen beyond order)) :
    ∃ engines : Engines, e.reopen beyond order = .ok { e with
        metadata := ⟨.zero, e.metadata.tables, e.metadata.db⟩
        engines } ∧
      (∀ {t p r}, Tables.Has e.metadata.tables t p r → engines[r.uid]? = some r.path) ∧
        ∀ {uid : UInt64} {path : Bytes}, engines[uid]? = some path →
          ∃ t p r, Tables.Has e.metadata.tables t p r ∧ r.path = path := by
  have made := consistent.sound.made
  have metadata := consistent.sound.reopen storable beyond
  have listed : order.Perm e.metadata.tables.keys :=
    visits ⟨.zero, e.metadata.tables, e.metadata.db⟩ metadata
  obtain ⟨visited, looked, perm⟩ := consistent.placed.visited listed
  have has_of_mem {r} (mem : r ∈ visited.flatten) : ∃ t p, Tables.Has e.metadata.tables t p r :=
    Tables.mem_replicas.mp (perm.mem_iff.mp mem)
  have differ : (visited.flatten.map Replica.path).Nodup :=
    (perm.map Replica.path).nodup_iff.mpr consistent.placed.nodup_paths
  have made_all : makeAll visited.flatten e.disk = e.disk := by
    refine ExtTreeMap.ext_getElem? fun path => ?_
    rw [getElem?_makeAll]
    cases found : e.disk[path]? with
    | some store => rfl
    | none =>
        rw [Option.none_or, Option.map_eq_none_iff, List.find?_eq_none]
        intro r mem same
        obtain ⟨t, p, has⟩ := has_of_mem mem
        obtain ⟨store, there, -⟩ := consistent.stores has
        rw [of_decide_eq_true same, found] at there
        contradiction
  obtain ⟨e', opened⟩ := exists_createVEngines
    (e := { e with metadata := ⟨.zero, e.metadata.tables, e.metadata.db⟩, engines := ∅ })
    differ (fun r _ uid found => by simp at found) fun r mem absent => by
      obtain ⟨t, p, has⟩ := has_of_mem mem
      obtain ⟨store, there, -⟩ := consistent.stores has
      exact absurd (absent.symm.trans there) nofun
  refine ⟨openAll visited.flatten ∅, ?_, fun {t p r} has => ?_, fun {uid path} found => ?_⟩
  · rw [VdbEngine.reopen, metadata]
    have final := createVEngines_eq_ok opened
    dsimp only at final
    rw [made_all] at final
    rw [final] at opened
    rw [← opened]
    show (ofMetadata (order.mapM (forEachReplicaInTable e.metadata.tables)) >>= _) = _
    rw [looked]
    rfl
  · refine openAll_of_mem (perm.mem_iff.mpr (Tables.mem_replicas.mpr ⟨t, p, has⟩)) ?_
    intro r' mem same
    obtain ⟨t', p', has'⟩ := has_of_mem mem
    exact (has'.eq made has (consistent.uid has' has same)).2
  · rcases openAll_eq_some found with earlier | ⟨r, mem, same⟩
    · simp at earlier
    · obtain ⟨t, p, has⟩ := has_of_mem mem
      exact ⟨t, p, r, has, same⟩

section Adding

variable {m : Metadata} {param : AddTableParam} {order : List Bytes} {rs : List Replica}

/-- A table that is added finds its place. -/
theorem placed_insert (consistent : e.Consistent) (absent : e.metadata.tables[param.name]? = none)
    (nameable : (newTable (e.tableParam param) e.metadata.counters).Nameable)
    {tables : Tables} (inserted : tables = e.metadata.tables.insert param.name
      (createTable (e.tableParam param) e.metadata.counters).1) :
    Placed e.dataPath tables := by
  have new : (createTable (e.tableParam param) e.metadata.counters).1.Nameable ∧
      (createTable (e.tableParam param) e.metadata.counters).1.path =
        joinPath e.dataPath (createTable (e.tableParam param) e.metadata.counters).1.name := by
    rw [createTable_eq]
    exact ⟨nameable, rfl⟩
  subst inserted
  refine ⟨consistent.sound.made.insert (e.tableParam param) e.metadata.counters, ?_, ?_⟩
  · intro t mem
    rcases (mem_items_insert absent).mp mem with rfl | earlier
    · exact new.1
    · exact consistent.placed.nameable t earlier
  · intro t mem
    rcases (mem_items_insert absent).mp mem with rfl | earlier
    · exact new.2
    · exact consistent.placed.path t earlier

/-- There is no store yet where a new replica will have its own. -/
theorem no_store (consistent : e.Consistent) {name : Bytes} {new : Table} {tables : Tables}
    (absent : e.metadata.tables[name]? = none) (placed : Placed e.dataPath tables)
    (inserted : tables = e.metadata.tables.insert name new)
    (differ : new ∉ Tables.items e.metadata.tables) (has : Tables.Has tables new p r) :
    e.disk[r.path]? = none := by
  refine Option.eq_none_iff_forall_ne_some.mpr fun store found => ?_
  obtain ⟨t', p', r', has', same⟩ := consistent.disk found
  have there : Tables.Has tables t' p' r' := by
    refine ⟨?_, has'.partition, has'.replica⟩
    rw [inserted]
    exact (mem_items_insert absent).mpr (.inr has'.table)
  obtain ⟨rfl, -, -⟩ := placed.paths there has same
  exact differ has'.table

theorem not_mem_of_absent (consistent : e.Consistent) {new : Table}
    (absent : e.metadata.tables[new.name]? = none) : new ∉ Tables.items e.metadata.tables := by
  intro mem
  rw [consistent.placed.made.found mem] at absent
  contradiction

theorem addTable (consistent : e.Consistent) {e' : VdbEngine} {rv : ℤ}
    (visits : e.Visits (.addTable param order)) (meets : e.Routable (.addTable param order))
    (done : e.addTable param order = .ok (rv, e')) : e'.Consistent := by
  rcases addTable_eq_ok done with ⟨rfl, -⟩ | ⟨absent, m, rs, added, listed, rfl⟩
  · exact consistent
  obtain ⟨partition, replica, nameable, own, room⟩ := meets absent
  have sound : m.Sound := consistent.sound.addTable visits added
  rcases Metadata.addTable_eq_ok added with ⟨-, t, found⟩ | ⟨-, counters, tables, -⟩
  · exact absurd (absent.symm.trans found) nofun
  change m.tables = e.metadata.tables.insert param.name _ at tables
  have placed := consistent.placed_insert absent nameable tables
  have created {p r}
      (inside : p ∈ (createTable (e.tableParam param) e.metadata.counters).1.partitions.items)
      (within : r ∈ p.replicas.items) :
      ∃ i < times param.partitionNum, ∃ j < times param.replicaNum,
        p.id = Int32.ofNat i ∧ r.id = Int32.ofNat j ∧
          i * times param.replicaNum + j < times param.partitionNum * times param.replicaNum ∧
            r.uid.toNat =
              replicaCount e.metadata.tables + (i * times param.replicaNum + j) :=
    toNat_uid_of_created inside within own room
  have nums : (createTable (e.tableParam param) e.metadata.counters).1.partitionNum =
      param.partitionNum ∧ (createTable (e.tableParam param) e.metadata.counters).1.replicaNum =
        param.replicaNum := by
    rw [createTable_eq]
    exact ⟨rfl, rfl⟩
  have name : (createTable (e.tableParam param) e.metadata.counters).1.name = param.name := by
    rw [createTable_eq]
    rfl
  generalize (createTable (e.tableParam param) e.metadata.counters).1 = new at *
  have differ : new ∉ Tables.items e.metadata.tables :=
    consistent.not_mem_of_absent (by rw [name]; exact absent)
  have count : replicaCount m.tables = replicaCount e.metadata.tables +
      times param.partitionNum * times param.replicaNum := by
    rw [tables, replicaCount, ((items_insert absent).map _).sum_eq, List.map_cons, List.sum_cons,
      Nat.add_comm, nums.1, nums.2]
    rfl
  have mem_new : new ∈ Tables.items m.tables := by
    rw [tables]
    exact (mem_items_insert absent).mpr (.inl rfl)
  obtain ⟨visited, looked, perm⟩ := placed.named.visits new mem_new
  rw [name, listed] at looked
  obtain rfl := Except.ok.inj looked
  have mem_rs {r} : r ∈ rs ↔ ∃ p ∈ new.partitions.items, r ∈ p.replicas.items := by
    rw [perm.mem_iff, List.mem_flatMap]
  have cases_of_has {t p r} (has : Tables.Has m.tables t p r) :
      (t = new ∧ p ∈ new.partitions.items ∧ r ∈ p.replicas.items) ∨
        Tables.Has e.metadata.tables t p r := by
    have mem := has.table
    rw [tables] at mem
    rcases (mem_items_insert absent).mp mem with rfl | earlier
    · exact .inl ⟨rfl, has.partition, has.replica⟩
    · exact .inr ⟨earlier, has.partition, has.replica⟩
  have uid {t p r t' p' r'} (has : Tables.Has m.tables t p r) (has' : Tables.Has m.tables t' p' r')
      (same : r.uid = r'.uid) : t = t' ∧ p.id = p'.id ∧ r.id = r'.id := by
    rcases cases_of_has has with ⟨rfl, inside, within⟩ | earlier <;>
      rcases cases_of_has has' with ⟨rfl, inside', within'⟩ | earlier'
    · obtain ⟨i, lt, j, below, pid, rid, -, value⟩ := created inside within
      obtain ⟨i', lt', j', below', pid', rid', -, value'⟩ := created inside' within'
      rw [same, value'] at value
      have equal : i' * times param.replicaNum + j' = i * times param.replicaNum + j := by omega
      obtain ⟨i_eq, j_eq⟩ := mul_add_inj below' below equal
      exact ⟨rfl, by rw [pid, pid', i_eq], by rw [rid, rid', j_eq]⟩
    · obtain ⟨_, _, _, _, _, _, _, value⟩ := created inside within
      have := consistent.below own earlier'
      rw [← same, value] at this
      omega
    · obtain ⟨_, _, _, _, _, _, _, value⟩ := created inside' within'
      have := consistent.below own earlier
      rw [same, value] at this
      omega
    · exact consistent.uid earlier earlier' same
  constructor
  · exact sound
  · exact placed
  · rw [tables]
    intro t mem
    rcases (mem_items_insert absent).mp mem with rfl | earlier
    · rw [nums.1, nums.2]
      exact ⟨partition, replica⟩
    · exact consistent.counted t earlier
  · exact uid
  · intro _ t p r has
    show r.uid.toNat < replicaCount m.tables
    rw [count]
    rcases cases_of_has has with ⟨rfl, inside, within⟩ | earlier
    · obtain ⟨_, _, _, _, _, _, small, value⟩ := created inside within
      omega
    · have := consistent.below own earlier
      omega
  · intro t p r has
    show (openAll rs e.engines)[r.uid]? = _
    rcases cases_of_has has with ⟨rfl, inside, within⟩ | earlier
    · refine openAll_of_mem (mem_rs.mpr ⟨p, inside, within⟩) fun r' mem same => ?_
      obtain ⟨p', inside', within'⟩ := mem_rs.mp mem
      have has' : Tables.Has m.tables t p' r' := ⟨mem_new, inside', within'⟩
      exact (has'.eq sound.made has (uid has' has same)).2
    · rw [openAll_of_not_mem, consistent.engines earlier]
      intro r' mem same
      obtain ⟨p', inside', within'⟩ := mem_rs.mp mem
      obtain ⟨_, _, _, _, _, _, _, value⟩ := created inside' within'
      have := consistent.below own earlier
      rw [← same, value] at this
      omega
  · intro uid path found
    have earlier {t p r} (has : Tables.Has e.metadata.tables t p r) : Tables.Has m.tables t p r := by
      refine ⟨?_, has.partition, has.replica⟩
      rw [tables]
      exact (mem_items_insert absent).mpr (.inr has.table)
    rcases openAll_eq_some found with before | ⟨r, mem, same⟩
    · obtain ⟨t, p, r, has, same⟩ := consistent.opened before
      exact ⟨t, p, r, earlier has, same⟩
    · obtain ⟨p, inside, within⟩ := mem_rs.mp mem
      exact ⟨new, p, r, ⟨mem_new, inside, within⟩, same⟩
  · intro t p r has
    show ∃ store, (makeAll rs e.disk)[r.path]? = some store ∧ _
    rw [getElem?_makeAll]
    rcases cases_of_has has with ⟨rfl, inside, within⟩ | earlier
    · have fresh_path := consistent.no_store absent placed tables differ has
      obtain ⟨r', selected⟩ : ∃ r', rs.find? (fun r' => decide (r'.path = r.path)) = some r' :=
        Option.isSome_iff_exists.mp (List.find?_isSome.mpr
          ⟨r, mem_rs.mpr ⟨p, inside, within⟩, decide_eq_true rfl⟩)
      obtain ⟨p', inside', within'⟩ := mem_rs.mp (List.mem_of_find?_eq_some selected)
      refine ⟨⟨r'.dim, ∅⟩, by rw [fresh_path, selected]; rfl, ?_⟩
      exact (sound.made.ofPartition mem_new inside' within').dim.trans
        (sound.made.ofTable mem_new inside').dim
    · obtain ⟨store, found, dim⟩ := consistent.stores earlier
      exact ⟨store, by rw [found]; rfl, dim⟩
  · intro path store found
    change (makeAll rs e.disk)[path]? = some store at found
    rw [getElem?_makeAll, Option.or_eq_some_iff] at found
    rcases found with there | ⟨-, made⟩
    · obtain ⟨t, p, r, has, same⟩ := consistent.disk there
      refine ⟨t, p, r, ⟨?_, has.partition, has.replica⟩, same⟩
      show t ∈ Tables.items m.tables
      rw [tables]
      exact (mem_items_insert absent).mpr (.inr has.table)
    · obtain ⟨r, selected, -⟩ := Option.map_eq_some_iff.mp made
      obtain ⟨p, inside, within⟩ := mem_rs.mp (List.mem_of_find?_eq_some selected)
      have chosen := List.find?_some selected
      exact ⟨new, p, r, ⟨mem_new, inside, within⟩, of_decide_eq_true chosen⟩

end Adding

theorem step (consistent : e.Consistent) {event : Event} {e' : VdbEngine} (visits : e.Visits event)
    (meets : e.Routable event) (done : e.step event = .ok e') : e'.Consistent := by
  cases event with
  | addTable param order =>
      obtain ⟨⟨rv, after⟩, added, done⟩ := ok_of_bind_ok done
      obtain rfl := Except.ok.inj done
      exact consistent.addTable visits meets added
  | put table key vv =>
      obtain ⟨⟨rv, after⟩, written, done⟩ := ok_of_bind_ok done
      obtain rfl := Except.ok.inj done
      obtain ⟨disk, rfl, same⟩ := sameStores_of_put written
      exact consistent.of_sameStores same
  | get table key beyond =>
      obtain ⟨_, -, done⟩ := ok_of_bind_ok done
      obtain rfl := Except.ok.inj done
      exact consistent
  | delete table key =>
      obtain ⟨⟨rv, after⟩, written, done⟩ := ok_of_bind_ok done
      obtain rfl := Except.ok.inj done
      obtain ⟨disk, rfl, same⟩ := sameStores_of_delete written
      exact consistent.of_sameStores same
  | reopen beyond order =>
      obtain ⟨engines, reopened, own, opened⟩ := consistent.reopen meets visits
      obtain rfl := Except.ok.inj (reopened.symm.trans done)
      refine { consistent with
        sound := ⟨consistent.sound.made, consistent.sound.saved⟩
        engines := own
        opened := opened
        below := fun own _ _ _ has => ?_ }
      have positive := consistent.replicaCount_pos has
      have zero : (0 : UInt64).toNat = replicaCount e.metadata.tables := own
      exact absurd positive (zero ▸ lt_irrefl 0)

/-- Tables stay. -/
theorem keeps (consistent : e.Consistent) {event : Event} {e' : VdbEngine}
    (visits : e.Visits event) (meets : e.Routable event) (done : e.step event = .ok e')
    (mem : t ∈ Tables.items e.metadata.tables) : t ∈ Tables.items e'.metadata.tables := by
  cases event with
  | addTable param order =>
      obtain ⟨⟨rv, after⟩, added, done⟩ := ok_of_bind_ok done
      obtain rfl := Except.ok.inj done
      rcases addTable_eq_ok added with ⟨rfl, -⟩ | ⟨absent, m, rs, stored, -, rfl⟩
      · exact mem
      rcases Metadata.addTable_eq_ok stored with ⟨rfl, -⟩ | ⟨-, -, tables, -⟩
      · exact mem
      · show t ∈ Tables.items m.tables
        rw [tables]
        exact (mem_items_insert absent).mpr (.inr mem)
  | put table key vv =>
      obtain ⟨⟨rv, after⟩, written, done⟩ := ok_of_bind_ok done
      obtain rfl := Except.ok.inj done
      obtain ⟨disk, rfl, -⟩ := sameStores_of_put written
      exact mem
  | get table key beyond =>
      obtain ⟨_, -, done⟩ := ok_of_bind_ok done
      obtain rfl := Except.ok.inj done
      exact mem
  | delete table key =>
      obtain ⟨⟨rv, after⟩, written, done⟩ := ok_of_bind_ok done
      obtain rfl := Except.ok.inj done
      obtain ⟨disk, rfl, -⟩ := sameStores_of_delete written
      exact mem
  | reopen beyond order =>
      obtain ⟨engines, reopened, -⟩ := consistent.reopen meets visits
      obtain rfl := Except.ok.inj (reopened.symm.trans done)
      exact mem

end Consistent

/-! ## Runs -/

theorem consistent_of_steps {e e' : VdbEngine} (consistent : e.Consistent)
    (steps : Steps Routable e e') :
    e'.Consistent ∧
      ∀ t ∈ Tables.items e.metadata.tables, t ∈ Tables.items e'.metadata.tables := by
  induction steps with
  | none => exact ⟨consistent, fun _ mem => mem⟩
  | step before visits meets done ih =>
      exact ⟨ih.1.step visits meets done, fun t mem => ih.1.keeps visits meets done (ih.2 t mem)⟩

/-- A table that stays keeps its engines. -/
theorem Routed.same {e e' : VdbEngine} (routed : e.Routed) (routed' : e'.Routed)
    (made : Tables.Made e.metadata.tables) {t : Table} (mem : t ∈ Tables.items e.metadata.tables)
    (mem' : t ∈ Tables.items e'.metadata.tables) (key : Bytes) :
    e'.getVEngine t.name key = e.getVEngine t.name key := by
  obtain ⟨p, r, has, selected, -, -, zero, engine, -⟩ := routed t mem key
  obtain ⟨p', r', has', selected', -, -, zero', engine', -⟩ := routed' t mem' key
  have number : p'.id = p.id := Except.ok.inj (selected'.symm.trans selected)
  have there : Tables.Has e.metadata.tables t p' r' := ⟨mem, has'.partition, has'.replica⟩
  obtain ⟨-, rfl⟩ := there.eq made has ⟨rfl, number, zero'.trans zero.symm⟩
  rw [engine, engine']

end VdbEngine

end Vraft.VectorDb
