import Vraft.VectorDb.Persistence

/-!
# Finding objects by their names

A name is looked up by taking it apart.  So partitions and replicas are found under
their names if the name of their table can be told from the numbers behind it, and if
the names have room in the buffer they are written to.
-/

namespace Vraft.VectorDb

open Raw Std

/-- Every name finds its object, and visiting a table visits its replicas. -/
structure Named (tables : Tables) : Prop where
  partition : ∀ t ∈ Tables.items tables, ∀ p ∈ t.partitions.items,
    getPartition tables p.name = .ok (some p)
  replica : ∀ t ∈ Tables.items tables, ∀ p ∈ t.partitions.items, ∀ r ∈ p.replicas.items,
    getReplica tables r.name = .ok (some r)
  distinct : ∀ t ∈ Tables.items tables, ∀ p ∈ t.partitions.items, ∀ r ∈ p.replicas.items,
    ∀ t' ∈ Tables.items tables, ∀ p' ∈ t'.partitions.items, ∀ r' ∈ p'.replicas.items,
      r.name = r'.name → t = t' ∧ p.id = p'.id ∧ r.id = r'.id
  visits : ∀ t ∈ Tables.items tables, ∃ visited,
    forEachReplicaInTable tables t.name = .ok visited ∧
      visited.Perm (t.partitions.items.flatMap fun p => p.replicas.items)

/-- The name of a table can be told from the numbers of its partitions and replicas, and
the buffer has room for all of them. -/
def Table.Nameable (t : Table) : Prop :=
  ∀ i < times t.partitionNum, Plain t.name ∧
    t.name.length + 1 + (decimal (Int32.ofNat i)).length ≤ 255 ∧
      ∀ j < times t.replicaNum, t.name.length + 1 + (decimal (Int32.ofNat i)).length + 1 +
        (decimal (Int32.ofNat j)).length ≤ 255

instance (t : Table) : Decidable t.Nameable :=
  inferInstanceAs (Decidable (∀ i < times t.partitionNum, _))

/-! ## Numbers -/

section Numbers

variable {t : Table} {partitions : List Partition}

theorem Partition.Made.id_iff {p : Partition} {replicas : List Replica} (made : p.Made replicas)
    {id : Int32} : (∃ r ∈ p.replicas.items, r.id = id) ↔ ∃ j < times p.replicaNum, Int32.ofNat j = id := by
  simp only [made.items.mem_iff]
  rw [← List.mem_map, made.ids, List.mem_map]
  simp only [List.mem_range]

theorem Table.Made.id_iff (made : t.Made partitions) {id : Int32} :
    (∃ p ∈ t.partitions.items, p.id = id) ↔ ∃ i < times t.partitionNum, Int32.ofNat i = id := by
  simp only [made.items.mem_iff]
  rw [← List.mem_map, made.ids, List.mem_map]
  simp only [List.mem_range]

/-- A partition stands under its number. -/
theorem Table.Made.byId (made : t.Made partitions) {p : Partition} {id : Int32} :
    t.partitions.byId[id]?.join = some p ↔ p ∈ t.partitions.items ∧ p.id = id := by
  rw [made.items.mem_iff, made.all]
  exact Indexed.byId_addAll_join made.nodup

theorem Partition.Made.byId {p : Partition} {replicas : List Replica} (made : p.Made replicas)
    {r : Replica} {id : Int32} :
    p.replicas.byId[id]?.join = some r ↔ r ∈ p.replicas.items ∧ r.id = id := by
  rw [made.items.mem_iff, made.all]
  exact Indexed.byId_addAll_join made.nodup

theorem toInt_nonneg {i : ℕ} {num : Int32} (lt : i < times num) : 0 ≤ (Int32.ofNat i).toInt := by
  have := times_lt num
  rw [toInt_ofNat (by omega)]
  exact Int.natCast_nonneg i

end Numbers

/-! ## Looking up -/

section Finding

variable {tables : Tables} {t : Table} {p : Partition} {r : Replica}

theorem Tables.Made.found (made : Tables.Made tables) (mem : t ∈ Tables.items tables) :
    tables[t.name]? = some t := by
  obtain ⟨k, found⟩ := Tables.mem_items.mp mem
  rwa [(made k t found).1]

theorem Tables.Made.partitions (made : Tables.Made tables) (mem : t ∈ Tables.items tables) :
    ∃ partitions, t.Made partitions :=
  (made _ t (made.found mem)).2

theorem Tables.Made.ofTable (made : Tables.Made tables) (mem : t ∈ Tables.items tables)
    (inside : p ∈ t.partitions.items) : p.OfTable t := by
  obtain ⟨partitions, self⟩ := made.partitions mem
  exact self.each p (self.items.mem_iff.mp inside)

theorem Tables.Made.ofPartition (made : Tables.Made tables) (mem : t ∈ Tables.items tables)
    (inside : p ∈ t.partitions.items) (within : r ∈ p.replicas.items) : r.OfPartition p := by
  obtain ⟨replicas, self⟩ := (made.ofTable mem inside).made
  exact self.each r (self.items.mem_iff.mp within)

/-- Tables with a partition in common are the same. -/
theorem Tables.Made.eq_of_name (made : Tables.Made tables) {t' : Table}
    (mem : t ∈ Tables.items tables) (mem' : t' ∈ Tables.items tables) (same : t.name = t'.name) :
    t = t' := by
  have found := made.found mem
  rw [same, made.found mem'] at found
  exact (Option.some.inj found).symm

/-- A partition is found under a name that is taken apart into its table and number. -/
theorem getPartition_eq_ok_iff (made : Tables.Made tables) (mem : t ∈ Tables.items tables)
    (inside : p ∈ t.partitions.items) (name : Bytes) :
    getPartition tables name = .ok (some p) ↔ parsePartitionName name = some (t.name, p.id) := by
  unfold getPartition
  cases parsed : parsePartitionName name with
  | none => simp
  | some pieces =>
      obtain ⟨tableName, id⟩ := pieces
      simp only [Except.ok.injEq, Option.bind_eq_some_iff, Option.some.injEq, Prod.mk.injEq]
      constructor
      · rintro ⟨t', found, pointer⟩
        have mem' : t' ∈ Tables.items tables := Tables.mem_items.mpr ⟨tableName, found⟩
        obtain ⟨partitions, self⟩ := made.partitions mem'
        obtain ⟨inside', number⟩ := self.byId.mp pointer
        have mine := (made.ofTable mem inside).tableName
        rw [(made.ofTable mem' inside').tableName, (made tableName t' found).1] at mine
        exact ⟨mine, number.symm⟩
      · rintro ⟨rfl, rfl⟩
        obtain ⟨partitions, self⟩ := made.partitions mem
        exact ⟨t, made.found mem, self.byId.mpr ⟨inside, rfl⟩⟩

/-- A partition is found under its own name if and only if its table has a name to be
told from the number, and the buffer has room for both. -/
theorem getPartition_name_iff (made : Tables.Made tables) (mem : t ∈ Tables.items tables)
    (inside : p ∈ t.partitions.items) :
    getPartition tables p.name = .ok (some p) ↔
      Plain t.name ∧ t.name.length + 1 + (decimal p.id).length ≤ 255 := by
  obtain ⟨partitions, self⟩ := made.partitions mem
  obtain ⟨i, lt, number⟩ := self.id_iff.mp ⟨p, inside, rfl⟩
  have nonneg : 0 ≤ p.id.toInt := number ▸ toInt_nonneg lt
  rw [getPartition_eq_ok_iff made mem inside, (made.ofTable mem inside).name]
  exact parsePartitionName_eq_iff nonneg

theorem parseReplicaName_name (made : Tables.Made tables) (mem : t ∈ Tables.items tables)
    (inside : p ∈ t.partitions.items) (within : r ∈ p.replicas.items)
    (found : getPartition tables p.name = .ok (some p))
    (room : t.name.length + 1 + (decimal p.id).length + 1 + (decimal r.id).length ≤ 255) :
    parseReplicaName r.name = some (t.name, p.id, r.id) := by
  obtain ⟨plain, fits⟩ := (getPartition_name_iff made mem inside).mp found
  obtain ⟨replicas, self⟩ := (made.ofTable mem inside).made
  obtain ⟨j, lt, number⟩ := self.id_iff.mp ⟨r, within, rfl⟩
  have nonneg : 0 ≤ r.id.toInt := number ▸ toInt_nonneg lt
  rw [(made.ofPartition mem inside within).name, (made.ofTable mem inside).name]
  exact (parseReplicaName_eq_iff plain fits nonneg).mpr room

theorem getReplica_name_iff (made : Tables.Made tables) (mem : t ∈ Tables.items tables)
    (inside : p ∈ t.partitions.items) (within : r ∈ p.replicas.items)
    (found : getPartition tables p.name = .ok (some p)) :
    getReplica tables r.name = .ok (some r) ↔
      t.name.length + 1 + (decimal p.id).length + 1 + (decimal r.id).length ≤ 255 := by
  obtain ⟨plain, fits⟩ := (getPartition_name_iff made mem inside).mp found
  obtain ⟨replicas, self⟩ := (made.ofTable mem inside).made
  obtain ⟨j, lt, number⟩ := self.id_iff.mp ⟨r, within, rfl⟩
  have nonneg : 0 ≤ r.id.toInt := number ▸ toInt_nonneg lt
  have belongs := made.ofPartition mem inside within
  have base := (made.ofTable mem inside).name
  rw [← parseReplicaName_eq_iff plain fits nonneg, ← base, ← belongs.name]
  unfold getReplica
  constructor
  · intro done
    cases parsed : parseReplicaName r.name with
    | none =>
        rw [parsed] at done
        contradiction
    | some pieces =>
        obtain ⟨tableName, partitionId, replicaId⟩ := pieces
        have whole := parsed
        rw [belongs.name, base, parseReplicaName_eq plain fits] at whole
        obtain ⟨rfl, rfl⟩ : tableName = t.name ∧ partitionId = p.id := by
          dsimp only at whole
          split_ifs at whole
          obtain ⟨same, rest⟩ := Prod.mk.inj (Option.some.inj whole)
          exact ⟨same.symm, (Prod.mk.inj rest).1.symm⟩
        rw [parsed] at done
        dsimp only at done
        rw [← base, found, ok_bind] at done
        have pointer : p.replicas.byId[replicaId]?.join = some r := Except.ok.inj done
        rw [(self.byId.mp pointer).2]
  · intro parsed
    rw [parsed]
    dsimp only
    rw [← base, found, ok_bind]
    exact congrArg Except.ok (self.byId.mpr ⟨within, rfl⟩)

end Finding

/-! ## All names -/

section All

variable {tables : Tables} {t : Table} {partitions : List Partition}

theorem Table.Made.nodup_names (self : t.Made partitions)
    (found : ∀ p ∈ t.partitions.items, getPartition tables p.name = .ok (some p)) :
    (partitions.map Partition.name).Nodup := by
  refine List.Nodup.map_on (fun p inside p' inside' same => ?_) self.nodup.of_map
  have first := found p (self.items.mem_iff.mpr inside)
  rw [same, found p' (self.items.mem_iff.mpr inside')] at first
  exact (Option.some.inj (Except.ok.inj first)).symm

/-- Visiting goes from names to partitions and back. -/
theorem forEachReplicaInTable_eq_ok (made : Tables.Made tables) (mem : t ∈ Tables.items tables)
    (found : ∀ p ∈ t.partitions.items, getPartition tables p.name = .ok (some p)) :
    ∃ visited, forEachReplicaInTable tables t.name = .ok visited ∧
      visited.Perm (t.partitions.items.flatMap fun p => p.replicas.items) := by
  obtain ⟨partitions, self⟩ := made.partitions mem
  have names := self.nodup_names found
  have perm : t.partitions.byName.toList.Perm
      (partitions.map fun p => (p.name, some p)) := by
    rw [self.all]
    exact Indexed.toList_byName names
  have each : ∀ binding ∈ t.partitions.byName.toList,
      (do
        let p ← deref binding.2
        forEachReplicaInPartition tables p.name) =
        .ok (binding.2.elim [] fun p => p.replicas.items) := by
    intro binding inside
    obtain ⟨p, within, rfl⟩ := List.mem_map.mp (perm.mem_iff.mp inside)
    show forEachReplicaInPartition tables p.name = _
    rw [forEachReplicaInPartition, found p (self.items.mem_iff.mpr within)]
    rfl
  refine ⟨(t.partitions.byName.toList.map
    fun binding => binding.2.elim [] fun p => p.replicas.items).flatten, ?_, ?_⟩
  · rw [forEachReplicaInTable, forEachPartitionInTable, made.found mem]
    dsimp only
    rw [mapM_eq_ok_map each]
    rfl
  · have visited := (perm.flatMap_right
      fun binding => binding.2.elim [] fun p => p.replicas.items).trans
        (List.Perm.of_eq (List.flatMap_map ..))
    exact visited.trans (self.items.symm.flatMap_right fun p => p.replicas.items)

/-- Everything is found under its name if and only if the names can be told apart. -/
theorem named_iff (made : Tables.Made tables) :
    Named tables ↔ ∀ t ∈ Tables.items tables, t.Nameable := by
  constructor
  · intro named t mem i lt
    obtain ⟨partitions, self⟩ := made.partitions mem
    obtain ⟨p, inside, number⟩ := self.id_iff.mpr ⟨i, lt, rfl⟩
    have found := named.partition t mem p inside
    have belongs := made.ofTable mem inside
    obtain ⟨plain, fits⟩ := (getPartition_name_iff made mem inside).mp found
    rw [number] at fits
    refine ⟨plain, fits, fun j below => ?_⟩
    obtain ⟨replicas, parts⟩ := belongs.made
    rw [← belongs.replicaNum] at below
    obtain ⟨r, within, number'⟩ := parts.id_iff.mpr ⟨j, below, rfl⟩
    have room := (getReplica_name_iff made mem inside within found).mp
      (named.replica t mem p inside r within)
    rwa [number, number'] at room
  · intro nameable
    have partition : ∀ t ∈ Tables.items tables, ∀ p ∈ t.partitions.items,
        getPartition tables p.name = .ok (some p) := by
      intro t mem p inside
      obtain ⟨partitions, self⟩ := made.partitions mem
      obtain ⟨i, lt, number⟩ := self.id_iff.mp ⟨p, inside, rfl⟩
      obtain ⟨plain, fits, -⟩ := nameable t mem i lt
      rw [number] at fits
      exact (getPartition_name_iff made mem inside).mpr ⟨plain, fits⟩
    have room : ∀ t ∈ Tables.items tables, ∀ p ∈ t.partitions.items, ∀ r ∈ p.replicas.items,
        t.name.length + 1 + (decimal p.id).length + 1 + (decimal r.id).length ≤ 255 := by
      intro t mem p inside r within
      obtain ⟨partitions, self⟩ := made.partitions mem
      have belongs := made.ofTable mem inside
      obtain ⟨replicas, parts⟩ := belongs.made
      obtain ⟨i, lt, number⟩ := self.id_iff.mp ⟨p, inside, rfl⟩
      obtain ⟨j, below, number'⟩ := parts.id_iff.mp ⟨r, within, rfl⟩
      rw [belongs.replicaNum] at below
      have fits := (nameable t mem i lt).2.2 j below
      rwa [number, number'] at fits
    constructor
    · exact partition
    · intro t mem p inside r within
      exact (getReplica_name_iff made mem inside within (partition t mem p inside)).mpr
        (room t mem p inside r within)
    · intro t mem p inside r within t' mem' p' inside' r' within' same
      have parsed := parseReplicaName_name made mem inside within (partition t mem p inside)
        (room t mem p inside r within)
      rw [same, parseReplicaName_name made mem' inside' within' (partition t' mem' p' inside')
        (room t' mem' p' inside' r' within')] at parsed
      obtain ⟨table, rest⟩ := Prod.mk.inj (Option.some.inj parsed)
      obtain ⟨number, number'⟩ := Prod.mk.inj rest
      exact ⟨made.eq_of_name mem mem' table.symm, number.symm, number'.symm⟩
    · exact fun t mem => forEachReplicaInTable_eq_ok made mem (partition t mem)

end All

namespace Metadata

/-- In every state that is reached by adding tables, and by opening the store again
while it can be restored. -/
theorem named_of_reached {m : Metadata} (reached : Reached StorableAtReopen m) :
    Named m.tables ↔ ∀ t ∈ Tables.items m.tables, t.Nameable :=
  named_iff (sound_of_reached (fun _ _ meets => meets) reached).made

theorem named_small : ∃ m, Reached StorableAtReopen m ∧
    fresh.step (.addTable ⟨[116], [47, 100], 2, 2, 3⟩ [[116]]) = .ok m ∧ Named m.tables := by
  have evaluated : Meets (fresh.step (.addTable ⟨[116], [47, 100], 2, 2, 3⟩ [[116]]))
      (fun m => ∀ t ∈ Tables.items m.tables, t.Nameable) fun _ => False := by decide +kernel
  obtain ⟨m, done, nameable⟩ := evaluated.exists_ok
  have reached : Reached StorableAtReopen m := reached_first trivial done
  exact ⟨m, reached, done, (named_of_reached reached).mpr nameable⟩

/-- The name of the partition of a table `a#b` has three pieces. -/
theorem getPartition_separator :
    Meets (fresh.step (.addTable ⟨[97, 35, 98], [47], 1, 1, 3⟩ [[97, 35, 98]]))
      (fun m => ∃ t ∈ Tables.items m.tables, ∃ p ∈ t.partitions.items,
        Meets (getPartition m.tables p.name) (fun _ => False) (· = .partitionName))
      fun _ => False := by
  decide +kernel

theorem not_named : ¬∀ m, Reached StorableAtReopen m → Named m.tables := by
  intro named
  obtain ⟨m, done, t, mem, p, inside, fails⟩ := getPartition_separator.exists_ok
  exact fails.of_ok ((named m (reached_first trivial done)).partition t mem p inside)

end Metadata

end Vraft.VectorDb
