import Mathlib
import Vraft.Lib.Indexed
import Vraft.Util.Decoding
import Vraft.VectorDb.Naming

/-!
# Records of the metadata

Tables, partitions and replicas, and the bytes under which `vectordb/metadata.cc` keeps
them.  A table holds its partitions and a partition its replicas twice, by number and
by name; a record has only the numbers and the names, and how many there are is read
from another field.  So the maps of a decoded record hold null pointers.
-/

namespace Vraft.VectorDb

open Raw Std

/-- What fails: a record larger than an `int32_t` can tell, a null pointer, or an
assert. -/
inductive MetadataFault
  | room
  | tableMissing
  | partitionMissing
  | replicaMissing
  | nullPointer
  | partitionName
  | replicaName
  | indexType
  | distanceType
  | indexMeta
  deriving DecidableEq, Repr

/-- A decoder of records. -/
abbrev Decoder (α : Type) := Reader MetadataFault α

/-! ## Fields -/

/-- `EncodeFixed32` of an `int32_t`. -/
def encodeInt32 (value : Int32) : Bytes :=
  encodeFixed32 value.toUInt32.toNat

/-- Four bytes as an `int32_t`. -/
def readInt32 : Decoder Int32 := do
  let u32 ← readFixed32
  pure u32.toInt32

/-- A string in what is left of `len` bytes; without one the field stays empty. -/
def readText (len : ℤ) : Decoder Bytes := fun mem cursor =>
  match readString2 (len - cursor.pos) mem cursor with
  | .ok (found, moved) => .ok (found.getD [], moved)
  | .error fault => .error fault

/-- So many items, one after another. -/
def readMany {α : Type} (reader : Decoder α) : ℕ → Decoder (List α)
  | 0 => pure []
  | count + 1 => do
      let first ← reader
      let rest ← readMany reader count
      pure (first :: rest)

/-- `for (int32_t i = 0; i < num; ++i)`. -/
def times (num : Int32) : ℕ :=
  num.toInt.toNat

/-- Partitions or replicas, by number and by name. -/
abbrev Parts (α : Type) := Indexed Int32 Bytes α

namespace Parts

variable {α : Type}

/-- The numbers and the names, and two counts that are not written. -/
def maxBytes (items : Parts α) : ℕ :=
  4 + 4 * items.byId.size + 4 + (items.byName.keys.map fun name => 2 * 4 + name.length).sum

/-- The numbers, and then the names. -/
def toBytes (items : Parts α) : Bytes :=
  items.byId.keys.flatMap encodeInt32 ++ items.byName.keys.flatMap encodeString2

/-- As many numbers and names as another field tells. -/
def decoder (len : ℤ) (num : Int32) : Decoder (Parts α) := do
  let ids ← readMany readInt32 (times num)
  let names ← readMany (readText len) (times num)
  pure ⟨Indexed.nulls ids, Indexed.nulls names⟩

end Parts

/-! ## Records -/

/-- `Replica`. -/
structure Replica where
  id : Int32
  name : Bytes
  path : Bytes
  dim : Int32
  uid : UInt64
  tableName : Bytes
  tableUid : UInt64
  partitionName : Bytes
  partitionUid : UInt64
  deriving DecidableEq

/-- `Partition`, with its replicas. -/
structure Partition where
  id : Int32
  name : Bytes
  path : Bytes
  replicaNum : Int32
  dim : Int32
  uid : UInt64
  tableName : Bytes
  tableUid : UInt64
  replicas : Parts Replica
  deriving DecidableEq

/-- `Table`, with its partitions. -/
structure Table where
  name : Bytes
  path : Bytes
  partitionNum : Int32
  replicaNum : Int32
  dim : Int32
  uid : UInt64
  partitions : Parts Partition
  deriving DecidableEq

/-- `ToString`: the buffer has the room of `MaxBytes`. -/
def toString (maxBytes : ℕ) (bytes : Bytes) : Except MetadataFault Bytes :=
  if maxBytes < 2 ^ 31 ∧ bytes.length ≤ maxBytes then .ok bytes else .error .room

/-- `FromString` of a value, with whatever follows it in memory. -/
def fromString {α : Type} (decoder : ℤ → Decoder α) (value : Bytes) (beyond : Memory) :
    Except MetadataFault α :=
  (decoder value.length (Memory.follow value beyond) Cursor.start).map Prod.fst

namespace Names

/-- The room for the directory of the tables. -/
def maxBytes (names : List Bytes) : ℕ :=
  4 + (names.map fun name => 2 * 4 + name.length).sum

/-- The number of tables, and their names. -/
def toBytes (names : List Bytes) : Bytes :=
  encodeFixed32 (names.length % 2 ^ 32) ++ names.flatMap encodeString2

/-- The number of tables, and so many names. -/
def decoder (len : ℤ) : Decoder (List Bytes) := do
  let num ← readInt32
  readMany (readText len) (times num)

end Names

namespace Replica

/-- `Replica::MaxBytes`. -/
def maxBytes (r : Replica) : ℕ :=
  4 + (2 * 4 + r.name.length) + (2 * 4 + r.path.length) + 4 + 8 +
    (2 * 4 + r.tableName.length) + 8 + (2 * 4 + r.partitionName.length) + 8

/-- `Replica::ToString`. -/
def toBytes (r : Replica) : Bytes :=
  encodeInt32 r.id ++ (encodeString2 r.name ++ (encodeString2 r.path ++ (encodeInt32 r.dim ++
    (encodeFixed64 r.uid.toNat ++ (encodeString2 r.tableName ++
      (encodeFixed64 r.tableUid.toNat ++ (encodeString2 r.partitionName ++
        encodeFixed64 r.partitionUid.toNat)))))))

/-- `Replica::FromString`. -/
def decoder (len : ℤ) : Decoder Replica := do
  let id ← readInt32
  let name ← readText len
  let path ← readText len
  let dim ← readInt32
  let uid ← readFixed64
  let tableName ← readText len
  let tableUid ← readFixed64
  let partitionName ← readText len
  let partitionUid ← readFixed64
  pure ⟨id, name, path, dim, uid, tableName, tableUid, partitionName, partitionUid⟩

end Replica

namespace Partition

/-- `Partition::MaxBytes`. -/
def maxBytes (p : Partition) : ℕ :=
  4 + (2 * 4 + p.name.length) + (2 * 4 + p.path.length) + 4 + 4 + 8 +
    (2 * 4 + p.tableName.length) + 8 + Parts.maxBytes p.replicas

/-- `Partition::ToString`. -/
def toBytes (p : Partition) : Bytes :=
  encodeInt32 p.id ++ (encodeString2 p.name ++ (encodeString2 p.path ++
    (encodeInt32 p.replicaNum ++ (encodeInt32 p.dim ++ (encodeFixed64 p.uid.toNat ++
      (encodeString2 p.tableName ++ (encodeFixed64 p.tableUid.toNat ++
        Parts.toBytes p.replicas)))))))

/-- `Partition::FromString`. -/
def decoder (len : ℤ) : Decoder Partition := do
  let id ← readInt32
  let name ← readText len
  let path ← readText len
  let replicaNum ← readInt32
  let dim ← readInt32
  let uid ← readFixed64
  let tableName ← readText len
  let tableUid ← readFixed64
  let replicas ← Parts.decoder len replicaNum
  pure ⟨id, name, path, replicaNum, dim, uid, tableName, tableUid, replicas⟩

/-- What is read back of a partition. -/
def blank (p : Partition) : Partition :=
  { p with replicas := p.replicas.blank }

end Partition

namespace Table

/-- `Table::MaxBytes`. -/
def maxBytes (t : Table) : ℕ :=
  (2 * 4 + t.name.length) + (2 * 4 + t.path.length) + 4 + 4 + 4 + 8 +
    Parts.maxBytes t.partitions

/-- `Table::ToString`. -/
def toBytes (t : Table) : Bytes :=
  encodeString2 t.name ++ (encodeString2 t.path ++ (encodeInt32 t.partitionNum ++
    (encodeInt32 t.replicaNum ++ (encodeInt32 t.dim ++ (encodeFixed64 t.uid.toNat ++
      Parts.toBytes t.partitions)))))

/-- `Table::FromString`. -/
def decoder (len : ℤ) : Decoder Table := do
  let name ← readText len
  let path ← readText len
  let partitionNum ← readInt32
  let replicaNum ← readInt32
  let dim ← readInt32
  let uid ← readFixed64
  let partitions ← Parts.decoder len partitionNum
  pure ⟨name, path, partitionNum, replicaNum, dim, uid, partitions⟩

/-- What is read back of a table. -/
def blank (t : Table) : Table :=
  { t with partitions := t.partitions.blank }

end Table

/-! ## Fields are read back -/

section Fields

variable {mem : Memory} {cursor : Cursor}

@[simp]
theorem length_encodeInt32 (value : Int32) : (encodeInt32 value).length = 4 :=
  encodeFixed32_length _

theorem readInt32_holds {value : Int32} (holds : mem.Holds cursor.pos (encodeInt32 value)) :
    readInt32 mem cursor = .ok (value, cursor.advance 4) := by
  unfold readInt32
  rw [Reader.bind_of_ok (readFixed32_holds holds)]
  rfl

theorem length_short {text : Bytes} (short : text.length < 128) :
    (encodeString2 text).length = 1 + text.length := by
  rw [encodeString2, List.length_append, Nat.mod_eq_of_lt (by omega),
    (length_encodeVarint32_eq_one_iff _).mpr short]

theorem length_encodeString2_le_add (text : Bytes) :
    (encodeString2 text).length ≤ 2 * 4 + text.length := by
  have := length_encodeVarint32_le (text.length % 2 ^ 32)
  rw [encodeString2, List.length_append]
  omega

theorem readText_holds {text : Bytes} {len : ℕ} (short : text.length < 128) (bound : len < 2 ^ 31)
    (holds : mem.Holds cursor.pos (encodeString2 text))
    (room : cursor.pos + (encodeString2 text).length ≤ len) :
    readText len mem cursor = .ok (text, cursor.advance (encodeString2 text).length) := by
  have rest : (len : ℤ) - cursor.pos = (len - cursor.pos : ℕ) := by omega
  have found := @readString2_holds MetadataFault _ cursor _
    (len - cursor.pos) (by omega) (by omega) holds (by omega)
  unfold readText
  rw [rest, found, length_short short]
  rfl

/-- Items that are read back one by one are read back all. -/
theorem readMany_holds {α : Type} {encode : α → Bytes} {reader : Decoder α} {limit : ℕ}
    {items : List α}
    (one : ∀ item ∈ items, ∀ cursor : Cursor, mem.Holds cursor.pos (encode item) →
      cursor.pos + (encode item).length ≤ limit →
        reader mem cursor = .ok (item, cursor.advance (encode item).length))
    (holds : mem.Holds cursor.pos (items.flatMap encode))
    (room : cursor.pos + (items.flatMap encode).length ≤ limit) :
    ∃ moved, readMany reader items.length mem cursor = .ok (items, moved) ∧
      moved.pos = cursor.pos + (items.flatMap encode).length := by
  induction items generalizing cursor with
  | nil => exact ⟨cursor, rfl, rfl⟩
  | cons item items ih =>
      rw [List.forall_mem_cons] at one
      rw [List.flatMap_cons, Memory.holds_append] at holds
      rw [List.flatMap_cons, List.length_append] at room ⊢
      have first := one.1 cursor holds.1 (by omega)
      obtain ⟨moved, rest, pos⟩ := @ih (cursor.advance (encode item).length) one.2
        holds.2 (by rw [Cursor.pos_advance]; omega)
      refine ⟨moved, ?_, by rw [pos, Cursor.pos_advance]; omega⟩
      rw [List.length_cons, readMany, Reader.bind_of_ok first, Reader.bind_of_ok rest]
      rfl

end Fields

/-! ## Records are read back -/

theorem length_flatMap_encodeString2_le (names : List Bytes) :
    (names.flatMap encodeString2).length ≤ (names.map fun name => 2 * 4 + name.length).sum := by
  induction names with
  | nil => exact le_rfl
  | cons name names ih =>
      have := length_encodeString2_le_add name
      rw [List.flatMap_cons, List.length_append, List.map_cons, List.sum_cons]
      omega

theorem length_flatMap_encodeInt32 (ids : List Int32) :
    (ids.flatMap encodeInt32).length = 4 * ids.length := by
  induction ids with
  | nil => rfl
  | cons id ids ih =>
      rw [List.flatMap_cons, List.length_append, length_encodeInt32, ih, List.length_cons]
      omega

theorem readNames_holds {mem : Memory} {cursor : Cursor} {len : ℕ} {names : List Bytes}
    (short : ∀ name ∈ names, name.length < 128) (bound : len < 2 ^ 31)
    (holds : mem.Holds cursor.pos (names.flatMap encodeString2))
    (room : cursor.pos + (names.flatMap encodeString2).length ≤ len) :
    ∃ moved, readMany (readText len) names.length mem cursor = .ok (names, moved) ∧
      moved.pos = cursor.pos + (names.flatMap encodeString2).length :=
  readMany_holds (fun name mem_ _ holds room => readText_holds (short name mem_) bound holds room)
    holds room

namespace Parts

variable {α : Type}

/-- The names are short enough for the decoder, and there are as many keys as it
expects. -/
structure Short (items : Parts α) (num : Int32) : Prop where
  keys : ∀ name ∈ items.byName.keys, name.length < 128
  byId : items.byId.size = times num
  byName : items.byName.size = times num

theorem length_toBytes_le (items : Parts α) : (toBytes items).length ≤ maxBytes items := by
  have names := length_flatMap_encodeString2_le items.byName.keys
  have ids := length_flatMap_encodeInt32 items.byId.keys
  rw [ExtTreeMap.length_keys] at ids
  rw [toBytes, List.length_append, maxBytes]
  omega

theorem decoder_holds {mem : Memory} {cursor : Cursor} {len : ℕ} {items : Parts α} {num : Int32}
    (short : Short items num) (bound : len < 2 ^ 31) (holds : mem.Holds cursor.pos (toBytes items))
    (room : cursor.pos + (toBytes items).length ≤ len) :
    ∃ moved, decoder len num mem cursor = .ok (items.blank, moved) := by
  rw [toBytes, Memory.holds_append] at holds
  rw [toBytes, List.length_append] at room
  obtain ⟨moved, ids, pos⟩ := @readMany_holds mem cursor _ _ readInt32 len _
    (fun id _ _ holds _ => by rw [length_encodeInt32]; exact readInt32_holds holds) holds.1
    (by omega)
  obtain ⟨final, names, -⟩ := @readNames_holds _ moved _ _ short.keys bound
    (by rw [pos]; exact holds.2) (by omega)
  rw [ExtTreeMap.length_keys, short.byId] at ids
  rw [ExtTreeMap.length_keys, short.byName] at names
  unfold decoder
  rw [Reader.bind_of_ok ids, Reader.bind_of_ok names]
  exact ⟨final, rfl⟩

end Parts

theorem toString_eq_ok {maxBytes : ℕ} {bytes value : Bytes}
    (written : toString maxBytes bytes = .ok value) :
    value = bytes ∧ maxBytes < 2 ^ 31 ∧ bytes.length ≤ maxBytes := by
  unfold toString at written
  split at written
  · rename_i fits
    exact ⟨(Except.ok.inj written).symm, fits⟩
  · contradiction

/-- A decoder that undoes an encoder wherever its bytes stand. -/
theorem fromString_eq_ok {α : Type} {decoder : ℤ → Decoder α} {bytes : Bytes} {value : α}
    (undoes : ∀ mem : Memory, mem.Holds 0 bytes →
      ∃ cursor, decoder bytes.length mem Cursor.start = .ok (value, cursor))
    (beyond : Memory) : fromString decoder bytes beyond = .ok value := by
  obtain ⟨cursor, done⟩ := undoes _ (Memory.follow_holds bytes beyond)
  rw [fromString, done]
  rfl

namespace Names

theorem length_toBytes (names : List Bytes) :
    (toBytes names).length = 4 + (names.flatMap encodeString2).length := by
  rw [toBytes, List.length_append, encodeFixed32_length]

theorem length_toBytes_le (names : List Bytes) : (toBytes names).length ≤ maxBytes names := by
  have := length_flatMap_encodeString2_le names
  rw [length_toBytes, maxBytes]
  omega

theorem length_le_maxBytes (names : List Bytes) : 8 * names.length ≤ maxBytes names := by
  have (names : List Bytes) :
      8 * names.length ≤ (names.map fun name => 2 * 4 + name.length).sum := by
    induction names with
    | nil => exact le_rfl
    | cons name names ih =>
        rw [List.length_cons, List.map_cons, List.sum_cons]
        omega
  exact (this names).trans (Nat.le_add_left _ _)

theorem times_ofNat {num : ℕ} (small : num < 2 ^ 31) : times (UInt32.ofNat num).toInt32 = num := by
  have bits : (UInt32.ofNat num).toInt32.toInt = (num : ℤ) := by
    show (BitVec.ofNat 32 num).toInt = num
    rw [BitVec.toInt_ofNat', Int.bmod_eq_of_le] <;> omega
  rw [times, bits, Int.toNat_natCast]

theorem fromString_toBytes {names : List Bytes} (short : ∀ name ∈ names, name.length < 128)
    (fits : maxBytes names < 2 ^ 31) (beyond : Memory) :
    fromString decoder (toBytes names) beyond = .ok names := by
  refine fromString_eq_ok (fun mem holds => ?_) beyond
  have length := length_toBytes names
  have room := length_toBytes_le names
  have count := length_le_maxBytes names
  have number : names.length % 2 ^ 32 = (UInt32.ofNat names.length).toNat := rfl
  rw [toBytes, number, Memory.holds_append, encodeFixed32_length] at holds
  have num : readInt32 mem Cursor.start =
      .ok ((UInt32.ofNat names.length).toInt32, Cursor.start.advance 4) :=
    readInt32_holds holds.1
  obtain ⟨moved, all, -⟩ := @readNames_holds _ (Cursor.start.advance 4)
    (toBytes names).length _ short (by omega) holds.2
    (by simp only [Cursor.pos_advance, Cursor.start]; omega)
  unfold decoder
  rw [Reader.bind_of_ok num, times_ofNat (by omega)]
  exact ⟨moved, all⟩

end Names

/-- The strings are short enough for the decoder. -/
structure Replica.Short (r : Replica) : Prop where
  name : r.name.length < 128
  path : r.path.length < 128
  tableName : r.tableName.length < 128
  partitionName : r.partitionName.length < 128

namespace Replica

theorem length_toBytes_le (r : Replica) : r.toBytes.length ≤ r.maxBytes := by
  have name := length_encodeString2_le_add r.name
  have path := length_encodeString2_le_add r.path
  have tableName := length_encodeString2_le_add r.tableName
  have partitionName := length_encodeString2_le_add r.partitionName
  simp only [toBytes, List.length_append, encodeFixed64_length, length_encodeInt32, maxBytes]
  omega

theorem fromString_toBytes {r : Replica} (short : r.Short) (fits : r.maxBytes < 2 ^ 31)
    (beyond : Memory) : fromString decoder r.toBytes beyond = .ok r := by
  refine fromString_eq_ok (fun mem holds => ?_) beyond
  have room := r.length_toBytes_le
  have length : r.toBytes.length = 4 + (encodeString2 r.name).length +
      (encodeString2 r.path).length + 4 + 8 + (encodeString2 r.tableName).length + 8 +
        (encodeString2 r.partitionName).length + 8 := by
    simp only [toBytes, List.length_append, encodeFixed64_length, length_encodeInt32]
    omega
  simp only [toBytes, Memory.holds_append, encodeFixed64_length, length_encodeInt32] at holds
  obtain ⟨id, name, path, dim, uid, tableName, tableUid, partitionName, partitionUid⟩ := holds
  unfold decoder
  rw [Reader.bind_of_ok (readInt32_holds id),
    Reader.bind_of_ok (readText_holds short.name (by omega) name
      (by simp only [Cursor.pos_advance, Cursor.start]; omega)),
    Reader.bind_of_ok (readText_holds short.path (by omega) path
      (by simp only [Cursor.pos_advance, Cursor.start]; omega)),
    Reader.bind_of_ok (readInt32_holds dim), Reader.bind_of_ok (readFixed64_holds uid),
    Reader.bind_of_ok (readText_holds short.tableName (by omega) tableName
      (by simp only [Cursor.pos_advance, Cursor.start]; omega)),
    Reader.bind_of_ok (readFixed64_holds tableUid),
    Reader.bind_of_ok (readText_holds short.partitionName (by omega) partitionName
      (by simp only [Cursor.pos_advance, Cursor.start]; omega)),
    Reader.bind_of_ok (readFixed64_holds partitionUid)]
  exact ⟨_, rfl⟩

end Replica

/-- The strings of a partition have lengths of one byte. -/
structure Partition.Short (p : Partition) : Prop where
  name : p.name.length < 128
  path : p.path.length < 128
  tableName : p.tableName.length < 128
  replicas : Parts.Short p.replicas p.replicaNum

namespace Partition

theorem length_toBytes (p : Partition) :
    p.toBytes.length = 4 + (encodeString2 p.name).length + (encodeString2 p.path).length +
      4 + 4 + 8 + (encodeString2 p.tableName).length + 8 + (Parts.toBytes p.replicas).length := by
  simp only [toBytes, List.length_append, encodeFixed64_length, length_encodeInt32]
  omega

theorem length_toBytes_le (p : Partition) : p.toBytes.length ≤ p.maxBytes := by
  have name := length_encodeString2_le_add p.name
  have path := length_encodeString2_le_add p.path
  have tableName := length_encodeString2_le_add p.tableName
  have replicas := Parts.length_toBytes_le p.replicas
  rw [length_toBytes, maxBytes]
  omega

theorem fromString_toBytes {p : Partition} (short : p.Short) (fits : p.maxBytes < 2 ^ 31)
    (beyond : Memory) : fromString decoder p.toBytes beyond = .ok p.blank := by
  refine fromString_eq_ok (fun mem holds => ?_) beyond
  have room := p.length_toBytes_le
  have length := p.length_toBytes
  simp only [toBytes, Memory.holds_append, encodeFixed64_length, length_encodeInt32] at holds
  obtain ⟨id, name, path, replicaNum, dim, uid, tableName, tableUid, replicas⟩ := holds
  unfold decoder
  rw [Reader.bind_of_ok (readInt32_holds id),
    Reader.bind_of_ok (readText_holds short.name (by omega) name
      (by simp only [Cursor.pos_advance, Cursor.start]; omega)),
    Reader.bind_of_ok (readText_holds short.path (by omega) path
      (by simp only [Cursor.pos_advance, Cursor.start]; omega)),
    Reader.bind_of_ok (readInt32_holds replicaNum), Reader.bind_of_ok (readInt32_holds dim),
    Reader.bind_of_ok (readFixed64_holds uid),
    Reader.bind_of_ok (readText_holds short.tableName (by omega) tableName
      (by simp only [Cursor.pos_advance, Cursor.start]; omega)),
    Reader.bind_of_ok (readFixed64_holds tableUid)]
  obtain ⟨moved, parts⟩ := @Parts.decoder_holds _ mem
    ((((((((Cursor.start.advance 4).advance (encodeString2 p.name).length).advance
      (encodeString2 p.path).length).advance 4).advance 4).advance 8).advance
        (encodeString2 p.tableName).length).advance 8) p.toBytes.length _ _ short.replicas
    (by omega) replicas (by simp only [Cursor.pos_advance, Cursor.start]; omega)
  rw [Reader.bind_of_ok parts]
  exact ⟨moved, rfl⟩

end Partition

/-- The strings of a table have lengths of one byte. -/
structure Table.Short (t : Table) : Prop where
  name : t.name.length < 128
  path : t.path.length < 128
  partitions : Parts.Short t.partitions t.partitionNum

namespace Table

theorem length_toBytes (t : Table) :
    t.toBytes.length = (encodeString2 t.name).length + (encodeString2 t.path).length +
      4 + 4 + 4 + 8 + (Parts.toBytes t.partitions).length := by
  simp only [toBytes, List.length_append, encodeFixed64_length, length_encodeInt32]
  omega

theorem length_toBytes_le (t : Table) : t.toBytes.length ≤ t.maxBytes := by
  have name := length_encodeString2_le_add t.name
  have path := length_encodeString2_le_add t.path
  have partitions := Parts.length_toBytes_le t.partitions
  rw [length_toBytes, maxBytes]
  omega

theorem fromString_toBytes {t : Table} (short : t.Short) (fits : t.maxBytes < 2 ^ 31)
    (beyond : Memory) : fromString decoder t.toBytes beyond = .ok t.blank := by
  refine fromString_eq_ok (fun mem holds => ?_) beyond
  have room := t.length_toBytes_le
  have length := t.length_toBytes
  rw [show (0 : ℕ) = Cursor.start.pos from rfl] at holds
  simp only [toBytes, Memory.holds_append, encodeFixed64_length, length_encodeInt32] at holds
  obtain ⟨name, path, partitionNum, replicaNum, dim, uid, partitions⟩ := holds
  unfold decoder
  rw [Reader.bind_of_ok (readText_holds short.name (by omega) name
      (by simp only [Cursor.start]; omega)),
    Reader.bind_of_ok (readText_holds short.path (by omega) path
      (by simp only [Cursor.pos_advance, Cursor.start]; omega)),
    Reader.bind_of_ok (readInt32_holds partitionNum),
    Reader.bind_of_ok (readInt32_holds replicaNum), Reader.bind_of_ok (readInt32_holds dim),
    Reader.bind_of_ok (readFixed64_holds uid)]
  obtain ⟨moved, parts⟩ := @Parts.decoder_holds _ mem
    ((((((Cursor.start.advance (encodeString2 t.name).length).advance
      (encodeString2 t.path).length).advance 4).advance 4).advance 4).advance 8) t.toBytes.length _ _
    short.partitions (by omega) partitions
    (by simp only [Cursor.pos_advance, Cursor.start]; omega)
  rw [Reader.bind_of_ok parts]
  exact ⟨moved, rfl⟩

end Table

end Vraft.VectorDb
