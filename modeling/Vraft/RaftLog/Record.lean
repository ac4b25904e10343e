import Vraft.Raft.Types
import Mathlib.Tactic.NormNum

/-!
# Keys, values and checksums of a stored log

Entry `i` of a log is stored under two keys, `2 * i - 1` for its meta value and
`2 * i` for its data, both written as 32-bit integers; key `0` holds the next
index and the running checksum while no entry is stored.  Keys are compared
through the signed difference of the integers, which orders them as long as they
are less than `2 ^ 31` apart.
-/

namespace Vraft

/-- The assertions of `raft_log.cc` and `raft_log.h`, and a write behind the end of a
buffer. -/
inductive LogAssert
  | check
  | buffer
  | entryType
  | metaIndex
  | dataIndex
  | iterator
  | keySize
  | zeroSize
  | metaSize
  | missingValue
  | missingMeta
  | range
  | configValue
  | configMeta
  deriving DecidableEq, Repr

/-- Evaluate an assertion. -/
def ensure (site : LogAssert) (c : Prop) [Decidable c] : Except LogAssert Unit :=
  if c then .ok () else .error site

theorem ensure_of {site : LogAssert} {c : Prop} [Decidable c] (holds : c) :
    ensure site c = .ok () :=
  if_pos holds

/-! ## Keys -/

/-- Indices below this bound have keys in the lower half of the 32-bit range. -/
def maxIndex : ℕ := 2 ^ 30

theorem maxIndex_pos : 0 < maxIndex := by
  norm_num [maxIndex]

/-- `LogIndexToMetaIndex`, in 32 bits. -/
def logIndexToMetaIndex (index : ℕ) : ℕ :=
  (index * 2 + (2 ^ 32 - 1)) % 2 ^ 32

/-- `LogIndexToDataIndex`, in 32 bits. -/
def logIndexToDataIndex (index : ℕ) : ℕ :=
  index * 2 % 2 ^ 32

/-- `MetaIndexToLogIndex`. -/
def metaIndexToLogIndex (index : ℕ) : Except LogAssert ℕ := do
  ensure .metaIndex (index % 2 = 1)
  return (index + 1) % 2 ^ 32 / 2

/-- `DataIndexToLogIndex`. -/
def dataIndexToLogIndex (index : ℕ) : Except LogAssert ℕ := do
  ensure .dataIndex (index % 2 = 0)
  return index / 2

/-- The key of the record of an entry. -/
def encodeMetaKey (index : ℕ) : Bytes :=
  encodeFixed32 (logIndexToMetaIndex index)

/-- The key of the value of an entry. -/
def encodeDataKey (index : ℕ) : Bytes :=
  encodeFixed32 (logIndexToDataIndex index)

/-- `kZeroKey`, the key of the sentinel. -/
def zeroKey : Bytes := [0, 0, 0, 0]

/-- `U32ComparatorImpl::Compare`: the sign of the 32-bit difference. -/
def u32Compare (a b : Bytes) : Ordering :=
  let diff := (decodeFixed32 a + (2 ^ 32 - decodeFixed32 b)) % 2 ^ 32
  if 2 ^ 31 ≤ diff then .lt else if 0 < diff then .gt else .eq

theorem zeroKey_eq : zeroKey = encodeFixed32 0 := by
  decide

theorem metaIndex_eq {index : ℕ} (positive : 0 < index) (bound : index < maxIndex) :
    logIndexToMetaIndex index = index * 2 - 1 := by
  simp only [logIndexToMetaIndex, maxIndex] at *
  omega

theorem dataIndex_eq {index : ℕ} (bound : index < maxIndex) :
    logIndexToDataIndex index = index * 2 := by
  simp only [logIndexToDataIndex, maxIndex] at *
  omega

theorem metaIndex_lt (index : ℕ) : logIndexToMetaIndex index < 2 ^ 32 :=
  Nat.mod_lt _ (by norm_num)

theorem dataIndex_lt (index : ℕ) : logIndexToDataIndex index < 2 ^ 32 :=
  Nat.mod_lt _ (by norm_num)

theorem decode_key {value : ℕ} (bound : value < 2 ^ 32) :
    decodeFixed32 (encodeFixed32 value) = value := by
  simpa using decodeFixed32_encodeFixed32 bound []

theorem metaIndexToLogIndex_metaKey {index : ℕ} (positive : 0 < index) (bound : index < maxIndex) :
    metaIndexToLogIndex (decodeFixed32 (encodeMetaKey index)) = .ok index := by
  rw [encodeMetaKey, decode_key (metaIndex_lt index), metaIndex_eq positive bound,
    metaIndexToLogIndex, ensure_of (by omega)]
  rw [maxIndex] at bound
  exact congrArg Except.ok (by omega)

theorem dataIndexToLogIndex_dataKey {index : ℕ} (bound : index < maxIndex) :
    dataIndexToLogIndex (decodeFixed32 (encodeDataKey index)) = .ok index := by
  rw [encodeDataKey, decode_key (dataIndex_lt index), dataIndex_eq bound, dataIndexToLogIndex,
    ensure_of (by omega)]
  exact congrArg Except.ok (by omega)

/-- No two keys are taken for the same. -/
theorem u32Compare_eq_iff {a b : ℕ} (a_lt : a < 2 ^ 32) (b_lt : b < 2 ^ 32) :
    u32Compare (encodeFixed32 a) (encodeFixed32 b) = .eq ↔ a = b := by
  simp only [u32Compare, decode_key a_lt, decode_key b_lt]
  split_ifs with negative positive
  · simp only [false_iff]
    omega
  · simp only [false_iff]
    omega
  · simp only [true_iff]
    omega

/-- Keys of the lower half are ordered as numbers. -/
theorem u32Compare_eq_gt {a b : ℕ} (a_lt : a < 2 ^ 31) (lt : b < a) :
    u32Compare (encodeFixed32 a) (encodeFixed32 b) = .gt := by
  simp only [u32Compare, decode_key (show a < 2 ^ 32 by omega),
    decode_key (show b < 2 ^ 32 by omega)]
  rw [if_neg (by omega), if_pos (by omega)]

/-! ## Values -/

/-- The number of a type in the enumeration. -/
def EntryType.toU32 : EntryType → ℕ
  | .unknown => 0
  | .data => 1
  | .noop => 2
  | .config => 3

/-- `U32ToEntryType`, unless its assert fails. -/
def u32ToEntryType : ℕ → Except LogAssert EntryType
  | 0 => .ok .unknown
  | 1 => .ok .data
  | 2 => .ok .noop
  | 3 => .ok .config
  | _ => .error .entryType

/-- What is stored of an entry beside its value. -/
structure MetaValue where
  term : ℕ
  type : EntryType
  preChkAll : UInt32
  chkThs : UInt32
  chkAll : UInt32
  deriving DecidableEq, Repr

/-- `MetaValueBytes`. -/
def metaValueBytes : ℕ := 24

/-- `EncodeMetaValue`. -/
def encodeMetaValue (mv : MetaValue) : Bytes :=
  encodeFixed64 mv.term ++ (encodeFixed32 mv.type.toU32 ++ (encodeFixed32 mv.preChkAll.toNat ++
    (encodeFixed32 mv.chkThs.toNat ++ encodeFixed32 mv.chkAll.toNat)))

/-- `DecodeMetaValue`. -/
def decodeMetaValue (bytes : Bytes) : Except LogAssert MetaValue := do
  let type ← u32ToEntryType (decodeFixed32 (bytes.drop 8))
  return {
    term := decodeFixed64 bytes
    type := type
    preChkAll := UInt32.ofNat (decodeFixed32 (bytes.drop 12))
    chkThs := UInt32.ofNat (decodeFixed32 (bytes.drop 16))
    chkAll := UInt32.ofNat (decodeFixed32 (bytes.drop 20)) }

/-- The sentinel: the next index and the running checksum. -/
def encodeZeroValue (append : ℕ) (checksum : UInt32) : Bytes :=
  encodeFixed32 append ++ encodeFixed32 checksum.toNat

/-- The next index and the running checksum. -/
def decodeZeroValue (bytes : Bytes) : ℕ × UInt32 :=
  (decodeFixed32 bytes, UInt32.ofNat (decodeFixed32 (bytes.drop 4)))

theorem encodeMetaValue_length (mv : MetaValue) : (encodeMetaValue mv).length = metaValueBytes := by
  simp [encodeMetaValue, metaValueBytes]

theorem u32ToEntryType_toU32 (type : EntryType) : u32ToEntryType type.toU32 = .ok type := by
  cases type <;> rfl

theorem EntryType.toU32_lt (type : EntryType) : type.toU32 < 2 ^ 32 := by
  cases type <;> decide

theorem decode_checksum (checksum : UInt32) (rest : Bytes) :
    UInt32.ofNat (decodeFixed32 (encodeFixed32 checksum.toNat ++ rest)) = checksum := by
  rw [decodeFixed32_encodeFixed32 checksum.toNat_lt]
  exact UInt32.ofNat_toNat

/-- Meta values are read back as they were written. -/
theorem decodeMetaValue_encodeMetaValue {mv : MetaValue} (term_lt : mv.term < 2 ^ 64) :
    decodeMetaValue (encodeMetaValue mv) = .ok mv := by
  have term_eq := decodeFixed64_encodeFixed64 term_lt (encodeFixed32 mv.type.toU32 ++
    (encodeFixed32 mv.preChkAll.toNat ++ (encodeFixed32 mv.chkThs.toNat ++
      encodeFixed32 mv.chkAll.toNat)))
  have type_eq := decodeFixed32_encodeFixed32 mv.type.toU32_lt (encodeFixed32 mv.preChkAll.toNat ++
    (encodeFixed32 mv.chkThs.toNat ++ encodeFixed32 mv.chkAll.toNat))
  have all_eq : UInt32.ofNat (decodeFixed32 (encodeFixed32 mv.chkAll.toNat)) = mv.chkAll := by
    simpa using decode_checksum mv.chkAll []
  have at8 : (encodeMetaValue mv).drop 8 = encodeFixed32 mv.type.toU32 ++
      (encodeFixed32 mv.preChkAll.toNat ++ (encodeFixed32 mv.chkThs.toNat ++
        encodeFixed32 mv.chkAll.toNat)) :=
    List.drop_left' (encodeFixed64_length _)
  have at12 : (encodeMetaValue mv).drop 12 = encodeFixed32 mv.preChkAll.toNat ++
      (encodeFixed32 mv.chkThs.toNat ++ encodeFixed32 mv.chkAll.toNat) := by
    rw [show 12 = 8 + 4 from rfl, ← List.drop_drop, at8]
    exact List.drop_left' (encodeFixed32_length _)
  have at16 : (encodeMetaValue mv).drop 16 = encodeFixed32 mv.chkThs.toNat ++
      encodeFixed32 mv.chkAll.toNat := by
    rw [show 16 = 12 + 4 from rfl, ← List.drop_drop, at12]
    exact List.drop_left' (encodeFixed32_length _)
  have at20 : (encodeMetaValue mv).drop 20 = encodeFixed32 mv.chkAll.toNat := by
    rw [show 20 = 16 + 4 from rfl, ← List.drop_drop, at16]
    exact List.drop_left' (encodeFixed32_length _)
  simp only [decodeMetaValue, at8, at12, at16, at20, type_eq, u32ToEntryType_toU32,
    decode_checksum, all_eq]
  rw [encodeMetaValue, term_eq]
  rfl

theorem decodeZeroValue_encodeZeroValue {append : ℕ} (bound : append < 2 ^ 32)
    (checksum : UInt32) : decodeZeroValue (encodeZeroValue append checksum) = (append, checksum) := by
  have second : (encodeZeroValue append checksum).drop 4 = encodeFixed32 checksum.toNat :=
    List.drop_left' (encodeFixed32_length _)
  have read : UInt32.ofNat (decodeFixed32 (encodeFixed32 checksum.toNat)) = checksum := by
    simpa using decode_checksum checksum []
  rw [decodeZeroValue, second, read, encodeZeroValue, decodeFixed32_encodeFixed32 bound]

theorem encodeZeroValue_length (append : ℕ) (checksum : UInt32) :
    (encodeZeroValue append checksum).length = 8 := by
  simp [encodeZeroValue]

/-! ## Checksums -/

/-- The bytes of which `CheckThis` takes the checksum.  The index is covered twice. -/
def checkThisBytes (index : ℕ) (entry : AppendEntry) : Bytes :=
  encodeFixed32 index ++ encodeFixed64 entry.term ++ encodeFixed32 entry.type.toU32 ++
    encodeFixed32 index ++ encodeString2 entry.value

/-- The room that it allocates for them, an `int32_t`. -/
def checkThisMaxBytes (entry : AppendEntry) : ℤ :=
  ((4 + 8 + 4 + 2 * 4 + entry.value.length : ℕ) : ℤ).bmod (2 ^ 32)

/-- `LogEntry::CheckThis`: the checksum of one entry, if the bytes have room. -/
def checkThis (index : ℕ) (entry : AppendEntry) : Except LogAssert UInt32 := do
  ensure .buffer (((checkThisBytes index entry).length : ℤ) ≤ checkThisMaxBytes entry)
  return crc32 (checkThisBytes index entry)

/-- `LogEntry::CheckAll`: the running checksum after one entry. -/
def checkAll (preChkAll chkThs : UInt32) : UInt32 :=
  crc32 (encodeFixed32 preChkAll.toNat ++ encodeFixed32 chkThs.toNat)

theorem length_checkThisBytes (index : ℕ) (entry : AppendEntry) :
    (checkThisBytes index entry).length = 20 + (encodeString2 entry.value).length := by
  simp only [checkThisBytes, List.length_append, encodeFixed32_length, encodeFixed64_length]

/-- The last byte has no room if the length of the value takes five bytes. -/
theorem checkThis_fits_iff (index : ℕ) (entry : AppendEntry) :
    ((checkThisBytes index entry).length : ℤ) ≤ checkThisMaxBytes entry ↔
      entry.value.length < 2 ^ 28 := by
  have few := length_encodeVarint32_le_four_iff (entry.value.length % 2 ^ 32)
  have text : (encodeString2 entry.value).length =
      (encodeVarint32 (entry.value.length % 2 ^ 32)).length + entry.value.length := by
    rw [encodeString2, List.length_append]
  rw [length_checkThisBytes, text]
  by_cases small : entry.value.length + 24 < 2 ^ 31
  · have total : 4 + 8 + 4 + 2 * 4 + entry.value.length < 2 ^ 31 := by omega
    have room : checkThisMaxBytes entry = (4 + 8 + 4 + 2 * 4 + entry.value.length : ℕ) :=
      bmod_of_lt total
    rw [room]
    rw [Nat.mod_eq_of_lt (by omega)] at few ⊢
    omega
  · have bound : checkThisMaxBytes entry < 2 ^ 31 :=
      (Int.bmod_lt (by norm_num)).trans_le (by norm_num)
    refine iff_of_false (fun fits => ?_) (by omega)
    rcases Nat.lt_or_ge entry.value.length (2 ^ 32) with narrow | wide
    · rw [Nat.mod_eq_of_lt narrow] at fits few
      omega
    · omega

theorem checkThis_ok {index : ℕ} {entry : AppendEntry} (short : entry.value.length < 2 ^ 28) :
    checkThis index entry = .ok (crc32 (checkThisBytes index entry)) := by
  rw [checkThis, ensure_of ((checkThis_fits_iff index entry).mpr short)]
  rfl

/-- An entry as `Get` returns it. -/
structure CheckedEntry where
  index : ℕ
  preChkAll : UInt32
  chkThs : UInt32
  chkAll : UInt32
  appendEntry : AppendEntry
  deriving DecidableEq, Repr

/-! ## Configurations -/

namespace RaftConfig

/-- Encode a configuration. -/
def toString (rc : RaftConfig) : Bytes :=
  encodeFixed64 rc.me ++ encodeFixed32 rc.peers.length ++ rc.peers.flatMap encodeFixed64

/-- Every field has room in its encoding. -/
structure Encodes (rc : RaftConfig) : Prop where
  me_lt : rc.me < 2 ^ 64
  peers_lt : ∀ addr ∈ rc.peers, addr < 2 ^ 64
  count_lt : rc.peers.length < 2 ^ 31

theorem readPeers_flatMap {peers : List Addr} (peers_lt : ∀ addr ∈ peers, addr < 2 ^ 64) :
    readPeers peers.length (peers.flatMap encodeFixed64) = some peers := by
  induction peers with
  | nil => rfl
  | cons addr rest ih =>
      rw [List.forall_mem_cons] at peers_lt
      have long : ¬(encodeFixed64 addr ++ rest.flatMap encodeFixed64).length < 8 := by simp
      rw [List.flatMap_cons, List.length_cons, readPeers, if_neg long,
        decodeFixed64_encodeFixed64 peers_lt.1, List.drop_left' (encodeFixed64_length addr),
        ih peers_lt.2]
      rfl

/-- Configurations are read back as they were written. -/
theorem fromString_toString {rc : RaftConfig} (encodes : rc.Encodes) :
    fromString rc.toString = some rc := by
  have long : ¬rc.toString.length < 12 := by
    simp only [toString, List.length_append, encodeFixed64_length, encodeFixed32_length]
    omega
  have at8 : rc.toString.drop 8 = encodeFixed32 rc.peers.length ++ rc.peers.flatMap encodeFixed64 := by
    rw [toString, List.append_assoc]
    exact List.drop_left' (encodeFixed64_length _)
  have at12 : rc.toString.drop 12 = rc.peers.flatMap encodeFixed64 := by
    rw [show 12 = 8 + 4 from rfl, ← List.drop_drop, at8]
    exact List.drop_left' (encodeFixed32_length _)
  have count_eq : decodeFixed32 (encodeFixed32 rc.peers.length ++ rc.peers.flatMap encodeFixed64) =
      rc.peers.length := by
    refine decodeFixed32_encodeFixed32 ?_ _
    have := encodes.count_lt
    omega
  have me_eq : decodeFixed64 rc.toString = rc.me := by
    rw [toString, List.append_assoc, decodeFixed64_encodeFixed64 encodes.me_lt]
  simp only [fromString, if_neg long, at8, at12, count_eq, me_eq, if_pos encodes.count_lt,
    readPeers_flatMap encodes.peers_lt]
  rfl

end RaftConfig

end Vraft
