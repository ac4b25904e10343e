import Vraft.Net.RoundTrip

/-!
# Messages of a fixed layout

The encoders of the messages without strings, and both directions of `RaftConfig` of
`raft/config_manager.cc`.  Every field is written behind the ones before it, and its size
is counted.  A `TimeoutNow` is read beyond its last byte, and the decoder of an
`InstallSnapshotReply` returns a `bool` where a number of bytes is expected.
-/

namespace Vraft.Net

open Raw

/-! ## Encoders -/

/-- The bytes of a field, and what is counted for it. -/
abbrev Field := Bytes × ℕ

/-- A field of four bytes. -/
def fixed32 (value : ℕ) : Field := (encodeFixed32 value, 4)

/-- A field of eight bytes. -/
def fixed64 (value : ℕ) : Field := (encodeFixed64 value, 8)

/-- A field of one byte. -/
def boolField (value : Bool) : Field := (encodeBool value, 1)

/-- What has been written, and what has been counted. -/
structure Written where
  bytes : Bytes
  size : ℕ

/-- All fields in a row, and the sum of the sizes that are counted for them. -/
def write (fields : List Field) : Written where
  bytes := fields.flatMap Prod.fst
  size := (fields.map Prod.snd).sum

/-- The fields that every message begins with. -/
def Stamp.fields (stamp : Stamp) : List Field :=
  [fixed64 stamp.src.toNat, fixed64 stamp.dest.toNat, fixed64 stamp.term.toNat,
    fixed32 stamp.uid.toNat, fixed64 stamp.sendTs.toNat, fixed64 stamp.elapse.toNat]

namespace RequestVote

/-- `RequestVote::MaxBytes`. -/
def maxBytes : ℕ := 8 + 8 + 8 + 4 + 8 + 8 + 8 + 4 + 1 + 1

/-- The fields in the order in which they are written. -/
def fields (m : RequestVote) : List Field :=
  m.stamp.fields ++ [fixed32 m.lastLogIndex.toNat, fixed64 m.lastLogTerm.toNat,
    boolField m.leaderTransfer, boolField m.preVote]

end RequestVote

namespace RequestVoteReply

/-- `RequestVoteReply::MaxBytes`. -/
def maxBytes : ℕ := 8 + 8 + 8 + 4 + 8 + 8 + 1 + 1 + 1 + 1 + 8

/-- The fields in the order in which they are written. -/
def fields (m : RequestVoteReply) : List Field :=
  m.stamp.fields ++ [boolField m.granted, boolField m.logOk, boolField m.preVote,
    boolField m.intervalOk, fixed64 m.reqTerm.toNat]

end RequestVoteReply

namespace AppendEntriesReply

/-- `AppendEntriesReply::MaxBytes`. -/
def maxBytes : ℕ := 8 + 8 + 8 + 4 + 8 + 8 + 1 + 4 + 4 + 4 + 8

/-- The fields in the order in which they are written. -/
def fields (m : AppendEntriesReply) : List Field :=
  m.stamp.fields ++ [boolField m.success, fixed32 m.lastLogIndex.toNat,
    fixed32 m.reqPreIndex.toNat, fixed32 m.reqNumEntries.toUInt32.toNat, fixed64 m.reqTerm.toNat]

end AppendEntriesReply

namespace InstallSnapshotReply

/-- `InstallSnapshotReply::MaxBytes`. -/
def maxBytes : ℕ := 8 + 8 + 8 + 4 + 8 + 8 + 4 + 8

/-- The fields in the order in which they are written. -/
def fields (m : InstallSnapshotReply) : List Field :=
  m.stamp.fields ++ [fixed32 m.stored.toUInt32.toNat, fixed64 m.reqTerm.toNat]

end InstallSnapshotReply

namespace TimeoutNow

/-- `TimeoutNow::MaxBytes`. -/
def maxBytes : ℕ := 8 + 8 + 8 + 4 + 8 + 8 + 8 + 4 + 1

/-- The fields in the order in which they are written. -/
def fields (m : TimeoutNow) : List Field :=
  m.stamp.fields ++ [fixed32 m.lastLogIndex.toNat, fixed64 m.lastLogTerm.toNat, boolField m.force]

end TimeoutNow

/-! ## Addresses -/

/-- An address, which messages and configurations have as its 64 bits. -/
structure RaftAddr where
  ip : UInt32
  port : UInt16
  id : Int16
  deriving DecidableEq

namespace RaftAddr

/-- The fields side by side in the memory of a `uint64_t`. -/
def toU64 (addr : RaftAddr) : UInt64 :=
  UInt64.ofNat (decodeFixed64 (encodeFixed32 addr.ip.toNat ++
    (encodeFixed 2 addr.port.toNat ++ encodeFixed 2 addr.id.toUInt16.toNat)))

/-- The address whose bytes these are. -/
def fromU64 (u64 : UInt64) : RaftAddr :=
  let bytes := encodeFixed64 u64.toNat
  ⟨UInt32.ofNat (decodeFixed32 bytes), UInt16.ofNat (decodeFixed ((bytes.drop 4).take 2)),
    (UInt16.ofNat (decodeFixed ((bytes.drop 6).take 2))).toInt16⟩

theorem encodeFixed_decodeFixed (bytes : Bytes) :
    encodeFixed bytes.length (decodeFixed bytes) = bytes := by
  induction bytes with
  | nil => rfl
  | cons byte rest ih =>
      have low := byte.toNat_lt
      rw [List.length_cons, encodeFixed, decodeFixed]
      have first : (byte.toNat + 256 * decodeFixed rest) % 256 = byte.toNat := by omega
      have later : (byte.toNat + 256 * decodeFixed rest) / 256 = decodeFixed rest := by omega
      rw [first, later, ih, UInt8.ofNat_toNat]

/-- An address is read back from its bits. -/
theorem fromU64_toU64 (addr : RaftAddr) : fromU64 addr.toU64 = addr := by
  have port := decodeFixed_encodeFixed 2 addr.port.toNat addr.port.toNat_lt
  have id := decodeFixed_encodeFixed 2 addr.id.toUInt16.toNat addr.id.toUInt16.toNat_lt
  generalize whole : encodeFixed32 addr.ip.toNat ++
    (encodeFixed 2 addr.port.toNat ++ encodeFixed 2 addr.id.toUInt16.toNat) = bytes
  have length : bytes.length = 8 := by
    rw [← whole]
    simp
  have bound : decodeFixed64 bytes < 2 ^ 64 := by
    have small := decodeFixed_lt (bytes.take 8)
    rwa [List.length_take, length] at small
  have back : encodeFixed64 addr.toU64.toNat = bytes := by
    rw [toU64, whole, UInt64.toNat_ofNat', Nat.mod_eq_of_lt bound, decodeFixed64,
      List.take_of_length_le length.le, encodeFixed64, ← length, encodeFixed_decodeFixed]
  rw [fromU64, back, ← whole, decodeFixed32_encodeFixed32 addr.ip.toNat_lt]
  have second : (List.take 2 (List.drop 4 (encodeFixed32 addr.ip.toNat ++
      (encodeFixed 2 addr.port.toNat ++ encodeFixed 2 addr.id.toUInt16.toNat)))) =
        encodeFixed 2 addr.port.toNat := by
    rw [List.drop_left' (encodeFixed32_length _), List.take_left' (encodeFixed_length 2 _)]
  have third : (List.take 2 (List.drop 6 (encodeFixed32 addr.ip.toNat ++
      (encodeFixed 2 addr.port.toNat ++ encodeFixed 2 addr.id.toUInt16.toNat)))) =
        encodeFixed 2 addr.id.toUInt16.toNat := by
    rw [← List.append_assoc, List.drop_left' (by simp),
      List.take_of_length_le (encodeFixed_length 2 _).le]
  rw [second, third, port, id]
  simp

end RaftAddr

/-! ## Configurations -/

/-- A configuration; addresses are their 64 bits. -/
structure RaftConfig where
  me : UInt64
  peers : List UInt64
  deriving DecidableEq, Repr

/-- What stops the decoding of a configuration. -/
inductive ConfigFault
  /-- The number of peers is too large for the bytes there are. -/
  | length
  deriving DecidableEq, Repr

namespace RaftConfig

/-- `RaftConfig::MaxBytes`. -/
def maxBytes (rc : RaftConfig) : ℕ := 8 + 4 * 2 + 8 * rc.peers.length

/-- The number of peers is an `int32_t`. -/
def fields (rc : RaftConfig) : List Field :=
  let peersSize := Int32.ofInt rc.peers.length
  [fixed64 rc.me.toNat, fixed32 peersSize.toUInt32.toNat] ++
    (rc.peers.take peersSize.toInt.toNat).map fun peer => fixed64 peer.toNat

/-- So many peers, one after another. -/
def readPeers : ℕ → Reader ConfigFault (List UInt64)
  | 0 => pure []
  | count + 1 => do
      let peer ← readFixed64
      let rest ← readPeers count
      pure (peer :: rest)

/-- The own address, the number of peers and the peers. -/
def fromString (len : ℤ) : Reader ConfigFault RaftConfig := do
  let me ← readFixed64
  let u32 ← readFixed32
  let peers ← readPeers u32.toInt32.toInt.toNat
  if 0 ≤ len - 8 - 4 - 8 * peers.length then pure ⟨me, peers⟩ else Reader.fail .length

end RaftConfig

/-! ## Round trips -/

/-- What is written is what is counted, and fits; it is read back without a look at what
follows, and the result is the number of bytes. -/
structure RoundTrips {ε M : Type} (maxBytes : ℕ) (written : Written)
    (fromString : ℤ → Reader ε M) (result : ℕ → ℤ) (m : M) : Prop where
  encoded : toString maxBytes written.bytes = some written.bytes
  counted : written.size = written.bytes.length
  decoded : ∀ beyond, ∃ cursor,
    fromString written.bytes.length (Memory.follow written.bytes beyond) Cursor.start =
      .ok (m, cursor) ∧ cursor.reach ≤ written.bytes.length ∧
        result cursor.pos = written.bytes.length

/-- A number of bytes that is returned as a `bool`. -/
def asBool (size : ℕ) : ℤ := if size = 0 then 0 else 1

/-- A message or a configuration of a fixed layout. -/
inductive Fixed
  | requestVote (m : RequestVote)
  | requestVoteReply (m : RequestVoteReply)
  | appendEntriesReply (m : AppendEntriesReply)
  | installSnapshotReply (m : InstallSnapshotReply)
  | timeoutNow (m : TimeoutNow)
  | raftConfig (rc : RaftConfig)

namespace Fixed

/-- Each message is read as it was written, by the decoder of its type. -/
def RoundTrips : Fixed → Prop
  | requestVote m => Net.RoundTrips RequestVote.maxBytes (write m.fields)
      (fun _ => RequestVote.fromString) Nat.cast m
  | requestVoteReply m => Net.RoundTrips RequestVoteReply.maxBytes (write m.fields)
      (fun _ => RequestVoteReply.fromString) Nat.cast m
  | appendEntriesReply m => Net.RoundTrips AppendEntriesReply.maxBytes (write m.fields)
      (fun _ => AppendEntriesReply.fromString) Nat.cast m
  | installSnapshotReply m => Net.RoundTrips InstallSnapshotReply.maxBytes (write m.fields)
      (fun _ => InstallSnapshotReply.fromString) asBool m
  | timeoutNow m => Net.RoundTrips TimeoutNow.maxBytes (write m.fields)
      (fun _ => TimeoutNow.fromString) Nat.cast m
  | raftConfig rc => Net.RoundTrips rc.maxBytes (write rc.fields) RaftConfig.fromString Nat.cast rc

/-- The kinds that are read as they are written, and configurations with room for their
peers. -/
def Sound : Fixed → Prop
  | requestVote _ | requestVoteReply _ | appendEntriesReply _ => True
  | installSnapshotReply _ | timeoutNow _ => False
  | raftConfig rc => rc.maxBytes < 2 ^ 31

end Fixed

/-! ## What is written -/

section Writing

variable {ε M : Type} {maxBytes : ℕ} {fields : List Field} {fromString : ℤ → Reader ε M}
  {result : ℕ → ℤ} {m : M}

theorem bytes_write_append (first second : List Field) :
    (write (first ++ second)).bytes = (write first).bytes ++ (write second).bytes :=
  List.flatMap_append

theorem bytes_write_cons (field : Field) (rest : List Field) :
    (write (field :: rest)).bytes = field.1 ++ (write rest).bytes :=
  rfl

theorem bytes_write_nil : (write []).bytes = [] :=
  rfl

theorem Stamp.bytes_fields (stamp : Stamp) : (write stamp.fields).bytes = stamp.toBytes := by
  simp [write, Stamp.fields, Stamp.toBytes, fixed64, fixed32]

/-- Every field is as wide as it is counted. -/
def Wide (fields : List Field) : Prop :=
  ∀ field ∈ fields, field.1.length = field.2

theorem counted_of_wide (wide : Wide fields) : (write fields).size = (write fields).bytes.length := by
  induction fields with
  | nil => rfl
  | cons field rest ih =>
      obtain ⟨first, later⟩ := List.forall_mem_cons.mp wide
      rw [bytes_write_cons, List.length_append, ← ih later, first]
      rfl

theorem wide_fixed32 (value : ℕ) : (fixed32 value).1.length = (fixed32 value).2 :=
  encodeFixed32_length value

theorem wide_fixed64 (value : ℕ) : (fixed64 value).1.length = (fixed64 value).2 :=
  encodeFixed64_length value

theorem wide_boolField (value : Bool) : (boolField value).1.length = (boolField value).2 :=
  rfl

theorem Stamp.wide (stamp : Stamp) : Wide stamp.fields := by
  simp only [Wide, Stamp.fields, List.forall_mem_cons, wide_fixed64, wide_fixed32, true_and]
  nofun

/-- A decoder that follows the fields reads them back. -/
theorem roundTrips_of_holds (wide : Wide fields) (small : maxBytes < 2 ^ 31)
    (room : (write fields).size ≤ maxBytes)
    (reads : ∀ mem : Memory, mem.Holds 0 (write fields).bytes → ∃ cursor,
      fromString (write fields).size mem Cursor.start = .ok (m, cursor) ∧
        cursor.pos = (write fields).size ∧ cursor.reach ≤ (write fields).size) :
    RoundTrips maxBytes (write fields) fromString Nat.cast m := by
  have counted := counted_of_wide wide
  refine ⟨if_pos ⟨small, counted ▸ room⟩, counted, fun beyond => ?_⟩
  rw [← counted]
  obtain ⟨cursor, done, pos, reach⟩ := reads _ (Memory.follow_holds _ beyond)
  exact ⟨cursor, done, reach, congrArg Nat.cast pos⟩

end Writing

/-! ## Every kind -/

section Kinds

theorem size_stamp (stamp : Stamp) (rest : List Field) :
    (write (stamp.fields ++ rest)).size = 44 + (write rest).size := by
  simp only [write, Stamp.fields, fixed64, fixed32, List.map_append, List.sum_append, List.map_cons,
    List.map_nil, List.sum_cons, List.sum_nil]
  omega

theorem RequestVote.roundTrips (m : RequestVote) : (Fixed.requestVote m).RoundTrips := by
  have size : (write m.fields).size = 58 := size_stamp _ _
  refine roundTrips_of_holds (List.forall_mem_append.mpr ⟨m.stamp.wide, ?_⟩) (by decide)
    (size.trans_le (by decide)) fun mem holds => ?_
  · simp [wide_fixed32, wide_fixed64, wide_boolField]
  · rw [size]
    simp only [fields, bytes_write_append, Stamp.bytes_fields, bytes_write_cons, bytes_write_nil,
      List.append_nil, Memory.holds_append, Stamp.length_toBytes, fixed32, fixed64, boolField,
      encodeFixed32_length, encodeFixed64_length] at holds
    obtain ⟨stamp, index, term, transfer, preVote⟩ := holds
    unfold fromString
    rw [Reader.bind_of_ok (Stamp.fromBytes_holds stamp),
      Reader.bind_of_ok (readFixed32_holds index), Reader.bind_of_ok (readFixed64_holds term),
      Reader.bind_of_ok (readBool_holds transfer), Reader.bind_of_ok (readBool_holds preVote)]
    exact ⟨_, rfl, rfl, by simp [Cursor.start]⟩

theorem RequestVoteReply.roundTrips (m : RequestVoteReply) :
    (Fixed.requestVoteReply m).RoundTrips := by
  have size : (write m.fields).size = 56 := size_stamp _ _
  refine roundTrips_of_holds (List.forall_mem_append.mpr ⟨m.stamp.wide, ?_⟩) (by decide)
    (size.trans_le (by decide)) fun mem holds => ?_
  · simp [wide_fixed64, wide_boolField]
  · rw [size]
    simp only [fields, bytes_write_append, Stamp.bytes_fields, bytes_write_cons, bytes_write_nil,
      List.append_nil, Memory.holds_append, Stamp.length_toBytes, fixed64, boolField] at holds
    obtain ⟨stamp, granted, logOk, preVote, intervalOk, reqTerm⟩ := holds
    unfold fromString
    rw [Reader.bind_of_ok (Stamp.fromBytes_holds stamp), Reader.bind_of_ok (readBool_holds granted),
      Reader.bind_of_ok (readBool_holds logOk), Reader.bind_of_ok (readBool_holds preVote),
      Reader.bind_of_ok (readBool_holds intervalOk), Reader.bind_of_ok (readFixed64_holds reqTerm)]
    exact ⟨_, rfl, rfl, by simp [Cursor.start]⟩

theorem AppendEntriesReply.roundTrips (m : AppendEntriesReply) :
    (Fixed.appendEntriesReply m).RoundTrips := by
  have size : (write m.fields).size = 65 := size_stamp _ _
  refine roundTrips_of_holds (List.forall_mem_append.mpr ⟨m.stamp.wide, ?_⟩) (by decide)
    (size.trans_le (by decide)) fun mem holds => ?_
  · simp [wide_fixed32, wide_fixed64, wide_boolField]
  · rw [size]
    simp only [fields, bytes_write_append, Stamp.bytes_fields, bytes_write_cons, bytes_write_nil,
      List.append_nil, Memory.holds_append, Stamp.length_toBytes, fixed32, fixed64, boolField,
      encodeFixed32_length] at holds
    obtain ⟨stamp, success, index, preIndex, numEntries, reqTerm⟩ := holds
    unfold fromString
    rw [Reader.bind_of_ok (Stamp.fromBytes_holds stamp), Reader.bind_of_ok (readBool_holds success),
      Reader.bind_of_ok (readFixed32_holds index), Reader.bind_of_ok (readFixed32_holds preIndex),
      Reader.bind_of_ok (readInt32_holds numEntries),
      Reader.bind_of_ok (readFixed64_holds reqTerm)]
    exact ⟨_, rfl, rfl, by simp [Cursor.start]⟩

/-- A `bool` is no number of bytes. -/
theorem InstallSnapshotReply.not_roundTrips (m : InstallSnapshotReply) :
    ¬(Fixed.installSnapshotReply m).RoundTrips := by
  intro roundTrips
  have size : (write m.fields).size = 56 := size_stamp _ _
  obtain ⟨cursor, -, -, result⟩ := roundTrips.decoded fun _ => 0
  rw [← roundTrips.counted, size, asBool] at result
  split at result <;> contradiction

/-- The last field is read with seven bytes behind it. -/
theorem TimeoutNow.not_roundTrips (m : TimeoutNow) : ¬(Fixed.timeoutNow m).RoundTrips := by
  intro roundTrips
  have size : (write m.fields).size = 57 := size_stamp _ _
  obtain ⟨cursor, done, inside, -⟩ := roundTrips.decoded fun _ => 0
  rw [← roundTrips.counted, size] at inside
  unfold fromString at done
  rw [Reader.bind_of_ok Stamp.fromBytes_run, Reader.bind_of_ok readFixed32_run,
    Reader.bind_of_ok readFixed64_run] at done
  obtain ⟨force, moved, read, done⟩ := Reader.ok_of_bind done
  obtain ⟨-, rfl⟩ := Prod.mk.inj (Except.ok.inj read)
  obtain ⟨-, rfl⟩ := Prod.mk.inj (Except.ok.inj done)
  simp [Cursor.start] at inside

namespace RaftConfig

theorem readPeers_holds {mem : Memory} {cursor : Cursor} {peers : List UInt64}
    (holds : mem.Holds cursor.pos (write (peers.map fun peer => fixed64 peer.toNat)).bytes) :
    ∃ moved, readPeers peers.length mem cursor = .ok (peers, moved) ∧
      moved.pos = cursor.pos + 8 * peers.length ∧
        moved.reach ≤ max cursor.reach (cursor.pos + 8 * peers.length) := by
  induction peers generalizing cursor with
  | nil => exact ⟨cursor, rfl, rfl, le_max_left _ _⟩
  | cons peer peers ih =>
      rw [List.map_cons, bytes_write_cons, Memory.holds_append, fixed64, encodeFixed64_length]
        at holds
      obtain ⟨moved, done, pos, reach⟩ := @ih (cursor.advance 8) holds.2
      refine ⟨moved, ?_, ?_, ?_⟩
      · rw [List.length_cons, readPeers, Reader.bind_of_ok (readFixed64_holds holds.1),
          Reader.bind_of_ok done]
        rfl
      · rw [pos, Cursor.pos_advance, List.length_cons]
        omega
      · rw [Cursor.pos_advance, Cursor.reach_advance] at reach
        rw [List.length_cons]
        omega

/-- The number of peers is not cut. -/
theorem peersSize_eq {rc : RaftConfig} (small : rc.maxBytes < 2 ^ 31) :
    (Int32.ofInt rc.peers.length).toInt.toNat = rc.peers.length := by
  rw [maxBytes] at small
  rw [Int32.toInt_ofInt_of_le (by omega) (by norm_num; omega), Int.toNat_natCast]

theorem fields_eq {rc : RaftConfig} (small : rc.maxBytes < 2 ^ 31) :
    rc.fields = [fixed64 rc.me.toNat,
      fixed32 (Int32.ofInt rc.peers.length).toUInt32.toNat] ++
        rc.peers.map fun peer => fixed64 peer.toNat := by
  rw [fields, peersSize_eq small, List.take_length]

theorem roundTrips_iff_peers (rc : RaftConfig) :
    (Fixed.raftConfig rc).RoundTrips ↔ rc.maxBytes < 2 ^ 31 := by
  constructor
  · intro roundTrips
    have encoded := roundTrips.encoded
    rw [toString] at encoded
    split at encoded
    · rename_i fits
      exact fits.1
    · contradiction
  · intro small
    have wide_peers : Wide (rc.peers.map fun peer => fixed64 peer.toNat) := by
      intro field mem
      obtain ⟨peer, -, rfl⟩ := List.mem_map.mp mem
      exact wide_fixed64 _
    have wide : Wide rc.fields := by
      rw [fields_eq small]
      refine List.forall_mem_append.mpr ⟨?_, wide_peers⟩
      simp [wide_fixed32, wide_fixed64]
    have size : (write rc.fields).size = 12 + 8 * rc.peers.length := by
      rw [fields_eq small, write]
      simp [fixed64, fixed32, Function.comp_def, Nat.mul_comm]
      omega
    refine roundTrips_of_holds wide small (by rw [size, maxBytes]; omega) fun mem holds => ?_
    rw [fields_eq small, bytes_write_append, bytes_write_cons, bytes_write_cons, bytes_write_nil,
      List.append_nil, Memory.holds_append, Memory.holds_append, List.length_append, fixed64,
      fixed32, encodeFixed64_length, encodeFixed32_length] at holds
    obtain ⟨⟨me, count⟩, peers⟩ := holds
    have number : (Int32.ofInt rc.peers.length).toUInt32.toInt32.toInt.toNat = rc.peers.length := by
      rw [Int32.toInt32_toUInt32, peersSize_eq small]
    obtain ⟨moved, done, pos, reach⟩ :=
      @readPeers_holds mem ((Cursor.start.advance 8).advance 4) rc.peers peers
    have enough : (0 : ℤ) ≤ (write rc.fields).size - 8 - 4 - 8 * rc.peers.length := by
      rw [size]
      omega
    refine ⟨moved, ?_, ?_, ?_⟩
    · rw [fromString, Reader.bind_of_ok (readFixed64_holds me),
        Reader.bind_of_ok (readFixed32_holds count), number, Reader.bind_of_ok done, if_pos enough]
      rfl
    · rw [pos, size]
      rfl
    · rw [size]
      simpa [Cursor.start] using reach

end RaftConfig

end Kinds

/-- What is read back exactly, by kind. -/
theorem Fixed.roundTrips_iff_sound (fixed : Fixed) : fixed.RoundTrips ↔ fixed.Sound := by
  cases fixed with
  | requestVote m => exact iff_of_true m.roundTrips trivial
  | requestVoteReply m => exact iff_of_true m.roundTrips trivial
  | appendEntriesReply m => exact iff_of_true m.roundTrips trivial
  | installSnapshotReply m => exact iff_of_false m.not_roundTrips id
  | timeoutNow m => exact iff_of_false m.not_roundTrips id
  | raftConfig rc => exact rc.roundTrips_iff_peers

/-- With all fields zero. -/
def zeroTimeoutNow : TimeoutNow := ⟨⟨0, 0, 0, 0, 0, 0⟩, 0, 0, false⟩

theorem not_fixed_roundTrips : ¬∀ fixed : Fixed, fixed.RoundTrips :=
  fun all => zeroTimeoutNow.not_roundTrips (all (.timeoutNow zeroTimeoutNow))

end Vraft.Net
