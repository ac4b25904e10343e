import Vraft.Net.Chopped
import Vraft.Net.FixedLayout
import Vraft.VectorDb.Objects
import Vraft.VectorDb.OnMessage
import Vraft.Vstore.VstoreSm

/-!
# Room for what is encoded

An encoder writes before it compares what it has written with the room it was given, so
that `MaxBytes` has to be enough.  It gives eight bytes to the length of a string, which
takes five at most, and is enough for all records.  `CheckThis` has a sum of its own, in
which the index is counted once although it is written twice.
-/

namespace Vraft

open Raw

/-! ## Bounds -/

/-- `VstoreGet` and `VstoreGetReply`. -/
structure VstoreMessage where
  uid : UInt32
  text : Bytes
  deriving DecidableEq

namespace VstoreMessage

/-- `MaxBytes` of both. -/
def maxBytes (m : VstoreMessage) : ℕ := 4 + 2 * 4 + m.text.length

/-- `ToString` of both. -/
def toBytes (m : VstoreMessage) : Bytes :=
  encodeFixed32 m.uid.toNat ++ encodeString2 m.text

theorem length_toBytes_le (m : VstoreMessage) : m.toBytes.length ≤ m.maxBytes := by
  have text := VectorDb.length_encodeString2_le_add m.text
  rw [toBytes, List.length_append, encodeFixed32_length, maxBytes]
  omega

end VstoreMessage

theorem Vstore.KV.length_toBytes_le (kv : Vstore.KV) : kv.toBytes.length ≤ kv.maxBytes := by
  have key := VectorDb.length_encodeString2_le_add kv.key
  have value := VectorDb.length_encodeString2_le_add kv.value
  rw [toBytes, List.length_append, maxBytes]
  omega

namespace VectorDb

/-- `MsgVersion::MaxBytes`. -/
def MsgVersion.maxBytes : ℕ := 8

/-- `MsgVersionReply::MaxBytes`. -/
def MsgVersionReply.maxBytes (m : MsgVersionReply) : ℕ := 8 + 2 * 4 + m.version.length

theorem MsgVersionReply.length_toBytes_le (m : MsgVersionReply) :
    m.toBytes.length ≤ m.maxBytes := by
  have version := length_encodeString2_le_add m.version
  rw [toBytes, List.length_append, encodeFixed64_length, maxBytes]
  omega

end VectorDb

namespace Net

/-- `LogEntry::MaxBytes`. -/
def LogEntry.maxBytes (entry : LogEntry) : ℕ :=
  4 + 4 + 4 + 4 + 8 + 4 + 2 * 4 + entry.value.length

theorem LogEntry.length_toBytes_le (entry : LogEntry) : entry.toBytes.length ≤ entry.maxBytes := by
  have value := VectorDb.length_encodeString2_le_add entry.value
  rw [length_toBytes, maxBytes]
  omega

theorem AppendEntries.length_toBytes_le (m : AppendEntries) :
    m.toBytes.length ≤ m.maxBytes := by
  have entries : (m.entries.flatMap LogEntry.toBytes).length ≤
      (m.entries.map LogEntry.maxBytes).sum := by
    rw [List.length_flatMap]
    exact List.sum_le_sum fun entry _ => entry.length_toBytes_le
  change (m.entries.flatMap LogEntry.toBytes).length ≤ (m.entries.map fun entry =>
    4 + 4 + 4 + 4 + 8 + 4 + 2 * 4 + entry.value.length).sum at entries
  simp only [toBytes, List.length_append, Stamp.length_toBytes, encodeFixed32_length,
    encodeFixed64_length]
  rw [maxBytes]
  omega

namespace Varied

/-- `ToString` of each message. -/
def toBytes : Varied → Bytes
  | appendEntries m => m.toBytes
  | installSnapshot m => m.toBytes
  | clientRequest m => m.toBytes
  | clientRequestReply m => m.toBytes
  | ping m => m.toBytes
  | pingReply m => m.toBytes

theorem length_ping_le (m : Ping) : m.toBytes.length ≤ m.maxBytes := by
  have msg := VectorDb.length_encodeString2_le_add m.msg
  simp only [Ping.toBytes, List.length_append, encodeFixed32_length, encodeFixed64_length]
  rw [Ping.maxBytes]
  omega

theorem length_toBytes_le (m : Varied) : m.toBytes.length ≤ m.maxBytes := by
  cases m with
  | appendEntries m => exact m.length_toBytes_le
  | installSnapshot m =>
      have data := VectorDb.length_encodeString2_le_add m.data
      simp only [toBytes, InstallSnapshot.toBytes, List.length_append, Stamp.length_toBytes,
        encodeFixed32_length, encodeFixed64_length, encodeBool, List.length_singleton]
      rw [maxBytes, InstallSnapshot.maxBytes]
      omega
  | clientRequest m =>
      have data := VectorDb.length_encodeString2_le_add m.data
      simp only [toBytes, ClientRequest.toBytes, List.length_append, encodeFixed32_length]
      rw [maxBytes, ClientRequest.maxBytes]
      omega
  | clientRequestReply m =>
      have msg := VectorDb.length_encodeString2_le_add m.msg
      have data := VectorDb.length_encodeString2_le_add m.data
      simp only [toBytes, ClientRequestReply.toBytes, List.length_append, encodeFixed32_length]
      rw [maxBytes, ClientRequestReply.maxBytes]
      omega
  | ping m => exact length_ping_le m
  | pingReply m => exact length_ping_le m

end Varied

namespace Fixed

/-- `MaxBytes` of each message. -/
def maxBytes : Fixed → ℕ
  | requestVote _ => RequestVote.maxBytes
  | requestVoteReply _ => RequestVoteReply.maxBytes
  | appendEntriesReply _ => AppendEntriesReply.maxBytes
  | installSnapshotReply _ => InstallSnapshotReply.maxBytes
  | timeoutNow _ => TimeoutNow.maxBytes
  | raftConfig rc => rc.maxBytes

/-- `ToString` of each message. -/
def toBytes : Fixed → Bytes
  | requestVote m => (write m.fields).bytes
  | requestVoteReply m => (write m.fields).bytes
  | appendEntriesReply m => (write m.fields).bytes
  | installSnapshotReply m => (write m.fields).bytes
  | timeoutNow m => (write m.fields).bytes
  | raftConfig rc => (write rc.fields).bytes

theorem length_stamped_le {stamp : Stamp} {fields : List Field} {maxBytes : ℕ}
    (wide : Wide fields) (room : 44 + (write fields).size ≤ maxBytes) :
    (write (stamp.fields ++ fields)).bytes.length ≤ maxBytes := by
  have stamped : Wide (stamp.fields ++ fields) := List.forall_mem_append.mpr ⟨stamp.wide, wide⟩
  rwa [← counted_of_wide stamped, size_stamp]

theorem length_raftConfig_le (rc : RaftConfig) : (write rc.fields).bytes.length ≤ rc.maxBytes := by
  have peers : ((rc.peers.take (Int32.ofInt rc.peers.length).toInt.toNat).map fun _ => 8).sum ≤
      8 * rc.peers.length := by
    rw [List.map_const', List.sum_replicate, List.length_take, smul_eq_mul, Nat.mul_comm]
    exact Nat.mul_le_mul_left 8 (min_le_right _ _)
  rw [RaftConfig.fields, bytes_write_append, bytes_write_cons, bytes_write_cons, bytes_write_nil]
  simp only [write, List.length_append, List.length_flatMap, List.map_map, Function.comp_def,
    fixed64, fixed32, encodeFixed64_length, encodeFixed32_length, List.length_nil]
  rw [RaftConfig.maxBytes]
  omega

theorem length_toBytes_le (m : Fixed) : m.toBytes.length ≤ m.maxBytes := by
  cases m with
  | requestVote m =>
      apply length_stamped_le
      · simp [Wide, wide_fixed32, wide_fixed64, wide_boolField]
      · exact le_rfl
  | requestVoteReply m =>
      apply length_stamped_le
      · simp [Wide, wide_fixed64, wide_boolField]
      · exact le_rfl
  | appendEntriesReply m =>
      apply length_stamped_le
      · simp [Wide, wide_fixed32, wide_fixed64, wide_boolField]
      · exact le_rfl
  | installSnapshotReply m =>
      apply length_stamped_le
      · simp [Wide, wide_fixed32, wide_fixed64]
      · exact le_rfl
  | timeoutNow m =>
      apply length_stamped_le
      · simp [Wide, wide_fixed32, wide_fixed64, wide_boolField]
      · exact le_rfl
  | raftConfig rc => exact length_raftConfig_le rc

end Fixed

end Net

/-! ## All records -/

/-- Everything that has a `MaxBytes`. -/
inductive Record
  | logEntry (entry : Net.LogEntry)
  | varied (m : Net.Varied)
  | fixed (m : Net.Fixed)
  | vstore (m : VstoreMessage)
  | kv (pair : Vstore.KV)
  | msgVersion (m : VectorDb.MsgVersion)
  | msgVersionReply (m : VectorDb.MsgVersionReply)
  | names (list : List Bytes)
  | replica (r : VectorDb.Replica)
  | partition (p : VectorDb.Partition)
  | table (t : VectorDb.Table)
  | vec (f32s : List VectorDb.Float32Bits)
  | vecValue (vv : VectorDb.VecValue)
  | vecObj (vo : VectorDb.VecObj)
  | vindexParam (param : VectorDb.VIndexParam)

namespace Record

/-- `MaxBytes` of each record. -/
def maxBytes : Record → ℕ
  | logEntry entry => entry.maxBytes
  | varied m => m.maxBytes
  | fixed m => m.maxBytes
  | vstore m => m.maxBytes
  | kv pair => pair.maxBytes
  | msgVersion _ => VectorDb.MsgVersion.maxBytes
  | msgVersionReply m => m.maxBytes
  | names list => VectorDb.Names.maxBytes list
  | replica r => r.maxBytes
  | partition p => p.maxBytes
  | table t => t.maxBytes
  | vec f32s => VectorDb.Vec.maxBytes f32s
  | vecValue vv => vv.maxBytes
  | vecObj vo => vo.maxBytes
  | vindexParam param => param.maxBytes

/-- What `ToString` writes. -/
def toBytes : Record → Bytes
  | logEntry entry => entry.toBytes
  | varied m => m.toBytes
  | fixed m => m.toBytes
  | vstore m => m.toBytes
  | kv pair => pair.toBytes
  | msgVersion m => m.toBytes
  | msgVersionReply m => m.toBytes
  | names list => VectorDb.Names.toBytes list
  | replica r => r.toBytes
  | partition p => p.toBytes
  | table t => t.toBytes
  | vec f32s => VectorDb.Vec.toBytes f32s
  | vecValue vv => vv.toBytes
  | vecObj vo => vo.toBytes
  | vindexParam param => param.toBytes

/-- No encoder writes more than `MaxBytes`. -/
theorem length_toBytes_le (record : Record) : record.toBytes.length ≤ record.maxBytes := by
  cases record with
  | logEntry entry => exact entry.length_toBytes_le
  | varied m => exact m.length_toBytes_le
  | fixed m => exact m.length_toBytes_le
  | vstore m => exact m.length_toBytes_le
  | kv pair => exact pair.length_toBytes_le
  | msgVersion m => exact (encodeFixed64_length _).le
  | msgVersionReply m => exact m.length_toBytes_le
  | names list => exact VectorDb.Names.length_toBytes_le list
  | replica r => exact r.length_toBytes_le
  | partition p => exact p.length_toBytes_le
  | table t => exact t.length_toBytes_le
  | vec f32s => exact (VectorDb.Vec.length_toBytes f32s).le
  | vecValue vv => exact vv.length_toBytes_le
  | vecObj vo => exact vo.length_toBytes_le
  | vindexParam param => exact param.length_toBytes_le

end Record

/-! ## The bounds together -/

/-- Every record fits if its bound is an `int32_t`, and the checksum of an entry is taken
inside its buffer exactly for values below `2 ^ 28` bytes. -/
theorem encoders_inside_iff (record : Record) (index : ℕ) (entry : AppendEntry) :
    (record.maxBytes < 2 ^ 31 → record.toBytes.length ≤ record.maxBytes) ∧
        ((checkThisBytes index entry).length : ℤ) ≤ checkThisMaxBytes entry ↔
      entry.value.length < 2 ^ 28 := by
  rw [checkThis_fits_iff, and_iff_right_iff_imp]
  exact fun _ _ => record.length_toBytes_le

/-- A value of `2 ^ 28` bytes: 24 bytes and the value are allocated, and a byte more is
written. -/
theorem not_encoders_inside :
    ¬∀ (record : Record) (index : ℕ) (entry : AppendEntry),
      (record.maxBytes < 2 ^ 31 → record.toBytes.length ≤ record.maxBytes) ∧
        ((checkThisBytes index entry).length : ℤ) ≤ checkThisMaxBytes entry := by
  intro all
  have exists_long (count : ℕ) : ∃ value : Bytes, value.length = count :=
    ⟨List.replicate count 0, List.length_replicate⟩
  obtain ⟨value, length⟩ := exists_long (2 ^ 28)
  have fits := (all (.names []) 1 ⟨1, .data, value⟩).2
  rw [checkThis_fits_iff, length] at fits
  exact Nat.lt_irrefl _ fits

end Vraft
