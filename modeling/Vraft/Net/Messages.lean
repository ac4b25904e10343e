import Vraft.RaftLog.Record
import Vraft.Util.Decoding

/-!
# Messages on the wire

`ToString` and `FromString` of the messages, with the fields that only the network
layer reads.  Every format is written twice in the source, field by field, and so it
is here.  A body is decoded from the place the pointer is handed, whatever its length;
the number that `FromString` returns is the distance the pointer has moved.
-/

namespace Vraft.Net

open Raw

/-- The asserts on the way from a frame to a message, and a read position that moves
back to bytes the queue no longer has. -/
inductive FrameFault
  | entryType
  | entryBytes
  | entriesLength
  | messageType
  | messageBytes
  | retrieve
  | backwards
  deriving DecidableEq, Repr

/-- A decoder of the network layer. -/
abbrev Decoder (α : Type) := Reader FrameFault α

/-- Where the pointer is: the number of bytes a decoder has counted. -/
def size : Decoder ℕ := fun _ cursor => .ok (cursor.pos, cursor)

/-- `assert(c)`. -/
def check (site : FrameFault) (c : Prop) [Decidable c] : Decoder Unit :=
  if c then pure () else Reader.fail site

/-- A `bool` field, one byte. -/
def readBool : Decoder Bool := do
  let u8 ← readFixed8
  pure (u8 ≠ 0)

/-- One byte. -/
def encodeBool (value : Bool) : Bytes := [if value then 1 else 0]

/-- A signed 32-bit field. -/
def readInt32 : Decoder Int32 := do
  let u32 ← readFixed32
  pure u32.toInt32

/-- A string in what is left of `len` bytes; a field without one stays empty. -/
def readString (len : ℤ) : Decoder Bytes := do
  let counted ← size
  let found ← readString2 (len - counted)
  pure (found.getD [])

/-! ## The fields of most messages -/

/-- Sender, receiver, term, and what serves tracing. -/
structure Stamp where
  src : UInt64
  dest : UInt64
  term : UInt64
  uid : UInt32
  sendTs : UInt64
  elapse : UInt64
  deriving DecidableEq, Repr

/-- Addresses, term, identifier and times. -/
def Stamp.toBytes (stamp : Stamp) : Bytes :=
  encodeFixed64 stamp.src.toNat ++ (encodeFixed64 stamp.dest.toNat ++
    (encodeFixed64 stamp.term.toNat ++ (encodeFixed32 stamp.uid.toNat ++
      (encodeFixed64 stamp.sendTs.toNat ++ encodeFixed64 stamp.elapse.toNat))))

/-- The fields that every decoder begins with. -/
def Stamp.fromBytes : Decoder Stamp := do
  let src ← readFixed64
  let dest ← readFixed64
  let term ← readFixed64
  let uid ← readFixed32
  let sendTs ← readFixed64
  let elapse ← readFixed64
  pure ⟨src, dest, term, uid, sendTs, elapse⟩

/-! ## Pings -/

/-- A message between servers that carries a text. -/
structure Ping where
  src : UInt64
  dest : UInt64
  uid : UInt32
  sendTs : UInt64
  elapse : UInt64
  msg : Bytes
  deriving DecidableEq, Repr

namespace Ping

/-- `Ping::MaxBytes`. -/
def maxBytes (m : Ping) : ℕ := 8 + 8 + 4 + 8 + 8 + (2 * 4 + m.msg.length)

/-- `Ping::ToString`. -/
def toBytes (m : Ping) : Bytes :=
  encodeFixed64 m.src.toNat ++ (encodeFixed64 m.dest.toNat ++ (encodeFixed32 m.uid.toNat ++
    (encodeFixed64 m.sendTs.toNat ++ (encodeFixed64 m.elapse.toNat ++ encodeString2 m.msg))))

/-- `Ping::FromString`. -/
def fromString (len : ℤ) : Decoder Ping := do
  let src ← readFixed64
  let dest ← readFixed64
  let uid ← readFixed32
  let sendTs ← readFixed64
  let elapse ← readFixed64
  let msg ← readString len
  pure ⟨src, dest, uid, sendTs, elapse, msg⟩

end Ping

/-- The same fields in the same order. -/
abbrev PingReply := Ping

/-! ## Clients -/

/-- What a client asks for. -/
inductive ClientCmd
  | propose
  | leaderTransfer
  | addServer
  | removeServer
  | get
  | error
  deriving DecidableEq, Repr

/-- `ClientCmdToU32`. -/
def clientCmdToU32 : ClientCmd → ℕ
  | .propose => 0
  | .leaderTransfer => 1
  | .addServer => 2
  | .removeServer => 3
  | .get => 4
  | .error => 5

/-- `U32ToClientCmd`. -/
def u32ToClientCmd : ℕ → ClientCmd
  | 0 => .propose
  | 1 => .leaderTransfer
  | 2 => .addServer
  | 3 => .removeServer
  | 4 => .get
  | _ => .error

/-- A request of a client. -/
structure ClientRequest where
  uid : UInt32
  cmd : ClientCmd
  data : Bytes
  deriving DecidableEq, Repr

namespace ClientRequest

/-- `ClientRequest::MaxBytes`. -/
def maxBytes (m : ClientRequest) : ℕ := 4 + 4 + 2 * 4 + m.data.length

/-- `ClientRequest::ToString`. -/
def toBytes (m : ClientRequest) : Bytes :=
  encodeFixed32 m.uid.toNat ++ (encodeFixed32 (clientCmdToU32 m.cmd) ++ encodeString2 m.data)

/-- `ClientRequest::FromString`. -/
def fromString (len : ℤ) : Decoder ClientRequest := do
  let uid ← readFixed32
  let u32 ← readFixed32
  let data ← readString len
  pure ⟨uid, u32ToClientCmd u32.toNat, data⟩

end ClientRequest

/-- The answer to a client. -/
structure ClientRequestReply where
  uid : UInt32
  code : Int32
  msg : Bytes
  data : Bytes
  deriving DecidableEq

namespace ClientRequestReply

/-- `ClientRequestReply::MaxBytes`. -/
def maxBytes (m : ClientRequestReply) : ℕ :=
  4 + 4 + 2 * 4 + m.msg.length + 2 * 4 + m.data.length

/-- `ClientRequestReply::ToString`. -/
def toBytes (m : ClientRequestReply) : Bytes :=
  encodeFixed32 m.uid.toNat ++ (encodeFixed32 m.code.toUInt32.toNat ++
    (encodeString2 m.msg ++ encodeString2 m.data))

/-- `ClientRequestReply::FromString`. -/
def fromString (len : ℤ) : Decoder ClientRequestReply := do
  let uid ← readFixed32
  let code ← readInt32
  let msg ← readString len
  let data ← readString len
  pure ⟨uid, code, msg, data⟩

end ClientRequestReply

/-! ## Votes -/

/-- A candidate asks for a vote, or whether it would get one. -/
structure RequestVote where
  stamp : Stamp
  lastLogIndex : UInt32
  lastLogTerm : UInt64
  leaderTransfer : Bool
  preVote : Bool
  deriving DecidableEq, Repr

/-- `RequestVote::FromString`. -/
def RequestVote.fromString : Decoder RequestVote := do
  let stamp ← Stamp.fromBytes
  let lastLogIndex ← readFixed32
  let lastLogTerm ← readFixed64
  let leaderTransfer ← readBool
  let preVote ← readBool
  pure ⟨stamp, lastLogIndex, lastLogTerm, leaderTransfer, preVote⟩

/-- The answer to a vote request, with the tests it is made of. -/
structure RequestVoteReply where
  stamp : Stamp
  granted : Bool
  logOk : Bool
  preVote : Bool
  intervalOk : Bool
  reqTerm : UInt64
  deriving DecidableEq, Repr

/-- `RequestVoteReply::FromString`. -/
def RequestVoteReply.fromString : Decoder RequestVoteReply := do
  let stamp ← Stamp.fromBytes
  let granted ← readBool
  let logOk ← readBool
  let preVote ← readBool
  let intervalOk ← readBool
  let reqTerm ← readFixed64
  pure ⟨stamp, granted, logOk, preVote, intervalOk, reqTerm⟩

/-- A leader asks a follower to stand at once. -/
structure TimeoutNow where
  stamp : Stamp
  lastLogIndex : UInt32
  lastLogTerm : UInt64
  force : Bool
  deriving DecidableEq, Repr

/-- The last field: eight bytes are read, of which one is kept and stepped over. -/
def readForce : Decoder Bool := fun mem cursor =>
  .ok (UInt8.ofNat (decodeFixed64 (mem.read cursor.pos 8)) ≠ 0,
    ⟨cursor.pos + 1, max cursor.reach (cursor.pos + 8)⟩)

/-- `TimeoutNow::FromString`. -/
def TimeoutNow.fromString : Decoder TimeoutNow := do
  let stamp ← Stamp.fromBytes
  let lastLogIndex ← readFixed32
  let lastLogTerm ← readFixed64
  let force ← readForce
  pure ⟨stamp, lastLogIndex, lastLogTerm, force⟩

/-! ## Entries -/

/-- An entry; its checksum of the log before it is not sent. -/
structure LogEntry where
  index : UInt32
  chkThs : UInt32
  chkAll : UInt32
  term : UInt64
  type : EntryType
  value : Bytes
  deriving DecidableEq, Repr

namespace LogEntry

/-- `LogEntry::ToString`. -/
def toBytes (entry : LogEntry) : Bytes :=
  encodeFixed32 entry.index.toNat ++ (encodeFixed32 entry.chkThs.toNat ++
    (encodeFixed32 entry.chkAll.toNat ++ (encodeFixed64 entry.term.toNat ++
      (encodeFixed32 entry.type.toU32 ++ encodeString2 entry.value))))

/-- The type of an entry, unless the assert of `U32ToEntryType` fails. -/
def readType : Decoder EntryType := do
  let u32 ← readFixed32
  match u32ToEntryType u32.toNat with
  | .ok type => pure type
  | .error _ => Reader.fail .entryType

/-- The entry, or nothing where `-1` is returned.  The slice of the value is what
is left of `len` bytes but for the index and the term. -/
def fromString (len : ℤ) : Decoder (Option LogEntry) := do
  let index ← readFixed32
  let chkThs ← readFixed32
  let chkAll ← readFixed32
  let term ← readFixed64
  let type ← readType
  let found ← readString2 (len - 4 - 8)
  pure (found.map fun value => ⟨index, chkThs, chkAll, term, type, value⟩)

end LogEntry

/-- Entries of a leader behind a position of its log. -/
structure AppendEntries where
  stamp : Stamp
  preLogIndex : UInt32
  preLogTerm : UInt64
  commitIndex : UInt32
  entries : List LogEntry
  deriving DecidableEq, Repr

namespace AppendEntries

/-- An entry is given the room of all its fields, also of the one that is not sent. -/
def maxBytes (m : AppendEntries) : ℕ :=
  8 + 8 + 8 + 4 + 8 + 8 + 4 + 8 + 4 + 2 * 4 +
    (m.entries.map fun entry => 4 + 4 + 4 + 4 + 8 + 4 + 2 * 4 + entry.value.length).sum

/-- `AppendEntries::ToString`. -/
def toBytes (m : AppendEntries) : Bytes :=
  m.stamp.toBytes ++ (encodeFixed32 m.preLogIndex.toNat ++ (encodeFixed64 m.preLogTerm.toNat ++
    (encodeFixed32 m.commitIndex.toNat ++ (encodeFixed32 m.entries.length ++
      m.entries.flatMap LogEntry.toBytes))))

/-- Decode `count` entries.  `len2` is what is taken to be left: it does not know of
the two time stamps. -/
def readEntries : ℕ → ℤ → Decoder (List LogEntry)
  | 0, len2 => do
      check .entriesLength (0 ≤ len2)
      pure []
  | count + 1, len2 => do
      let before ← size
      match ← LogEntry.fromString len2 with
      | none => Reader.fail .entryBytes
      | some entry =>
          let after ← size
          let rest ← readEntries count (len2 - (after - before))
          pure (entry :: rest)

/-- `AppendEntries::FromString`. -/
def fromString (len : ℤ) : Decoder AppendEntries := do
  let stamp ← Stamp.fromBytes
  let preLogIndex ← readFixed32
  let preLogTerm ← readFixed64
  let commitIndex ← readFixed32
  let entriesSize ← readInt32
  let entries ← readEntries entriesSize.toInt.toNat
    (len - 8 - 8 - 8 - 4 - 4 - 8 - 4 - 4)
  pure ⟨stamp, preLogIndex, preLogTerm, commitIndex, entries⟩

end AppendEntries

/-- The answer of a follower, with what the request asked for. -/
structure AppendEntriesReply where
  stamp : Stamp
  success : Bool
  lastLogIndex : UInt32
  reqPreIndex : UInt32
  reqNumEntries : Int32
  reqTerm : UInt64
  deriving DecidableEq

/-- `AppendEntriesReply::FromString`. -/
def AppendEntriesReply.fromString : Decoder AppendEntriesReply := do
  let stamp ← Stamp.fromBytes
  let success ← readBool
  let lastLogIndex ← readFixed32
  let reqPreIndex ← readFixed32
  let reqNumEntries ← readInt32
  let reqTerm ← readFixed64
  pure ⟨stamp, success, lastLogIndex, reqPreIndex, reqNumEntries, reqTerm⟩

/-! ## Snapshots -/

/-- A piece of a snapshot. -/
structure InstallSnapshot where
  stamp : Stamp
  lastIndex : UInt32
  lastTerm : UInt64
  offset : Int32
  data : Bytes
  done : Bool
  deriving DecidableEq

namespace InstallSnapshot

/-- `InstallSnapshot::MaxBytes`. -/
def maxBytes (m : InstallSnapshot) : ℕ :=
  8 + 8 + 8 + 4 + 8 + 8 + 4 + 8 + 4 + (2 * 4 + m.data.length) + 1

/-- `InstallSnapshot::ToString`. -/
def toBytes (m : InstallSnapshot) : Bytes :=
  m.stamp.toBytes ++ (encodeFixed32 m.lastIndex.toNat ++ (encodeFixed64 m.lastTerm.toNat ++
    (encodeFixed32 m.offset.toUInt32.toNat ++ (encodeString2 m.data ++ encodeBool m.done))))

/-- `InstallSnapshot::FromString`. -/
def fromString (len : ℤ) : Decoder InstallSnapshot := do
  let stamp ← Stamp.fromBytes
  let lastIndex ← readFixed32
  let lastTerm ← readFixed64
  let offset ← readInt32
  let data ← readString len
  let done ← readBool
  pure ⟨stamp, lastIndex, lastTerm, offset, data, done⟩

end InstallSnapshot

/-- How much of a snapshot has been stored. -/
structure InstallSnapshotReply where
  stamp : Stamp
  stored : Int32
  reqTerm : UInt64
  deriving DecidableEq

/-- `InstallSnapshotReply::FromString`. -/
def InstallSnapshotReply.fromString : Decoder InstallSnapshotReply := do
  let stamp ← Stamp.fromBytes
  let stored ← readInt32
  let reqTerm ← readFixed64
  pure ⟨stamp, stored, reqTerm⟩

end Vraft.Net
