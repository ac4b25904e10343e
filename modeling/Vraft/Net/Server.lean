import Vraft.Net.Messages

/-!
# Taking messages off a connection

`RaftServer::OnMessage`.  The bytes that have arrived and are still to be dealt with are
a queue; memory goes on behind it.  Every turn of the loop looks at the header in front
and, if it takes the frame for complete, decodes and retrieves it.
-/

namespace Vraft.Net

open Raw

/-- What is handed to raft. -/
inductive Body
  | clientRequest (m : ClientRequest)
  | ping (m : Ping)
  | pingReply (m : PingReply)
  | requestVote (m : RequestVote)
  | requestVoteReply (m : RequestVoteReply)
  | appendEntries (m : AppendEntries)
  | appendEntriesReply (m : AppendEntriesReply)
  | installSnapshot (m : InstallSnapshot)
  | installSnapshotReply (m : InstallSnapshotReply)
  | timeoutNow (m : TimeoutNow)
  deriving DecidableEq

/-- Decode a message of one kind. -/
def Body.of {M : Type} (wrap : M → Body) (decoder : Decoder M) : Decoder Body := do
  let m ← decoder
  pure (wrap m)

/-- The decoder that the type of a frame selects. -/
def Body.select (type len : ℤ) : Decoder Body :=
  match type with
  | 0 => Body.of .clientRequest (ClientRequest.fromString len)
  | 2 => Body.of .ping (Ping.fromString len)
  | 3 => Body.of .pingReply (Ping.fromString len)
  | 4 => Body.of .requestVote RequestVote.fromString
  | 5 => Body.of .requestVoteReply RequestVoteReply.fromString
  | 6 => Body.of .appendEntries (AppendEntries.fromString len)
  | 7 => Body.of .appendEntriesReply AppendEntriesReply.fromString
  | 8 => Body.of .installSnapshot (InstallSnapshot.fromString len)
  | 9 => Body.of .installSnapshotReply InstallSnapshotReply.fromString
  | 10 => Body.of .timeoutNow TimeoutNow.fromString
  | _ => Reader.fail .messageType

/-- Decode, and assert that the result, a number of bytes, is positive. -/
def Body.fromString (type len : ℤ) : Decoder Body := do
  let body ← Body.select type len
  let bytes ← size
  check .messageBytes (0 < bytes)
  pure body

/-- `sizeof(MsgHeader)`. -/
def headerBytes : ℕ := 8

/-- The two signed fields of a header. -/
def headerField (bytes : Bytes) : ℤ :=
  (UInt32.ofNat (decodeFixed32 bytes)).toInt32.toInt

/-- A connection: the bytes to be dealt with, and what raft has received. -/
structure Connection where
  buffer : Bytes
  received : List Body
  deriving DecidableEq

namespace Connection

variable (conn : Connection)

/-- The first field of the header. -/
def bodyBytes : ℤ := headerField conn.buffer

/-- The second field of the header. -/
def type : ℤ := headerField (conn.buffer.drop 4)

/-- The header is there, and the sum of its size and the number it gives, an
`int32_t`, is not above the number of bytes there are. -/
def TakesFrame : Prop :=
  headerBytes ≤ conn.buffer.length ∧
    (headerBytes + conn.bodyBytes).bmod (2 ^ 32) ≤ conn.buffer.length

instance : Decidable conn.TakesFrame :=
  inferInstanceAs (Decidable (_ ∧ _))

/-- Drop bytes from the front.  Only `count ≤ ReadableBytes()` is asserted: a negative
number moves the read position back. -/
def retrieve (bytes : Bytes) (count : ℤ) : Except FrameFault Bytes :=
  if bytes.length < count then .error .retrieve
  else if count < 0 then .error .backwards
  else .ok (bytes.drop count.toNat)

/-- One turn of the loop, with the memory behind the buffer. -/
def turn (beyond : Memory) : Except FrameFault Connection :=
  if conn.TakesFrame then do
    let rest := conn.buffer.drop headerBytes
    let (body, _) ← Body.fromString conn.type conn.bodyBytes (Memory.follow rest beyond) Cursor.start
    let rest ← retrieve rest conn.bodyBytes
    .ok ⟨rest, conn.received ++ [body]⟩
  else .ok conn

/-- At most `fuel` turns, as long as there is a header in the buffer.  What is behind
the buffer may change with every turn. -/
def onMessage (beyond : Connection → Memory) : ℕ → Connection →
    Option (Except FrameFault Connection)
  | 0, _ => none
  | fuel + 1, conn =>
      if conn.buffer.length < headerBytes then some (.ok conn)
      else
        match conn.turn (beyond conn) with
        | .error failure => some (.error failure)
        | .ok conn => onMessage beyond fuel conn

end Connection

end Vraft.Net
