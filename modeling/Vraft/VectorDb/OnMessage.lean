import Vraft.Net.Packet

/-!
# Messages of the vector database

`VectorDB::OnMessage` and `VdbConsole::OnMessage`.  Both look at the buffer once, where
`RaftServer::OnMessage` loops: a call deals with one packet at most.
-/

namespace Vraft.VectorDb

open Raw Cutting Net

/-- Who receives messages of one type: how they are decoded, what is done with one, and what
ends a call. -/
structure Receiver (M S : Type) where
  kind : Int32
  fromString : ℤ → Decoder M
  dispatch : M → S → S
  finish : S → S

/-- A connection of a receiver: the bytes to be dealt with, the messages that have been
dispatched, and the receiver's own state. -/
structure Inbox (M S : Type) where
  buffer : Bytes
  dispatched : List M
  owner : S

namespace Inbox

variable {M S : Type} (inbox : Inbox M S)

/-- The first field of the header. -/
def bodyBytes : ℤ := headerField inbox.buffer

/-- The second field of the header. -/
def type : ℤ := headerField (inbox.buffer.drop 4)

/-- A header is there, and what it counts, in an `int32_t`. -/
def TakesFrame : Prop :=
  headerBytes ≤ inbox.buffer.length ∧
    (headerBytes + inbox.bodyBytes).bmod (2 ^ 32) ≤ inbox.buffer.length

instance : Decidable inbox.TakesFrame :=
  inferInstanceAs (Decidable (_ ∧ _))

end Inbox

namespace Receiver

variable {M S : Type} (receiver : Receiver M S)

/-- Decode a body, and assert that the result, a number of bytes, is positive. -/
def decode (type len : ℤ) : Decoder M :=
  if type = receiver.kind.toInt then do
    let msg ← receiver.fromString len
    let bytes ← size
    check .messageBytes (0 < bytes)
    pure msg
  else Reader.fail .messageType

/-- What a call does with the packet in front, with the memory behind the buffer. -/
def handle (beyond : Memory) (inbox : Inbox M S) : Except FrameFault (Inbox M S) :=
  if inbox.TakesFrame then do
    let rest := inbox.buffer.drop headerBytes
    let (msg, _) ← receiver.decode inbox.type inbox.bodyBytes (Memory.follow rest beyond)
      Cursor.start
    let rest ← Connection.retrieve rest inbox.bodyBytes
    .ok ⟨rest, inbox.dispatched ++ [msg], receiver.dispatch msg inbox.owner⟩
  else .ok inbox

/-- `OnMessage`: at most one frame, and what the receiver does at the end. -/
def onMessage (beyond : Memory) (inbox : Inbox M S) : Except FrameFault (Inbox M S) := do
  let inbox ← receiver.handle beyond inbox
  .ok { inbox with owner := receiver.finish inbox.owner }

/-- `TcpConnection::OnMessage`: what has been read is appended, and the receiver called. -/
def read (beyond : Inbox M S → Memory) (inbox : Inbox M S) (chunk : Bytes) :
    Except FrameFault (Inbox M S) :=
  let inbox := { inbox with buffer := inbox.buffer ++ chunk }
  receiver.onMessage (beyond inbox) inbox

end Receiver

/-! ## The server -/

/-- A request for the version. -/
structure MsgVersion where
  seqid : UInt64
  deriving DecidableEq, Repr

namespace MsgVersion

/-- `MsgVersion::ToString`. -/
def toBytes (m : MsgVersion) : Bytes := encodeFixed64 m.seqid.toNat

/-- `MsgVersion::FromString`. -/
def fromString : Decoder MsgVersion := do
  let seqid ← readFixed64
  pure ⟨seqid⟩

end MsgVersion

/-- The version of a server. -/
structure MsgVersionReply where
  seqid : UInt64
  version : Bytes
  deriving DecidableEq, Repr

namespace MsgVersionReply

/-- `MsgVersionReply::ToString`. -/
def toBytes (m : MsgVersionReply) : Bytes :=
  encodeFixed64 m.seqid.toNat ++ encodeString2 m.version

/-- `MsgVersionReply::FromString`. -/
def fromString (len : ℤ) : Decoder MsgVersionReply := do
  let seqid ← readFixed64
  let version ← readString len
  pure ⟨seqid, version⟩

end MsgVersionReply

/-- `"v0.11"`. -/
def vectordbVersion : Bytes := [118, 48, 46, 49, 49]

/-- `garbage` is what stands in the `seqid` of the next replies, which is never set. -/
structure VectorDB where
  start : Bool
  seqid : UInt64
  replies : List MsgVersionReply
  garbage : ℕ → UInt64

namespace VectorDB

/-- `VectorDB::OnMsgVersion`; the number of the reply is never set. -/
def onMsgVersion (_ : MsgVersion) (db : VectorDB) : VectorDB :=
  if db.start then
    { db with replies := db.replies ++ [⟨db.garbage db.replies.length, vectordbVersion⟩] }
  else db

/-- The server takes requests, and numbers them itself. -/
def receiver : Receiver MsgVersion VectorDB where
  kind := 100
  fromString _ := MsgVersion.fromString
  dispatch msg db :=
    onMsgVersion { msg with seqid := db.seqid } { db with seqid := db.seqid + 1 }
  finish db := db

end VectorDB

/-! ## The console -/

/-- The result of a command, and how often it was said to be ready. -/
structure VdbConsole where
  result : Bytes
  ready : ℕ
  deriving DecidableEq

namespace VdbConsole

/-- `VdbConsole::OnVersionReply`. -/
def onVersionReply (msg : MsgVersionReply) (console : VdbConsole) : VdbConsole :=
  { console with result := msg.version }

/-- The console takes replies, and wakes up whoever waits. -/
def receiver : Receiver MsgVersionReply VdbConsole where
  kind := 101
  fromString := MsgVersionReply.fromString
  dispatch := onVersionReply
  finish console := { console with ready := console.ready + 1 }

end VdbConsole

/-! ## One call -/

namespace Receiver

variable {M S : Type} {receiver : Receiver M S}

variable (receiver) in
/-- A packet of a message for the receiver, which any memory behind it leaves decodable.
The code takes its size for an `int32_t`. -/
structure Framed where
  body : Bytes
  msg : M
  small : headerBytes + body.length < 2 ^ 31
  decodes : ∀ beyond, ∃ final, receiver.decode receiver.kind.toInt body.length
    (Memory.follow body beyond) Cursor.start = .ok (msg, final)

/-- The packet of a frame. -/
def Framed.packet (frame : receiver.Framed) : Packet where
  type := receiver.kind
  body := frame.body
  small := lt_of_le_of_lt (Nat.le_add_left _ _) frame.small

/-- The header and the body. -/
def Framed.toBytes (frame : receiver.Framed) : Bytes := frame.packet.toBytes

theorem Framed.length_toBytes (frame : receiver.Framed) :
    frame.toBytes.length = headerBytes + frame.body.length :=
  frame.packet.length_toBytes

theorem Framed.toBytes_pos (frame : receiver.Framed) : 0 < frame.toBytes.length :=
  frame.packet.toBytes_pos

/-- A whole packet in front is taken off, and its message dispatched. -/
theorem handle_framed (frame : receiver.Framed) (rest : Bytes) (dispatched : List M) (owner : S)
    (beyond : Memory) :
    receiver.handle beyond ⟨frame.toBytes ++ rest, dispatched, owner⟩ =
      .ok ⟨rest, dispatched ++ [frame.msg], receiver.dispatch frame.msg owner⟩ := by
  have small := frame.small
  have length : (frame.toBytes ++ rest).length = headerBytes + frame.body.length + rest.length := by
    rw [List.length_append, frame.length_toBytes]
  have header : headerBytes ≤ (frame.toBytes ++ rest).length := by
    omega
  have bytes : headerField (frame.toBytes ++ rest) = frame.body.length :=
    Packet.headerField_front header (List.prefix_refl _)
  have type : headerField ((frame.toBytes ++ rest).drop 4) = receiver.kind.toInt :=
    Packet.headerField_type header (List.prefix_refl _)
  have body : (frame.toBytes ++ rest).drop headerBytes = frame.body ++ rest :=
    frame.packet.drop_header rest
  have takes : Inbox.TakesFrame ⟨frame.toBytes ++ rest, dispatched, owner⟩ := by
    refine ⟨header, ?_⟩
    show (headerBytes + headerField (frame.toBytes ++ rest)).bmod (2 ^ 32) ≤ _
    rw [bytes, ← Nat.cast_add, bmod_of_lt small]
    dsimp only
    omega
  obtain ⟨final, decoded⟩ := frame.decodes (Memory.follow rest beyond)
  rw [← Memory.follow_append] at decoded
  unfold handle
  rw [if_pos takes]
  dsimp only
  simp only [Inbox.type, Inbox.bodyBytes, bytes, type, body, decoded, ok_bind]
  unfold Connection.retrieve
  rw [if_neg (by rw [List.length_append]; omega), if_neg (by omega), Int.toNat_natCast,
    List.drop_left]
  rfl

/-- An incomplete packet stays. -/
theorem handle_part {frame : receiver.Framed} {part : Bytes} (front : part <+: frame.toBytes)
    (short : part.length < frame.toBytes.length) (dispatched : List M) (owner : S)
    (beyond : Memory) :
    receiver.handle beyond ⟨part, dispatched, owner⟩ = .ok ⟨part, dispatched, owner⟩ := by
  rw [frame.length_toBytes] at short
  unfold handle
  rw [if_neg]
  rintro ⟨header, room⟩
  have bytes : headerField part = frame.body.length :=
    Packet.headerField_front header (by rw [List.append_nil]; exact front)
  rw [Inbox.bodyBytes] at room
  dsimp only at room
  rw [bytes, ← Nat.cast_add, bmod_of_lt frame.small] at room
  omega

/-- A call dispatches the message of the first packet if it is there, and no other. -/
theorem onMessage_spec {frames : List receiver.Framed} {front : Bytes}
    (stream : front <+: frames.flatMap Framed.toBytes) (dispatched : List M) (owner : S)
    (beyond : Memory) :
    ∃ last, receiver.onMessage beyond ⟨front, dispatched, owner⟩ = .ok last ∧
      last.dispatched.length ≤ dispatched.length + 1 ∧
      ((cut Framed.toBytes frames front).1.length ≤ 1 →
        last.buffer = (cut Framed.toBytes frames front).2 ∧
          last.dispatched = dispatched ++ (cut Framed.toBytes frames front).1.map Framed.msg) := by
  cases frames with
  | nil =>
      obtain rfl := List.prefix_nil.mp stream
      refine ⟨⟨[], dispatched, receiver.finish owner⟩, ?_, Nat.le_succ _, ?_⟩
      · have waits : receiver.handle beyond ⟨[], dispatched, owner⟩ = .ok ⟨[], dispatched, owner⟩ :=
          if_neg fun takes => absurd takes.1 (by decide : ¬8 ≤ 0)
        unfold onMessage
        rw [waits, ok_bind]
      · rw [cut_nil_frames, List.map_nil, List.append_nil]
        exact fun _ => ⟨rfl, rfl⟩
  | cons frame frames =>
      by_cases whole : frame.toBytes.length ≤ front.length
      · rw [List.flatMap_cons] at stream
        obtain ⟨rest, rfl⟩ := List.prefix_of_prefix_length_le (List.prefix_append _ _) stream whole
        refine ⟨⟨rest, dispatched ++ [frame.msg],
          receiver.finish (receiver.dispatch frame.msg owner)⟩, ?_, ?_, ?_⟩
        · unfold onMessage
          rw [handle_framed, ok_bind]
        · rw [List.length_append, List.length_singleton]
        · rw [cut_append_code]
          intro one
          rw [List.length_cons] at one
          have none : (cut Framed.toBytes frames rest).1 = [] :=
            List.length_eq_zero_iff.mp (by omega)
          rw [none, cut_snd_of_none none]
          exact ⟨rfl, rfl⟩
      · have short := not_le.mp whole
        have part : front <+: frame.toBytes := by
          rw [List.flatMap_cons] at stream
          exact List.prefix_of_prefix_length_le stream (List.prefix_append _ _) short.le
        refine ⟨⟨front, dispatched, receiver.finish owner⟩, ?_, Nat.le_succ _, ?_⟩
        · unfold onMessage
          rw [handle_part part short, ok_bind]
        · rw [cut_cons_of_lt short, List.map_nil, List.append_nil]
          exact fun _ => ⟨rfl, rfl⟩

/-! ## Any pieces -/

/-- After the pieces exactly the messages of the whole packets have been dispatched, in
order, and the buffer has the bytes of the last, incomplete one. -/
def Deals (beyond : Inbox M S → Memory) (owner : S) (frames : List receiver.Framed)
    (chunks : List Bytes) : Prop :=
  ∃ last, chunks.foldlM (receiver.read beyond) ⟨[], [], owner⟩ = .ok last ∧
    last.buffer = (cut Framed.toBytes frames chunks.flatten).2 ∧
    last.dispatched = (cut Framed.toBytes frames chunks.flatten).1.map Framed.msg

/-- The number of packets that are whole in what has arrived. -/
def complete (frames : List receiver.Framed) (chunks : List Bytes) : ℕ :=
  (cut Framed.toBytes frames chunks.flatten).1.length

theorem deals_nil (beyond : Inbox M S → Memory) (owner : S) (frames : List receiver.Framed) :
    Deals beyond owner frames [] := by
  rw [Deals, List.flatten_nil, cut_nil Framed.toBytes_pos]
  exact ⟨_, rfl, rfl, rfl⟩

/-- One more piece is dealt with if and only if it completes at most one packet. -/
theorem Deals.concat_iff {beyond : Inbox M S → Memory} {owner : S} {frames : List receiver.Framed}
    {chunks : List Bytes} {chunk : Bytes} (deals : Deals beyond owner frames chunks)
    (stream : (chunks ++ [chunk]).flatten <+: frames.flatMap Framed.toBytes) :
    Deals beyond owner frames (chunks ++ [chunk]) ↔
      complete frames (chunks ++ [chunk]) ≤ complete frames chunks + 1 := by
  obtain ⟨⟨buffer, dispatched, owner'⟩, ran, rfl, rfl⟩ := deals
  rw [List.flatten_append, List.flatten_singleton] at stream
  have before := (List.prefix_append _ _).trans stream
  have joined := cut_append frames chunks.flatten chunk before
  obtain ⟨last, called, atMost, dealt⟩ := onMessage_spec
    (rest_front frames chunks.flatten chunk stream)
    ((cut Framed.toBytes frames chunks.flatten).1.map Framed.msg) owner'
    (beyond ⟨(cut Framed.toBytes frames chunks.flatten).2 ++ chunk,
      (cut Framed.toBytes frames chunks.flatten).1.map Framed.msg, owner'⟩)
  have run : (chunks ++ [chunk]).foldlM (receiver.read beyond) ⟨[], [], owner⟩ = .ok last := by
    rw [List.foldlM_append, ran, ok_bind, List.foldlM_cons]
    unfold read
    rw [called, ok_bind]
    rfl
  rw [Deals, complete, complete, List.flatten_append, List.flatten_singleton, joined,
    List.length_append, Nat.add_le_add_iff_left, List.map_append, run]
  constructor
  · rintro ⟨last', same, -, all⟩
    obtain rfl := Except.ok.inj same
    rw [all, List.length_append, Nat.add_le_add_iff_left, List.length_map] at atMost
    exact atMost
  · intro one
    exact ⟨last, rfl, dealt one⟩

/-- After every piece what has arrived is dealt with. -/
def Answers (beyond : Inbox M S → Memory) (owner : S) (frames : List receiver.Framed)
    (chunks : List Bytes) : Prop :=
  ∀ done rest, chunks = done ++ rest → Deals beyond owner frames done

/-- No piece completes more than one packet. -/
def Single (frames : List receiver.Framed) (chunks : List Bytes) : Prop :=
  ∀ done chunk rest, chunks = done ++ chunk :: rest →
    complete frames (done ++ [chunk]) ≤ complete frames done + 1

/-- Frames and replies are dealt with as they should if and only if no piece completes more
than one packet; from a piece to the next, those before it have been dealt with. -/
theorem answers_iff_single (beyond : Inbox M S → Memory) (owner : S)
    {frames : List receiver.Framed} {chunks : List Bytes}
    (stream : chunks.flatten <+: frames.flatMap Framed.toBytes) :
    Answers beyond owner frames chunks ↔ Single frames chunks := by
  constructor
  · rintro deals done chunk rest rfl
    refine (Deals.concat_iff (deals done (chunk :: rest) rfl) ?_).mp
      (deals (done ++ [chunk]) rest (by rw [List.append_assoc]; rfl))
    refine List.IsPrefix.trans ?_ stream
    rw [List.flatten_append, List.flatten_append, List.flatten_singleton, List.flatten_cons,
      ← List.append_assoc]
    exact List.prefix_append _ _
  · intro single done
    induction done using List.reverseRecOn with
    | nil => exact fun _ _ => deals_nil beyond owner frames
    | append_singleton done chunk ih =>
        rintro rest rfl
        refine (Deals.concat_iff (ih (chunk :: rest) (by rw [List.append_assoc]; rfl)) ?_).mpr
          (single done chunk rest (by rw [List.append_assoc]; rfl))
        rw [List.flatten_append] at stream
        exact (List.prefix_append _ _).trans stream

end Receiver

open Receiver

/-- Server and console deal with all they have received after every piece, if and only if no
piece completes more than one packet. -/
theorem answers_iff (beyond : Inbox MsgVersion VectorDB → Memory)
    (beyond' : Inbox MsgVersionReply VdbConsole → Memory) (db : VectorDB) (console : VdbConsole)
    {requests : List VectorDB.receiver.Framed} {replies : List VdbConsole.receiver.Framed}
    {chunks chunks' : List Bytes} (stream : chunks.flatten <+: requests.flatMap Framed.toBytes)
    (stream' : chunks'.flatten <+: replies.flatMap Framed.toBytes) :
    (Answers beyond db requests chunks ↔ Single requests chunks) ∧
      (Answers beyond' console replies chunks' ↔ Single replies chunks') :=
  ⟨answers_iff_single beyond db stream, answers_iff_single beyond' console stream'⟩

theorem Receiver.decode_of_ok {M S : Type} {receiver : Receiver M S} {len : ℤ} {mem : Memory}
    {msg : M} {final : Cursor}
    (decoded : receiver.fromString len mem Cursor.start = .ok (msg, final))
    (moved : 0 < final.pos) :
    receiver.decode receiver.kind.toInt len mem Cursor.start = .ok (msg, final) := by
  unfold decode
  rw [if_pos rfl, Reader.bind_of_ok decoded,
    Reader.bind_of_ok (show size mem final = .ok (final.pos, final) from rfl), check, if_pos moved]
  rfl

theorem MsgVersion.fromString_holds {m : MsgVersion} {mem : Memory} (holds : mem.Holds 0 m.toBytes) :
    fromString mem Cursor.start = .ok (m, Cursor.start.advance 8) := by
  unfold fromString
  rw [Reader.bind_of_ok (readFixed64_holds holds)]
  rfl

theorem MsgVersionReply.length_toBytes (m : MsgVersionReply) :
    m.toBytes.length = 8 + (encodeString2 m.version).length := by
  simp only [toBytes, List.length_append, encodeFixed64_length]

theorem MsgVersionReply.fromString_holds {m : MsgVersionReply} {mem : Memory}
    (short : m.version.length < 128) (holds : mem.Holds 0 m.toBytes) :
    fromString m.toBytes.length mem Cursor.start =
      .ok (m, (Cursor.start.advance 8).advance (encodeString2 m.version).length) := by
  have upper := length_encodeString2_le m.version
  have length := m.length_toBytes
  rw [toBytes, Memory.holds_append, encodeFixed64_length] at holds
  obtain ⟨seqid, version⟩ := holds
  unfold fromString
  rw [Reader.bind_of_ok (readFixed64_holds seqid),
    Reader.bind_of_ok (readString_holds short (by omega) version (by rw [length]; exact le_rfl))]
  rfl

/-- The packet of a request. -/
def VectorDB.request (seqid : UInt64) : VectorDB.receiver.Framed where
  body := MsgVersion.toBytes ⟨seqid⟩
  msg := ⟨seqid⟩
  small := by
    rw [MsgVersion.toBytes, encodeFixed64_length]
    decide
  decodes beyond := by
    have decoded := MsgVersion.fromString_holds (Memory.follow_holds (MsgVersion.toBytes ⟨seqid⟩) beyond)
    exact ⟨_, decode_of_ok decoded (by decide)⟩

theorem VdbConsole.reply_small (seqid : UInt64) {version : Bytes} (short : version.length < 128) :
    headerBytes + (MsgVersionReply.toBytes ⟨seqid, version⟩).length < 2 ^ 31 := by
  have upper := length_encodeString2_le version
  rw [MsgVersionReply.length_toBytes, headerBytes]
  dsimp only
  omega

theorem VdbConsole.reply_decodes (seqid : UInt64) {version : Bytes}
    (short : version.length < 128) (beyond : Memory) :
    ∃ final, VdbConsole.receiver.decode VdbConsole.receiver.kind.toInt
      (MsgVersionReply.toBytes ⟨seqid, version⟩).length
      (Memory.follow (MsgVersionReply.toBytes ⟨seqid, version⟩) beyond) Cursor.start =
        .ok (⟨seqid, version⟩, final) := by
  have decoded := MsgVersionReply.fromString_holds short
    (Memory.follow_holds (MsgVersionReply.toBytes ⟨seqid, version⟩) beyond)
  have moved : 0 < ((Cursor.start.advance 8).advance (encodeString2 version).length).pos :=
    Nat.lt_of_lt_of_le (by decide : 0 < 8) (Nat.le_add_right _ _)
  exact ⟨_, decode_of_ok decoded moved⟩

/-- The packet of a reply with a short version. -/
def VdbConsole.reply (seqid : UInt64) (version : Bytes) (short : version.length < 128) :
    VdbConsole.receiver.Framed where
  body := MsgVersionReply.toBytes ⟨seqid, version⟩
  msg := ⟨seqid, version⟩
  small := reply_small seqid short
  decodes := reply_decodes seqid short

/-- The first of two packets ends in the second of three pieces. -/
def inThree (stream : Bytes) : List Bytes :=
  [stream.take 9, (stream.drop 9).take 12, stream.drop 21]

theorem answers_iff_pieces :
    (Answers (fun _ _ => 0) (⟨true, 0, [], fun _ => 0⟩ : VectorDB)
        [VectorDB.request 7, VectorDB.request 8]
        (inThree ((VectorDB.request 7).toBytes ++ (VectorDB.request 8).toBytes)) ↔
      Single [VectorDB.request 7, VectorDB.request 8]
        (inThree ((VectorDB.request 7).toBytes ++ (VectorDB.request 8).toBytes))) ∧
    (Answers (fun _ _ => 0) (⟨[], 0⟩ : VdbConsole)
        [VdbConsole.reply 7 vectordbVersion (by decide),
          VdbConsole.reply 8 vectordbVersion (by decide)]
        (inThree ((VdbConsole.reply 7 vectordbVersion (by decide)).toBytes ++
          (VdbConsole.reply 8 vectordbVersion (by decide)).toBytes)) ↔
      Single [VdbConsole.reply 7 vectordbVersion (by decide),
          VdbConsole.reply 8 vectordbVersion (by decide)]
        (inThree ((VdbConsole.reply 7 vectordbVersion (by decide)).toBytes ++
          (VdbConsole.reply 8 vectordbVersion (by decide)).toBytes))) :=
  answers_iff (fun _ _ => 0) (fun _ _ => 0) _ _ (by decide +kernel) (by decide +kernel)

/-- Two packets in one piece: the second is left. -/
theorem not_answers :
    (¬∀ (beyond : Inbox MsgVersion VectorDB → Memory) (db : VectorDB)
        (requests : List VectorDB.receiver.Framed) (chunks : List Bytes),
      chunks.flatten = requests.flatMap Framed.toBytes → Answers beyond db requests chunks) ∧
    ¬∀ (beyond : Inbox MsgVersionReply VdbConsole → Memory) (console : VdbConsole)
        (replies : List VdbConsole.receiver.Framed) (chunks : List Bytes),
      chunks.flatten = replies.flatMap Framed.toBytes → Answers beyond console replies chunks := by
  constructor
  · intro all
    have answers := all (fun _ _ => 0) ⟨true, 0, [], fun _ => 0⟩
      [VectorDB.request 7, VectorDB.request 8]
      [(VectorDB.request 7).toBytes ++ (VectorDB.request 8).toBytes] (by decide +kernel)
    have single := (answers_iff_single _ _ (by decide +kernel)).mp answers
    exact absurd (single [] _ [] rfl) (by decide +kernel)
  · intro all
    have answers := all (fun _ _ => 0) ⟨[], 0⟩
      [VdbConsole.reply 7 vectordbVersion (by decide), VdbConsole.reply 8 vectordbVersion (by decide)]
      [(VdbConsole.reply 7 vectordbVersion (by decide)).toBytes ++
        (VdbConsole.reply 8 vectordbVersion (by decide)).toBytes] (by decide +kernel)
    have single := (answers_iff_single _ _ (by decide +kernel)).mp answers
    exact absurd (single [] _ [] rfl) (by decide +kernel)

end Vraft.VectorDb
