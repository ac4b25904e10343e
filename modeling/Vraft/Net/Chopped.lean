import Vraft.Lib.Cutting
import Vraft.Net.Contained
import Mathlib.Data.List.Induction
import Mathlib.Data.List.Infix

/-!
# Streams that arrive in pieces

`OnMessage` is called with every piece that has been read.  It deals with all whole frames
and keeps the rest, but the loop ends only when the rest is shorter than a header: with the
header of an incomplete frame in front, every turn leaves everything as it is.
-/

namespace Vraft.Net

open Raw Cutting

/-- A frame of a message: a header with its type and the number of bytes of its body,
which any memory behind it leaves decodable. -/
structure Frame where
  type : Int32
  body : Bytes
  msg : Body
  small : body.length < 2 ^ 31
  decodes : ∀ beyond, ∃ final, Body.fromString type.toInt body.length
    (Memory.follow body beyond) Cursor.start = .ok (msg, final)

namespace Frame

/-- The header and the body. -/
def toBytes (frame : Frame) : Bytes :=
  encodeFixed32 frame.body.length ++ (encodeFixed32 frame.type.toUInt32.toNat ++ frame.body)

theorem length_toBytes (frame : Frame) : frame.toBytes.length = headerBytes + frame.body.length := by
  simp only [toBytes, List.length_append, encodeFixed32_length, headerBytes]
  omega

theorem toBytes_pos (frame : Frame) : 0 < frame.toBytes.length := by
  rw [length_toBytes, headerBytes]
  omega

end Frame

namespace Connection

variable {beyond : Connection → Memory} {frames : List Frame}

theorem headerField_encode {value : Int32} (rest : Bytes) :
    headerField (encodeFixed32 value.toUInt32.toNat ++ rest) = value.toInt := by
  rw [headerField, decodeFixed32_encodeFixed32 value.toUInt32.toNat_lt, UInt32.ofNat_toNat]
  rfl

theorem headerField_length {count : ℕ} (small : count < 2 ^ 31) (rest : Bytes) :
    headerField (encodeFixed32 count ++ rest) = count := by
  have toNat : (Int32.ofNat count).toUInt32.toNat = count := Nat.mod_eq_of_lt (by omega)
  rw [← toNat, headerField_encode, Int32.toInt_ofNat_of_lt small, toNat]

theorem bmod_le (count : ℕ) : (count : ℤ).bmod (2 ^ 32) ≤ count := by
  rw [Int.bmod_def]
  split_ifs <;> omega

theorem bodyBytes_frame (frame : Frame) (rest : Bytes) (received : List Body) :
    bodyBytes ⟨frame.toBytes ++ rest, received⟩ = frame.body.length := by
  rw [bodyBytes, Frame.toBytes, List.append_assoc]
  exact headerField_length frame.small _

/-- A whole frame in front is taken off. -/
theorem turn_frame (frame : Frame) (rest : Bytes) (received : List Body) (memory : Memory) :
    turn ⟨frame.toBytes ++ rest, received⟩ memory = .ok ⟨rest, received ++ [frame.msg]⟩ := by
  have bytes := bodyBytes_frame frame rest received
  have length : (frame.toBytes ++ rest).length = headerBytes + frame.body.length + rest.length := by
    rw [List.length_append, frame.length_toBytes]
  have type : type ⟨frame.toBytes ++ rest, received⟩ = frame.type.toInt := by
    rw [Connection.type, Frame.toBytes, List.append_assoc,
      List.drop_left' (encodeFixed32_length _), List.append_assoc]
    exact headerField_encode _
  have body : (frame.toBytes ++ rest).drop headerBytes = frame.body ++ rest := by
    have header : (encodeFixed32 frame.body.length ++
        encodeFixed32 frame.type.toUInt32.toNat).length = headerBytes := by simp [headerBytes]
    rw [Frame.toBytes, ← List.append_assoc, List.append_assoc, List.drop_left' header]
  have takes : TakesFrame ⟨frame.toBytes ++ rest, received⟩ := by
    have sum := bmod_le (headerBytes + frame.body.length)
    rw [TakesFrame, bytes, length]
    rw [Nat.cast_add] at sum
    omega
  obtain ⟨final, decoded⟩ := frame.decodes (Memory.follow rest memory)
  rw [← Memory.follow_append, ← body, ← type, ← bytes] at decoded
  rw [turn_of_ok takes decoded (by rw [bytes]; omega) (by rw [bytes, length]; omega), bytes,
    Int.toNat_natCast, ← frame.length_toBytes, List.drop_left]

/-- In front of an incomplete frame nothing happens. -/
theorem turn_part {frame : Frame} {part : Bytes} (fits : frame.toBytes.length < 2 ^ 31)
    (front : part <+: frame.toBytes) (short : part.length < frame.toBytes.length)
    (received : List Body) (memory : Memory) :
    turn ⟨part, received⟩ memory = .ok ⟨part, received⟩ := by
  unfold turn
  rw [if_neg]
  rintro ⟨header, room⟩
  obtain ⟨more, whole⟩ := front
  have field : part.take 4 = (part ++ more).take 4 := by
    rw [List.take_append_of_le_length]
    exact le_trans (by decide) header
  have bytes : bodyBytes ⟨part, received⟩ = frame.body.length := by
    rw [← bodyBytes_frame frame [] received, List.append_nil, ← whole]
    simp only [bodyBytes, headerField, decodeFixed32, field]
  rw [frame.length_toBytes] at short fits
  rw [bytes, ← Nat.cast_add, bmod_of_lt fits] at room
  dsimp only at room
  omega

/-- A call that returns. -/
def Returns (beyond : Connection → Memory) (conn conn' : Connection) : Prop :=
  ∃ fuel, onMessage beyond fuel conn = some (.ok conn')

/-- `TcpConnection::OnMessage` with every piece in turn: it is appended to the buffer, and
what is there is dealt with. -/
inductive Fed (beyond : Connection → Memory) : Connection → List Bytes → Connection → Prop
  | nil (conn) : Fed beyond conn [] conn
  | cons {conn conn' final : Connection} {chunk : Bytes} {chunks : List Bytes}
      (returns : Returns beyond { conn with buffer := conn.buffer ++ chunk } conn')
      (rest : Fed beyond conn' chunks final) : Fed beyond conn (chunk :: chunks) final

/-- A call returns only with less than a header in the buffer. -/
theorem Returns.short {conn conn' : Connection} (returns : Returns beyond conn conn') :
    conn'.buffer.length < headerBytes := by
  obtain ⟨fuel, done⟩ := returns
  induction fuel generalizing conn with
  | zero => contradiction
  | succ fuel ih =>
      unfold onMessage at done
      split at done
      · rename_i short
        obtain rfl := Except.ok.inj (Option.some.inj done)
        exact short
      · split at done
        · exact absurd (Option.some.inj done) nofun
        · exact ih done

theorem Returns.of_short {conn : Connection} (short : conn.buffer.length < headerBytes) :
    Returns beyond conn conn :=
  ⟨1, if_pos short⟩

/-- A turn comes before the call returns. -/
theorem Returns.turn {conn conn₁ conn' : Connection} (long : headerBytes ≤ conn.buffer.length)
    (turned : conn.turn (beyond conn) = .ok conn₁) (returns : Returns beyond conn₁ conn') :
    Returns beyond conn conn' := by
  obtain ⟨fuel, done⟩ := returns
  refine ⟨fuel + 1, ?_⟩
  rw [onMessage, if_neg (not_lt.mpr long), turned]
  exact done

/-- The whole frames are taken off, if what remains is shorter than a header. -/
theorem returns_cut {front : Bytes} (received : List Body)
    (prefix_ : front <+: frames.flatMap Frame.toBytes)
    (short : (cut Frame.toBytes frames front).2.length < headerBytes) :
    Returns beyond ⟨front, received⟩ ⟨(cut Frame.toBytes frames front).2,
      received ++ (cut Frame.toBytes frames front).1.map Frame.msg⟩ := by
  induction frames generalizing front received with
  | nil =>
      rw [cut_nil_frames, List.map_nil, List.append_nil]
      exact .of_short short
  | cons frame frames ih =>
      by_cases whole : frame.toBytes.length ≤ front.length
      · rw [List.flatMap_cons] at prefix_
        obtain ⟨rest, rfl⟩ := List.prefix_of_prefix_length_le (List.prefix_append _ _) prefix_ whole
        rw [cut_append_code] at short ⊢
        have rest_front := (List.prefix_append_right_inj _).mp prefix_
        have long : headerBytes ≤ (frame.toBytes ++ rest).length := by
          rw [List.length_append, frame.length_toBytes]
          omega
        refine .turn long (turn_frame frame rest received _) ?_
        have others := ih (received ++ [frame.msg]) rest_front short
        rwa [List.append_assoc] at others
      · rw [cut_cons_of_lt (not_le.mp whole)] at short ⊢
        rw [List.map_nil, List.append_nil]
        exact .of_short short

/-- With the header of an incomplete frame in front no number of turns is enough. -/
theorem onMessage_part {frame : Frame} {part : Bytes} (fits : frame.toBytes.length < 2 ^ 31)
    (front : part <+: frame.toBytes) (short : part.length < frame.toBytes.length)
    (long : headerBytes ≤ part.length)
    (received : List Body) (fuel : ℕ) : onMessage beyond fuel ⟨part, received⟩ = none := by
  induction fuel with
  | zero => rfl
  | succ fuel ih =>
      rw [onMessage, if_neg (not_lt.mpr long), turn_part fits front short]
      exact ih

theorem Fed.concat {conn conn₁ conn₂ : Connection} {chunks : List Bytes} {chunk : Bytes}
    (fed : Fed beyond conn chunks conn₁)
    (returns : Returns beyond { conn₁ with buffer := conn₁.buffer ++ chunk } conn₂) :
    Fed beyond conn (chunks ++ [chunk]) conn₂ := by
  induction fed with
  | nil conn => exact .cons returns (.nil _)
  | cons first _ ih => exact .cons first (ih returns)

theorem Fed.short {conn conn' : Connection} {chunks : List Bytes} (fed : Fed beyond conn chunks conn')
    (start : conn.buffer.length < headerBytes) : conn'.buffer.length < headerBytes := by
  induction fed with
  | nil conn => exact start
  | cons returns _ ih => exact ih returns.short

/-! ## Any pieces -/

/-- A connection on which nothing has arrived. -/
def fresh : Connection := ⟨[], []⟩

/-- After the pieces the raft has received exactly the messages of the whole frames among
their bytes, in order, and the buffer has the bytes of the last, incomplete one. -/
def Deals (beyond : Connection → Memory) (frames : List Frame) (chunks : List Bytes) : Prop :=
  Fed beyond fresh chunks ⟨(cut Frame.toBytes frames chunks.flatten).2,
    (cut Frame.toBytes frames chunks.flatten).1.map Frame.msg⟩

theorem deals_of_short {chunks : List Bytes} (prefix_ : chunks.flatten <+: frames.flatMap Frame.toBytes)
    (short : ∀ done rest, chunks = done ++ rest →
      (cut Frame.toBytes frames done.flatten).2.length < headerBytes) :
    Deals beyond frames chunks := by
  induction chunks using List.reverseRecOn with
  | nil =>
      rw [Deals, List.flatten_nil, cut_nil Frame.toBytes_pos]
      exact .nil _
  | append_singleton done chunk ih =>
      rw [List.flatten_append, List.flatten_singleton] at prefix_
      have before := (List.prefix_append _ _).trans prefix_
      have fed := ih before fun done' rest split_ =>
        short done' (rest ++ [chunk]) (by rw [split_, List.append_assoc])
      refine fed.concat ?_
      rw [List.flatten_append, List.flatten_singleton, cut_append frames _ chunk before,
        List.map_append]
      have last := short (done ++ [chunk]) [] (by rw [List.append_nil])
      rw [List.flatten_append, List.flatten_singleton, cut_append frames _ chunk before] at last
      exact returns_cut _ (rest_front frames _ chunk prefix_) last

/-- However a stream of frames is chopped, every call returns with the whole frames dealt
with, if and only if no piece ends behind the header of an incomplete frame. -/
theorem deals_iff (beyond : Connection → Memory) (frames : List Frame) (chunks : List Bytes)
    (stream : chunks.flatten = frames.flatMap Frame.toBytes) :
    (∀ done rest, chunks = done ++ rest → Deals beyond frames done) ↔
      ∀ done rest, chunks = done ++ rest →
        (cut Frame.toBytes frames done.flatten).2.length < headerBytes := by
  constructor
  · intro deals done rest split_
    exact (deals done rest split_).short (by decide)
  · intro short done rest split_
    refine deals_of_short ?_ fun done' rest' split' => short done' (rest' ++ rest) (by
      rw [split_, split', List.append_assoc])
    rw [← stream, split_, List.flatten_append]
    exact List.prefix_append _ _

/-- A request with few bytes fits in a frame, -/
theorem requestOf_small {m : ClientRequest} (short : m.data.length < 128) :
    m.toBytes.length < 2 ^ 31 := by
  have upper := length_encodeString2_le m.data
  simp only [ClientRequest.toBytes, List.length_append, encodeFixed32_length]
  omega

/-- and its decoder counts its bytes. -/
theorem requestOf_decodes {m : ClientRequest} (short : m.data.length < 128) (beyond : Memory) :
    ∃ final, Body.fromString (0 : Int32).toInt m.toBytes.length
      (Memory.follow m.toBytes beyond) Cursor.start = .ok (.clientRequest m, final) := by
  have survives := m.survives_iff.mpr ⟨by rw [ClientRequest.maxBytes]; omega, short⟩
  obtain ⟨bytes, encoded, decodes⟩ := survives
  obtain ⟨final, decoded, all⟩ := decodes beyond
  have same : bytes = m.toBytes := by
    unfold toString at encoded
    split at encoded
    · exact (Option.some.inj encoded).symm
    · contradiction
  subst same
  refine ⟨final, Body.fromString_iff.mpr ⟨?_, ?_⟩⟩
  · show Body.of .clientRequest (ClientRequest.fromString _) _ _ = _
    unfold Body.of
    rw [Reader.bind_of_ok decoded]
    rfl
  · rw [all]
    simp only [ClientRequest.toBytes, List.length_append, encodeFixed32_length]
    omega

/-- The frame of a request with few bytes. -/
def requestOf (m : ClientRequest) (short : m.data.length < 128) : Frame where
  type := 0
  body := m.toBytes
  msg := .clientRequest m
  small := requestOf_small short
  decodes := requestOf_decodes short

/-- An empty request. -/
def emptyRequest : Frame := requestOf ⟨1, .get, []⟩ (by decide)

theorem deals_iff_split :
    [emptyRequest.toBytes.take 7, emptyRequest.toBytes.drop 7].flatten =
        [emptyRequest].flatMap Frame.toBytes ∧
      ∀ done rest, [emptyRequest.toBytes.take 7, emptyRequest.toBytes.drop 7] = done ++ rest →
        Deals (fun _ _ => 0) [emptyRequest] done := by
  have stream : [emptyRequest.toBytes.take 7, emptyRequest.toBytes.drop 7].flatten =
      [emptyRequest].flatMap Frame.toBytes := by
    decide +kernel
  refine ⟨stream, (deals_iff (fun _ _ => 0) [emptyRequest] _ stream).mpr ?_⟩
  intro done rest split_
  have mem : done ∈ List.inits [emptyRequest.toBytes.take 7, emptyRequest.toBytes.drop 7] :=
    (List.mem_inits _ _).mpr ⟨rest, split_.symm⟩
  have short : ∀ done ∈ List.inits [emptyRequest.toBytes.take 7, emptyRequest.toBytes.drop 7],
      (cut Frame.toBytes [emptyRequest] done.flatten).2.length < headerBytes := by
    decide +kernel
  exact short done mem

/-- The header first and then the body: the first call does not return. -/
theorem not_deals : ¬∀ (beyond : Connection → Memory) (frames : List Frame) (chunks : List Bytes),
    chunks.flatten = frames.flatMap Frame.toBytes →
      ∀ done rest, chunks = done ++ rest → Deals beyond frames done := by
  intro all
  have fed := all (fun _ _ => 0) [emptyRequest]
    [emptyRequest.toBytes.take 8, emptyRequest.toBytes.drop 8] (by decide +kernel) _ []
    (List.append_nil _).symm
  cases fed with
  | cons returns _ =>
      obtain ⟨fuel, done⟩ := returns
      have stays := @onMessage_part (fun _ _ => 0) emptyRequest _ (by decide +kernel)
        (List.take_prefix 8 _) (by decide +kernel) (by decide +kernel) [] fuel
      rw [show ({ fresh with buffer := fresh.buffer ++ emptyRequest.toBytes.take 8 } : Connection) =
        ⟨emptyRequest.toBytes.take 8, []⟩ from rfl, stays] at done
      contradiction

end Connection

end Vraft.Net
