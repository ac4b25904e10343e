import Vraft.Net.Packet
import Vraft.Seda.Buffer

/-!
# Reading into the buffer of a connection

`TcpConnectionAllocBuffer2` offers what is free behind the content of the input buffer, and
`Append` grows nothing, since what has been read is in the memory already.  So a packet can
be received only if it ends within the memory, and where it begins depends on the packets
before it that were taken off without emptying the buffer.
-/

namespace Vraft.Seda

open Buffer Cutting Net

/-- `BUF_INIT_BYTES`. -/
def bufInitBytes : Int32 := 1024 * 64

/-- `BUF_MAX_WASTE_BYTES`. -/
def bufMaxWasteBytes : Int32 := 1024 * 64 / 2

namespace Buffer

/-- The buffer that the constructor without arguments makes. -/
def standard (reserved : ℕ → UInt8) : Buffer where
  maxWasteBytes := 32768
  storage := (List.range 65536).map reserved
  size := 0
  readIndex := 0
  writeIndex := 0

theorem make_standard (reserved : ℕ → UInt8) :
    make bufInitBytes bufMaxWasteBytes reserved = .ok (standard reserved) := by
  have init : bufInitBytes.toInt = 65536 := by decide
  have waste : bufMaxWasteBytes.toInt = 32768 := by decide
  unfold make
  rw [init, waste, if_pos (by decide), if_pos (by decide)]
  rfl

/-- What the header in front says. -/
def bodyBytes (buf : Buffer) : ℤ := headerField buf.content

/-- A handler that takes off the packets that are complete, in turns. -/
def consume : ℕ → Buffer → Except BufferFault Buffer
  | 0, buf => .ok buf
  | fuel + 1, buf =>
      if headerBytes ≤ buf.readableBytes ∧ headerBytes + buf.bodyBytes ≤ buf.readableBytes then do
        let header ← buf.retrieve headerBytes
        let rest ← header.retrieve buf.bodyBytes
        consume fuel rest
      else .ok buf

/-- Where reading goes on after a `Retrieve` that leaves something. -/
def kept (maxWasteBytes read : ℤ) : ℤ :=
  if maxWasteBytes < read then 0 else read

theorem settled_of_ne {maxWasteBytes read write : ℤ} (pending : read ≠ write) :
    settled maxWasteBytes read write = kept maxWasteBytes read :=
  if_neg pending

/-- Where reading goes on after a packet, if something follows it. -/
def advance (maxWasteBytes read : ℤ) (packet : Packet) : ℤ :=
  kept maxWasteBytes (kept maxWasteBytes (read + headerBytes) + packet.body.length)

/-- Where reading goes on after packets with something left behind them. -/
def readAfter (maxWasteBytes read : ℤ) (packets : List Packet) (left : Bytes) : ℤ :=
  if packets = [] then read
  else if left = [] then 0
  else packets.foldl (advance maxWasteBytes) read

variable {buf : Buffer}

/-- A packet in front is taken off. -/
theorem retrieve_packet {packet : Packet} {left : Bytes} (sound : buf.Sound)
    (waste : 0 ≤ buf.maxWasteBytes) (content : buf.content = packet.toBytes ++ left) :
    ∃ header rest, buf.retrieve headerBytes = .ok header ∧
      header.retrieve packet.body.length = .ok rest ∧ buf.Becomes left rest ∧
      rest.readIndex = readAfter buf.maxWasteBytes buf.readIndex [packet] left := by
  have length : buf.content.length = headerBytes + packet.body.length + left.length := by
    rw [content, List.length_append, packet.length_toBytes]
  have readable := sound.readableBytes_eq_length
  have within : (headerBytes : ℤ) ≤ buf.readableBytes := by
    omega
  obtain ⟨header, first, becomes, read⟩ :=
    retrieve_spec sound waste (Int.natCast_nonneg _) within
  have body : header.content = packet.body ++ left := by
    rw [becomes.content_eq, content, Int.toNat_natCast, packet.drop_header]
  have bodyLength : header.content.length = packet.body.length + left.length := by
    rw [body, List.length_append]
  have readable' := becomes.sound.readableBytes_eq_length
  have written := becomes.sound.length_content
  have within' : (packet.body.length : ℤ) ≤ header.readableBytes := by
    omega
  obtain ⟨rest, second, becomes', read'⟩ :=
    retrieve_spec becomes.sound (by rw [becomes.maxWasteBytes_eq]; exact waste)
      (Int.natCast_nonneg _) within'
  rw [body, Int.toNat_natCast, List.drop_left] at becomes'
  refine ⟨header, rest, first, second, becomes.trans becomes', ?_⟩
  rw [read', becomes.maxWasteBytes_eq, readAfter, if_neg (List.cons_ne_nil _ _)]
  split_ifs with emptied
  · rw [emptied, List.length_nil] at bodyLength
    exact if_pos (by omega)
  · have some := List.length_pos_of_ne_nil emptied
    have before := sound.length_content
    rw [settled_of_ne (by omega), read, settled_of_ne (by omega)]
    rfl

/-- An incomplete packet stays. -/
theorem consume_part {packet : Packet} (sound : buf.Sound) (fuel : ℕ)
    (part : buf.content <+: packet.toBytes) (short : buf.content.length < packet.toBytes.length) :
    consume fuel buf = .ok buf := by
  cases fuel with
  | zero => rfl
  | succ fuel =>
      have readable := sound.readableBytes_eq_length
      rw [packet.length_toBytes] at short
      unfold consume
      rw [if_neg]
      rintro ⟨header, whole⟩
      have front : buf.content <+: packet.toBytes ++ [] := by
        rw [List.append_nil]
        exact part
      have field : buf.bodyBytes = packet.body.length :=
        Packet.headerField_front (by omega) front
      omega

theorem consume_nothing (sound : buf.Sound) (fuel : ℕ) (empty : buf.content = []) :
    consume fuel buf = .ok buf := by
  cases fuel with
  | zero => rfl
  | succ fuel =>
      have readable := sound.readableBytes_eq_length
      rw [empty, List.length_nil] at readable
      unfold consume
      rw [readable]
      exact if_neg fun both => absurd both.1 (by decide)

theorem readAfter_cons {maxWasteBytes read : ℤ} {packet : Packet} {packets : List Packet}
    {front left : Bytes} (nothing : front = [] → packets = [] ∧ left = [])
    (all : packets = [] → left = front) :
    readAfter maxWasteBytes (readAfter maxWasteBytes read [packet] front) packets left =
      readAfter maxWasteBytes read (packet :: packets) left := by
  cases packets with
  | nil => rw [all rfl, readAfter, if_pos rfl]
  | cons next packets =>
      have pending : front ≠ [] := fun empty => List.cons_ne_nil _ _ (nothing empty).1
      simp only [readAfter, reduceCtorEq, if_false, pending, List.foldl_cons, List.foldl_nil]

/-- The complete packets are taken off, and the rest stays. -/
theorem consume_spec {packets : List Packet} {fuel : ℕ} (sound : buf.Sound)
    (waste : 0 ≤ buf.maxWasteBytes) (stream : buf.content <+: packets.flatMap Packet.toBytes)
    (enough : buf.content.length ≤ fuel) :
    ∃ next, consume fuel buf = .ok next ∧
      buf.Becomes (cut Packet.toBytes packets buf.content).2 next ∧
      next.readIndex = readAfter buf.maxWasteBytes buf.readIndex
        (cut Packet.toBytes packets buf.content).1 (cut Packet.toBytes packets buf.content).2 := by
  induction packets generalizing buf fuel with
  | nil =>
      have empty : buf.content = [] := List.prefix_nil.mp stream
      exact ⟨buf, consume_nothing sound fuel empty, .refl sound, rfl⟩
  | cons packet packets ih =>
      by_cases whole : packet.toBytes.length ≤ buf.content.length
      · rw [List.flatMap_cons] at stream
        obtain ⟨left, content⟩ :=
          List.prefix_of_prefix_length_le (List.prefix_append _ _) stream whole
        have readable := sound.readableBytes_eq_length
        have length := congrArg List.length content
        rw [List.length_append, packet.length_toBytes] at length
        rw [← content] at stream
        have others := (List.prefix_append_right_inj _).mp stream
        obtain ⟨fuel, rfl⟩ : ∃ more, fuel = more + 1 :=
          ⟨fuel - 1, by rw [headerBytes] at length; omega⟩
        have front : buf.content <+: packet.toBytes ++ left := by
          rw [content]
        have field : buf.bodyBytes = packet.body.length :=
          Packet.headerField_front (by omega) front
        obtain ⟨header, rest, first, second, becomes, read⟩ :=
          retrieve_packet sound waste content.symm
        have kept : rest.content = left := becomes.content_eq
        rw [← content, cut_append_code]
        have less : rest.content.length ≤ fuel := by
          rw [kept]
          rw [headerBytes] at length
          omega
        obtain ⟨next, consumed, becomes', read'⟩ := ih becomes.sound
          (by rw [becomes.maxWasteBytes_eq]; exact waste) (by rw [kept]; exact others) less
        rw [kept] at becomes' read'
        refine ⟨next, ?_, becomes.trans becomes', ?_⟩
        · unfold consume
          rw [if_pos (by omega), field, first, ok_bind, second, ok_bind, consumed]
        · rw [read', read, becomes.maxWasteBytes_eq]
          refine readAfter_cons (fun empty => ?_) fun none => ?_
          · rw [empty, cut_nil Packet.toBytes_pos]
            exact ⟨rfl, rfl⟩
          · exact cut_snd_of_none none
      · have short := not_le.mp whole
        have part : buf.content <+: packet.toBytes := by
          rw [List.flatMap_cons] at stream
          exact List.prefix_of_prefix_length_le stream (List.prefix_append _ _) short.le
        rw [cut_cons_of_lt short]
        exact ⟨buf, consume_part sound fuel part short, .refl sound, rfl⟩

end Buffer

/-- A connection as its callbacks see it: what has been received, and whether it is
closed. -/
structure TcpConnection where
  inputBuf : Buffer
  closed : Bool
  deriving DecidableEq

namespace TcpConnection

/-- A connection that has just been accepted. -/
def fresh (reserved : ℕ → UInt8) : TcpConnection := ⟨standard reserved, false⟩

variable (conn : TcpConnection)

/-- `TcpConnectionAllocBuffer2`: the length of the region behind the content. -/
def allocBuffer2 : ℤ := conn.inputBuf.writableBytes

/-- `TcpConnection::OnMessage` with a handler that consumes every complete packet. -/
def onMessage (bytes : Bytes) : Except BufferFault TcpConnection := do
  let appended ← conn.inputBuf.append bytes []
  let consumed ← consume appended.content.length appended
  .ok { conn with inputBuf := consumed }

/-- `TcpConnectionHandleRead`. -/
def handleRead (nread : ℤ) (bytes : Bytes) : Except BufferFault TcpConnection :=
  if 0 < nread then conn.onMessage bytes else .ok { conn with closed := true }

/-- What libuv may do: fail if the region has no room, and otherwise read into it. -/
def Delivers (nread : ℤ) (bytes : Bytes) : Prop :=
  if conn.allocBuffer2 ≤ 0 then nread < 0 ∧ bytes = []
  else 0 < nread ∧ nread ≤ conn.allocBuffer2 ∧ bytes.length = nread

/-- Reads, one after the other, with the bytes that they deliver. -/
inductive Reads : TcpConnection → Bytes → TcpConnection → Prop
  | nil (conn : TcpConnection) : Reads conn [] conn
  | cons {conn next last : TcpConnection} {nread : ℤ} {bytes later : Bytes}
      (opened : conn.closed = false) (delivers : conn.Delivers nread bytes)
      (handled : conn.handleRead nread bytes = .ok next) (rest : Reads next later last) :
      Reads conn (bytes ++ later) last

/-- The bytes are the front of a packet, but not all of it. -/
def Incomplete (bytes : Bytes) : Prop :=
  bytes ≠ [] ∧ ∃ packet : Packet, bytes <+: packet.toBytes ∧ bytes ≠ packet.toBytes

/-- The connection goes on receiving: it is open, offers room for the rest of a packet, and
takes what is read of the stream to come. -/
structure Receives (stream : Bytes) : Prop where
  opened : conn.closed = false
  room : Incomplete conn.inputBuf.content → 0 < conn.allocBuffer2
  takes : ∀ nread bytes, conn.Delivers nread bytes → bytes <+: stream →
    ∃ next, conn.handleRead nread bytes = .ok next

/-- However the stream is read, the connection goes on receiving. -/
def AlwaysReceives (stream : Bytes) : Prop :=
  ∀ arrived later last, arrived ++ later = stream → Reads conn arrived last → last.Receives later

/-- Packets end within the memory, if they are taken off without emptying the buffer, or
with emptying it where they fill it. -/
def RoomFrom (capacity maxWasteBytes : ℤ) : ℤ → List Packet → Prop
  | _, [] => True
  | read, packet :: packets =>
      read + packet.toBytes.length ≤ capacity ∧
        RoomFrom capacity maxWasteBytes
          (if read + packet.toBytes.length = capacity then 0
          else advance maxWasteBytes read packet) packets

/-! ## Reads -/

/-- What is in the buffer and `stream` are the packets to come, the first of which is not
complete. -/
structure Stands (packets : List Packet) (stream : Bytes) : Prop where
  opened : conn.closed = false
  sound : conn.inputBuf.Sound
  waste : 0 ≤ conn.inputBuf.maxWasteBytes
  capacity_pos : 0 < conn.inputBuf.capacity
  capacity_lt : conn.inputBuf.capacity < 2 ^ 31
  whole : conn.inputBuf.content ++ stream = packets.flatMap Packet.toBytes
  part : cut Packet.toBytes packets conn.inputBuf.content = ([], conn.inputBuf.content)
  start : conn.inputBuf.content = [] → conn.inputBuf.readIndex = 0

variable {conn} {packets : List Packet} {stream bytes : Bytes}

namespace Stands

variable (stands : conn.Stands packets stream)

include stands

theorem near : conn.inputBuf.capacity - conn.inputBuf.writeIndex < 2 ^ 31 := by
  have := stands.capacity_lt
  have := stands.sound.write_nonneg
  omega

theorem allocBuffer2_eq :
    conn.allocBuffer2 = conn.inputBuf.capacity - conn.inputBuf.writeIndex :=
  stands.sound.writableBytes_eq stands.near

theorem writeIndex_eq :
    conn.inputBuf.writeIndex = conn.inputBuf.readIndex + conn.inputBuf.content.length := by
  have := stands.sound.length_content
  omega

end Stands

/-- What is read is appended where it is, and the complete packets are taken off. -/
theorem onMessage_spec (stands : conn.Stands packets (bytes ++ stream))
    (room : bytes.length ≤ conn.allocBuffer2) :
    ∃ next, conn.onMessage bytes = .ok next ∧
      next.Stands (packets.drop
        (cut Packet.toBytes packets (conn.inputBuf.content ++ bytes)).1.length) stream ∧
      conn.inputBuf.Becomes (cut Packet.toBytes packets (conn.inputBuf.content ++ bytes)).2
        next.inputBuf ∧
      next.inputBuf.readIndex =
        readAfter conn.inputBuf.maxWasteBytes conn.inputBuf.readIndex
          (cut Packet.toBytes packets (conn.inputBuf.content ++ bytes)).1
          (cut Packet.toBytes packets (conn.inputBuf.content ++ bytes)).2 := by
  have fits : conn.inputBuf.writeIndex + bytes.length ≤ conn.inputBuf.capacity := by
    rw [stands.allocBuffer2_eq] at room
    omega
  have := stands.capacity_lt
  obtain ⟨appended, done, becomes, read, -⟩ :=
    append_of_room stands.sound stands.near fits (by omega) []
  have front : conn.inputBuf.content ++ bytes <+: packets.flatMap Packet.toBytes := by
    rw [← stands.whole, ← List.append_assoc]
    exact List.prefix_append _ _
  obtain ⟨next, consumed, becomes', read'⟩ := consume_spec becomes.sound
    (by rw [becomes.maxWasteBytes_eq]; exact stands.waste)
    (by rw [becomes.content_eq]; exact front) (le_refl _)
  rw [becomes.content_eq] at becomes' read' consumed
  rw [becomes.maxWasteBytes_eq, read] at read'
  have all := becomes.trans becomes'
  refine ⟨{ conn with inputBuf := next }, ?_, ?_, all, read'⟩
  · unfold onMessage
    rw [done, ok_bind, becomes.content_eq, consumed, ok_bind]
  · refine ⟨stands.opened, all.sound, ?_, ?_, ?_, ?_, ?_, ?_⟩
    · rw [all.maxWasteBytes_eq]
      exact stands.waste
    · rw [all.capacity_eq]
      exact stands.capacity_pos
    · rw [all.capacity_eq]
      exact stands.capacity_lt
    · rw [all.content_eq]
      exact rest_append _ _ _ (by rw [List.append_assoc]; exact stands.whole)
    · rw [all.content_eq]
      exact cut_rest _ _
    · rw [all.content_eq]
      intro empty
      rw [read', readAfter]
      split_ifs with none
      · rw [cut_snd_of_none none] at empty
        exact stands.start (List.append_eq_nil_iff.mp empty).1
      · rfl

theorem Stands.reads (stands : conn.Stands packets (bytes ++ stream)) (some : bytes ≠ [])
    (room : bytes.length ≤ conn.allocBuffer2) {next : TcpConnection}
    (handled : conn.onMessage bytes = .ok next) : Reads conn bytes next := by
  have positive := List.length_pos_of_ne_nil some
  have delivers : conn.Delivers bytes.length bytes := by
    unfold Delivers
    rw [if_neg (by omega)]
    exact ⟨by omega, room, rfl⟩
  have reads := Reads.cons stands.opened delivers
    (by unfold handleRead; rw [if_pos (by omega)]; exact handled) (.nil next)
  rwa [List.append_nil] at reads

theorem Reads.trans {middle last : TcpConnection} {later : Bytes} (earlier : Reads conn bytes middle)
    (reads : Reads middle later last) : Reads conn (bytes ++ later) last := by
  induction earlier with
  | nil conn => exact reads
  | cons opened delivers handled _ ih =>
      rw [List.append_assoc]
      exact .cons opened delivers handled (ih reads)

theorem AlwaysReceives.after {next : TcpConnection} (always : conn.AlwaysReceives (bytes ++ stream))
    (reads : Reads conn bytes next) : next.AlwaysReceives stream := by
  intro arrived later last whole more
  refine always (bytes ++ arrived) later last ?_ (reads.trans more)
  rw [List.append_assoc, whole]

/-! ## Packets that end within the memory -/

theorem kept_bounds (maxWasteBytes : ℤ) {read : ℤ} (nonneg : 0 ≤ read) :
    0 ≤ kept maxWasteBytes read ∧ kept maxWasteBytes read ≤ read := by
  unfold kept
  split_ifs <;> omega

theorem advance_bounds (maxWasteBytes : ℤ) {read : ℤ} (nonneg : 0 ≤ read) (packet : Packet) :
    0 ≤ advance maxWasteBytes read packet ∧
      advance maxWasteBytes read packet ≤ read + packet.toBytes.length := by
  rw [packet.length_toBytes]
  have header := kept_bounds maxWasteBytes (show 0 ≤ read + headerBytes by omega)
  have body := kept_bounds maxWasteBytes
    (show 0 ≤ kept maxWasteBytes (read + headerBytes) + packet.body.length by omega)
  unfold advance
  omega

/-- Wherever the buffer has been emptied, the packets from there on end within the memory. -/
def Roomy (capacity maxWasteBytes : ℤ) (packets : List Packet) : Prop :=
  ∀ rest, rest <:+ packets → RoomFrom capacity maxWasteBytes 0 rest

theorem Roomy.drop {capacity maxWasteBytes : ℤ} (roomy : Roomy capacity maxWasteBytes packets)
    (n : ℕ) : Roomy capacity maxWasteBytes (packets.drop n) :=
  fun rest suffix => roomy rest (suffix.trans (List.drop_suffix n packets))

/-- After the complete packets the others still end within the memory. -/
theorem RoomFrom.after {capacity maxWasteBytes read : ℤ} {front : Bytes}
    (room : RoomFrom capacity maxWasteBytes read packets)
    (roomy : Roomy capacity maxWasteBytes packets) (nonneg : 0 ≤ read)
    (within : read + front.length ≤ capacity) :
    RoomFrom capacity maxWasteBytes
      (readAfter maxWasteBytes read (cut Packet.toBytes packets front).1
        (cut Packet.toBytes packets front).2)
      (packets.drop (cut Packet.toBytes packets front).1.length) := by
  induction packets generalizing read front with
  | nil => exact trivial
  | cons packet packets ih =>
      by_cases whole : packet.toBytes.length ≤ front.length
      · have length : front.length = packet.toBytes.length +
            (front.drop packet.toBytes.length).length := by
          rw [List.length_drop]
          omega
        have others := roomy.drop 1
        have nothing : front.drop packet.toBytes.length = [] →
            (cut Packet.toBytes packets (front.drop packet.toBytes.length)).1 = [] ∧
              (cut Packet.toBytes packets (front.drop packet.toBytes.length)).2 = [] := by
          intro empty
          rw [empty, cut_nil Packet.toBytes_pos]
          exact ⟨rfl, rfl⟩
        rw [cut_cons_of_le whole, ← readAfter_cons nothing cut_snd_of_none, List.length_cons,
          List.drop_succ_cons]
        obtain ⟨-, room⟩ := room
        by_cases emptied : front.drop packet.toBytes.length = []
        · have zero : readAfter maxWasteBytes read [packet]
              (front.drop packet.toBytes.length) = 0 := by
            rw [readAfter, if_neg (List.cons_ne_nil _ _), if_pos emptied]
          rw [zero]
          refine ih (others packets (List.suffix_refl _)) others (le_refl 0) ?_
          rw [emptied, List.length_nil]
          omega
        · have some := List.length_pos_of_ne_nil emptied
          have goes : readAfter maxWasteBytes read [packet]
              (front.drop packet.toBytes.length) = advance maxWasteBytes read packet := by
            rw [readAfter, if_neg (List.cons_ne_nil _ _), if_neg emptied]
            rfl
          have bounds := advance_bounds maxWasteBytes nonneg packet
          rw [if_neg (by omega)] at room
          rw [goes]
          exact ih room others bounds.1 (by omega)
      · rw [cut_cons_of_lt (not_le.mp whole)]
        exact room

variable (conn packets) in
/-- The packets to come end within the memory of the connection. -/
structure Ample : Prop where
  room : RoomFrom conn.inputBuf.capacity conn.inputBuf.maxWasteBytes conn.inputBuf.readIndex packets
  roomy : Roomy conn.inputBuf.capacity conn.inputBuf.maxWasteBytes packets

/-- The first of the packets to come is not complete. -/
theorem Stands.short {packet : Packet} (stands : conn.Stands (packet :: packets) stream) :
    conn.inputBuf.content.length < packet.toBytes.length := by
  by_contra whole
  have part := stands.part
  rw [cut_cons_of_le (not_lt.mp whole)] at part
  exact List.cons_ne_nil _ _ (congrArg Prod.fst part)

/-- What is in the buffer is the front of the first packet to come. -/
theorem Stands.front {packet : Packet} (stands : conn.Stands (packet :: packets) stream) :
    conn.inputBuf.content <+: packet.toBytes := by
  have front := List.prefix_append conn.inputBuf.content stream
  rw [stands.whole, List.flatMap_cons] at front
  exact List.prefix_of_prefix_length_le front (List.prefix_append _ _) stands.short.le

/-- There is always something behind the content. -/
theorem Stands.allocBuffer2_pos (stands : conn.Stands packets stream) (ample : conn.Ample packets) :
    0 < conn.allocBuffer2 := by
  have write := stands.writeIndex_eq
  rw [stands.allocBuffer2_eq]
  by_cases empty : conn.inputBuf.content = []
  · have start := stands.start empty
    have := stands.capacity_pos
    rw [empty, List.length_nil] at write
    omega
  · cases packets with
    | nil =>
        have nothing := stands.whole
        rw [List.flatMap_nil] at nothing
        exact absurd (List.append_eq_nil_iff.mp nothing).1 empty
    | cons packet packets =>
        have short := stands.short
        have ends := ample.room.1
        omega

theorem Stands.receives (stands : conn.Stands packets stream) (ample : conn.Ample packets) :
    conn.Receives stream where
  opened := stands.opened
  room _ := stands.allocBuffer2_pos ample
  takes nread bytes delivers front := by
    have room := stands.allocBuffer2_pos ample
    unfold Delivers at delivers
    rw [if_neg (not_le.mpr room)] at delivers
    obtain ⟨later, rfl⟩ := front
    obtain ⟨next, handled, -⟩ := onMessage_spec stands (by omega)
    exact ⟨next, by unfold handleRead; rw [if_pos delivers.1]; exact handled⟩

theorem Stands.after_reads {arrived later : Bytes} {last : TcpConnection}
    (reads : Reads conn arrived last) (stands : conn.Stands packets (arrived ++ later))
    (ample : conn.Ample packets) : ∃ rest, last.Stands rest later ∧ last.Ample rest := by
  induction reads generalizing packets with
  | nil conn => exact ⟨packets, stands, ample⟩
  | @cons conn next last nread bytes more opened delivers handled _ ih =>
      rw [List.append_assoc] at stands
      have room := stands.allocBuffer2_pos ample
      unfold Delivers at delivers
      rw [if_neg (not_le.mpr room)] at delivers
      unfold handleRead at handled
      rw [if_pos delivers.1] at handled
      have fits : bytes.length ≤ conn.allocBuffer2 := by
        omega
      obtain ⟨next', handled', stands', becomes, read⟩ := onMessage_spec stands fits
      obtain rfl := Except.ok.inj (handled.symm.trans handled')
      refine ih stands' ⟨?_, ?_⟩
      · rw [becomes.capacity_eq, becomes.maxWasteBytes_eq, read]
        refine ample.room.after ample.roomy stands.sound.read_nonneg ?_
        have write := stands.writeIndex_eq
        have offered := stands.allocBuffer2_eq
        rw [List.length_append]
        omega
      · rw [becomes.capacity_eq, becomes.maxWasteBytes_eq]
        exact ample.roomy.drop _

theorem Stands.alwaysReceives (stands : conn.Stands packets stream) (ample : conn.Ample packets) :
    conn.AlwaysReceives stream := by
  rintro arrived later last rfl reads
  obtain ⟨rest, standing, enough⟩ := stands.after_reads reads ample
  exact standing.receives enough

/-! ## Packets that do not -/

/-- With the memory full of an incomplete packet nothing more is received. -/
theorem Stands.not_receives_full {packet : Packet} (stands : conn.Stands (packet :: packets) stream)
    (full : conn.inputBuf.readIndex + conn.inputBuf.content.length = conn.inputBuf.capacity) :
    ¬conn.Receives stream := by
  intro receives
  have write := stands.writeIndex_eq
  have offered := stands.allocBuffer2_eq
  have some : conn.inputBuf.content ≠ [] := by
    intro empty
    have start := stands.start empty
    have := stands.capacity_pos
    rw [empty, List.length_nil] at full
    omega
  have other : conn.inputBuf.content ≠ packet.toBytes := by
    intro same
    have short := stands.short
    rw [same] at short
    exact lt_irrefl _ short
  have room := receives.room ⟨some, packet, stands.front, other⟩
  omega

/-- The next packet ends within the memory: it could be read up to the end of it. -/
theorem Stands.room_of_always {packet : Packet} (stands : conn.Stands (packet :: packets) stream)
    (always : conn.AlwaysReceives stream) :
    conn.inputBuf.readIndex + packet.toBytes.length ≤ conn.inputBuf.capacity := by
  by_contra long
  have write := stands.writeIndex_eq
  have offered := stands.allocBuffer2_eq
  have inside := stands.sound.write_le_capacity
  have length := congrArg List.length stands.whole
  rw [List.length_append, List.flatMap_cons, List.length_append] at length
  obtain ⟨free, freed⟩ := Int.eq_ofNat_of_zero_le (sub_nonneg.mpr inside)
  have taken : (stream.take free).length = free := by
    rw [List.length_take]
    omega
  by_cases none : free = 0
  · exact stands.not_receives_full (by omega) (always [] stream conn rfl (.nil conn))
  · have split_ := (List.take_append_drop free stream).symm
    rw [split_] at stands always
    obtain ⟨next, handled, stands', becomes, read⟩ := onMessage_spec stands (by omega)
    have some : stream.take free ≠ [] := by
      intro empty
      rw [empty, List.length_nil] at taken
      omega
    have reads := stands.reads some (by omega) handled
    have short : (conn.inputBuf.content ++ stream.take free).length < packet.toBytes.length := by
      rw [List.length_append, taken]
      omega
    rw [cut_cons_of_lt short] at stands' becomes read
    refine stands'.not_receives_full ?_ (always.after reads [] _ next rfl (.nil next))
    rw [becomes.content_eq, becomes.capacity_eq, read, readAfter, if_pos rfl, List.length_append,
      taken]
    omega

/-- A packet can be read together with the beginning of what follows it. -/
theorem Stands.next {packet : Packet} {behind later : Bytes}
    (stands : conn.Stands (packet :: packets) stream) (always : conn.AlwaysReceives stream)
    (follows : behind ++ later = packets.flatMap Packet.toBytes)
    (part : cut Packet.toBytes packets behind = ([], behind))
    (room : conn.inputBuf.readIndex + packet.toBytes.length + behind.length ≤
      conn.inputBuf.capacity) :
    ∃ next : TcpConnection, next.Stands packets later ∧ next.AlwaysReceives later ∧
      conn.inputBuf.Becomes behind next.inputBuf ∧
      next.inputBuf.readIndex = readAfter conn.inputBuf.maxWasteBytes conn.inputBuf.readIndex
        [packet] behind := by
  obtain ⟨remaining, completes⟩ := stands.front
  have write := stands.writeIndex_eq
  have offered := stands.allocBuffer2_eq
  have short := stands.short
  have length := congrArg List.length completes
  rw [List.length_append] at length
  have rest : stream = remaining ++ behind ++ later := by
    have whole := stands.whole
    rw [List.flatMap_cons, ← follows, ← completes, List.append_assoc,
      List.append_cancel_left_eq] at whole
    rw [whole, List.append_assoc]
  have arrived : conn.inputBuf.content ++ (remaining ++ behind) = packet.toBytes ++ behind := by
    rw [← List.append_assoc, completes]
  subst rest
  have fits : ((remaining ++ behind).length : ℤ) ≤ conn.allocBuffer2 := by
    rw [List.length_append]
    omega
  obtain ⟨next, handled, stands', becomes, read⟩ := onMessage_spec stands fits
  have some : remaining ++ behind ≠ [] := by
    intro empty
    rw [(List.append_eq_nil_iff.mp empty).1, List.length_nil] at length
    omega
  have reads := stands.reads some fits handled
  rw [arrived, cut_append_code, part] at stands' becomes read
  exact ⟨next, stands', always.after reads, becomes, read⟩

theorem Stands.roomFrom_of_always (stands : conn.Stands packets stream)
    (always : conn.AlwaysReceives stream) :
    RoomFrom conn.inputBuf.capacity conn.inputBuf.maxWasteBytes conn.inputBuf.readIndex packets := by
  induction packets generalizing conn stream with
  | nil => exact trivial
  | cons packet packets ih =>
      have room := stands.room_of_always always
      refine ⟨room, ?_⟩
      split_ifs with fills
      · obtain ⟨next, stands', always', becomes, read⟩ := stands.next always (List.nil_append _)
          (cut_nil Packet.toBytes_pos) (by rw [List.length_nil]; omega)
        have room' := ih stands' always'
        rwa [becomes.capacity_eq, becomes.maxWasteBytes_eq, read] at room'
      · cases packets with
        | nil => exact trivial
        | cons following packets =>
            have long := following.length_toBytes
            rw [headerBytes] at long
            have one : (following.toBytes.take 1).length = 1 := by
              rw [List.length_take]
              omega
            have some : following.toBytes.take 1 ≠ [] := by
              intro empty
              rw [empty] at one
              contradiction
            have follows : following.toBytes.take 1 ++
                (following.toBytes.drop 1 ++ packets.flatMap Packet.toBytes) =
                (following :: packets).flatMap Packet.toBytes := by
              rw [← List.append_assoc, List.take_append_drop, List.flatMap_cons]
            obtain ⟨next, stands', always', becomes, read⟩ :=
              stands.next always follows (cut_cons_of_lt (by omega)) (by omega)
            have room' := ih stands' always'
            rwa [becomes.capacity_eq, becomes.maxWasteBytes_eq, read, readAfter,
              if_neg (List.cons_ne_nil _ _), if_neg some] at room'

theorem Stands.roomy_of_always (stands : conn.Stands packets stream)
    (always : conn.AlwaysReceives stream) (empty : conn.inputBuf.content = []) :
    Roomy conn.inputBuf.capacity conn.inputBuf.maxWasteBytes packets := by
  induction packets generalizing conn stream with
  | nil =>
      rintro rest suffix
      rw [List.suffix_nil.mp suffix]
      exact trivial
  | cons packet packets ih =>
      intro rest suffix
      rcases List.suffix_cons_iff.mp suffix with rfl | later
      · have room := stands.roomFrom_of_always always
        rwa [stands.start empty] at room
      · have room := stands.room_of_always always
        obtain ⟨next, stands', always', becomes, -⟩ := stands.next always (List.nil_append _)
          (cut_nil Packet.toBytes_pos) (by rw [List.length_nil]; omega)
        have roomy := ih stands' always' becomes.content_eq
        rw [becomes.capacity_eq, becomes.maxWasteBytes_eq] at roomy
        exact roomy rest later

theorem standard_sound (reserved : ℕ → UInt8) : (standard reserved).Sound :=
  (make_spec (make_standard reserved)).1

theorem capacity_standard (reserved : ℕ → UInt8) : (standard reserved).capacity = 65536 := by
  rw [capacity, standard, List.length_map, List.length_range]

theorem fresh_stands (reserved : ℕ → UInt8) (packets : List Packet) :
    (fresh reserved).Stands packets (packets.flatMap Packet.toBytes) where
  opened := rfl
  sound := standard_sound reserved
  waste := show (0 : ℤ) ≤ 32768 by decide
  capacity_pos := by
    rw [fresh, capacity_standard]
    decide
  capacity_lt := by
    rw [fresh, capacity_standard]
    decide
  whole := rfl
  part := cut_nil Packet.toBytes_pos
  start _ := rfl

/-- Every stream of packets is received in any pieces, if and only if each packet ends within
the memory wherever the buffer may have been emptied before. -/
theorem alwaysReceives_iff (reserved : ℕ → UInt8) (packets : List Packet) :
    (fresh reserved).AlwaysReceives (packets.flatMap Packet.toBytes) ↔
      Roomy 65536 32768 packets := by
  have stands := fresh_stands reserved packets
  have capacity : ((fresh reserved).inputBuf.capacity : ℤ) = 65536 := by
    rw [fresh, capacity_standard]
    rfl
  constructor
  · intro always
    have roomy := stands.roomy_of_always always rfl
    rwa [capacity] at roomy
  · intro roomy
    refine stands.alwaysReceives ⟨?_, ?_⟩
    · rw [capacity]
      exact roomy packets (List.suffix_refl _)
    · rw [capacity]
      exact roomy

/-- A packet with a body of zeros. -/
def zeros (count : ℕ) (small : count < 2 ^ 31) : Packet where
  type := 0
  body := List.replicate count 0
  small := by rwa [List.length_replicate]

theorem length_zeros (count : ℕ) (small : count < 2 ^ 31) :
    (zeros count small).toBytes.length = headerBytes + count := by
  rw [Packet.length_toBytes, zeros, List.length_replicate]

/-- A packet whose body alone fills the memory. -/
theorem not_alwaysReceives : ¬∀ (reserved : ℕ → UInt8) (packets : List Packet),
    (fresh reserved).AlwaysReceives (packets.flatMap Packet.toBytes) := by
  intro all
  have small : 65536 < 2 ^ 31 := by
    decide
  have room := (fresh_stands (fun _ => 0) [zeros 65536 small]).room_of_always
    (all (fun _ => 0) [zeros 65536 small])
  rw [fresh, capacity_standard, length_zeros] at room
  exact absurd room (by decide)

end TcpConnection

end Vraft.Seda
