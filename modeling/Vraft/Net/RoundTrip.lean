import Vraft.Net.Messages

/-!
# Messages that survive the wire

The decoder of a string steps over one byte less than it should for every further
byte of the prefix.  So a message comes back as it was sent, with the right number of
bytes, exactly if all its strings are shorter than 128 bytes; and it can be sent at
all only if the room it asks for is an `int32_t`.
-/

namespace Vraft.Net

open Raw

variable {mem : Memory} {cursor moved : Cursor}

/-! ## Pieces -/

theorem readString_holds {text : Bytes} {len : ℕ} (short : text.length < 128) (bound : len < 2 ^ 31)
    (holds : mem.Holds cursor.pos (encodeString2 text))
    (room : cursor.pos + (encodeString2 text).length ≤ len) :
    readString len mem cursor = .ok (text, cursor.advance (encodeString2 text).length) := by
  have length : (encodeString2 text).length = 1 + text.length := by
    rw [encodeString2, List.length_append, Nat.mod_eq_of_lt (by omega),
      (length_encodeVarint32_eq_one_iff _).mpr short]
  have rest : (len : ℤ) - cursor.pos = (len - cursor.pos : ℕ) := by omega
  have found := @readString2_holds FrameFault _ cursor _ (len - cursor.pos)
    (by omega) (by omega) holds (by omega)
  unfold readString
  rw [Reader.bind_of_ok (show size mem cursor = .ok (cursor.pos, cursor) from rfl), rest,
    Reader.bind_of_ok found, length]
  rfl

theorem readString_prefixed {len : ℤ} {count stop : ℕ}
    (prefixed : Prefixed mem cursor.pos (cursor.pos + sizeT (len - cursor.pos)) count stop) :
    readString len mem cursor = .ok (mem.read stop count,
      ⟨cursor.pos + (1 + count), max cursor.reach (stop + count)⟩) := by
  unfold readString
  rw [Reader.bind_of_ok (show size mem cursor = .ok (cursor.pos, cursor) from rfl),
    Reader.bind_of_ok (readString2_prefixed prefixed)]
  rfl

theorem readString_not_prefixed {len : ℤ} (other : ∀ count stop,
    ¬Prefixed mem cursor.pos (cursor.pos + sizeT (len - cursor.pos)) count stop) :
    readString len mem cursor = .ok ([], ⟨cursor.pos, max cursor.reach
      (getVarint32Ptr mem cursor.pos (cursor.pos + sizeT (len - cursor.pos))).2⟩) := by
  unfold readString
  rw [Reader.bind_of_ok (show size mem cursor = .ok (cursor.pos, cursor) from rfl),
    Reader.bind_of_ok (readString2_not_prefixed other)]
  rfl

/-- The pointer moves by at most one byte more than the string has. -/
theorem readString_pos {len : ℤ} {text : Bytes}
    (done : readString len mem cursor = .ok (text, moved)) :
    moved.pos ≤ cursor.pos + (1 + text.length) := by
  by_cases found : ∃ count stop,
      Prefixed mem cursor.pos (cursor.pos + sizeT (len - cursor.pos)) count stop
  · obtain ⟨count, stop, prefixed⟩ := found
    rw [readString_prefixed prefixed] at done
    obtain ⟨rfl, rfl⟩ := Prod.mk.inj (Except.ok.inj done)
    rw [Memory.length_read]
  · rw [readString_not_prefixed fun count stop prefixed => found ⟨count, stop, prefixed⟩] at done
    obtain ⟨rfl, rfl⟩ := Prod.mk.inj (Except.ok.inj done)
    exact Nat.le_add_right _ _

theorem le_length_encodeString2 (text : Bytes) : 1 + text.length ≤ (encodeString2 text).length := by
  have := length_encodeVarint32_pos (text.length % 2 ^ 32)
  rw [encodeString2, List.length_append]
  omega

theorem length_encodeString2_le (text : Bytes) : (encodeString2 text).length ≤ 5 + text.length := by
  have := length_encodeVarint32_le (text.length % 2 ^ 32)
  rw [encodeString2, List.length_append]
  omega

theorem length_encodeString2_eq_iff {text : Bytes} (bound : text.length < 2 ^ 32) :
    (encodeString2 text).length = 1 + text.length ↔ text.length < 128 := by
  rw [← length_encodeVarint32_eq_one_iff, encodeString2, List.length_append,
    Nat.mod_eq_of_lt bound]
  omega

theorem readBool_holds {value : Bool} (holds : mem.Holds cursor.pos (encodeBool value)) :
    readBool mem cursor = .ok (value, cursor.advance 1) := by
  unfold readBool
  rw [Reader.bind_of_ok (readFixed8_holds holds)]
  cases value <;> rfl

theorem readInt32_holds {value : Int32}
    (holds : mem.Holds cursor.pos (encodeFixed32 value.toUInt32.toNat)) :
    readInt32 mem cursor = .ok (value, cursor.advance 4) := by
  unfold readInt32
  rw [Reader.bind_of_ok (readFixed32_holds holds)]
  rfl

theorem readBool_run : readBool mem cursor =
    .ok (UInt8.ofNat (decodeFixed (mem.read cursor.pos 1)) ≠ 0, cursor.advance 1) := by
  unfold readBool
  rw [Reader.bind_of_ok readFixed8_run]
  rfl

theorem readInt32_run : readInt32 mem cursor =
    .ok ((UInt32.ofNat (decodeFixed32 (mem.read cursor.pos 4))).toInt32, cursor.advance 4) := by
  unfold readInt32
  rw [Reader.bind_of_ok readFixed32_run]
  rfl

/-- The fields of a stamp, whatever bytes are there. -/
def stampAt (mem : Memory) (pos : ℕ) : Stamp where
  src := UInt64.ofNat (decodeFixed64 (mem.read pos 8))
  dest := UInt64.ofNat (decodeFixed64 (mem.read (pos + 8) 8))
  term := UInt64.ofNat (decodeFixed64 (mem.read (pos + 16) 8))
  uid := UInt32.ofNat (decodeFixed32 (mem.read (pos + 24) 4))
  sendTs := UInt64.ofNat (decodeFixed64 (mem.read (pos + 28) 8))
  elapse := UInt64.ofNat (decodeFixed64 (mem.read (pos + 36) 8))

theorem Stamp.fromBytes_run :
    Stamp.fromBytes mem cursor = .ok (stampAt mem cursor.pos, cursor.advance 44) := by
  unfold Stamp.fromBytes
  rw [Reader.bind_of_ok readFixed64_run, Reader.bind_of_ok readFixed64_run,
    Reader.bind_of_ok readFixed64_run, Reader.bind_of_ok readFixed32_run,
    Reader.bind_of_ok readFixed64_run, Reader.bind_of_ok readFixed64_run]
  simp only [Cursor.advance_advance]
  rfl

theorem Stamp.length_toBytes (stamp : Stamp) : stamp.toBytes.length = 44 := by
  simp [Stamp.toBytes]

theorem Stamp.fromBytes_holds {stamp : Stamp} (holds : mem.Holds cursor.pos stamp.toBytes) :
    Stamp.fromBytes mem cursor = .ok (stamp, cursor.advance 44) := by
  simp only [Stamp.toBytes, Memory.holds_append, encodeFixed64_length, encodeFixed32_length] at holds
  obtain ⟨src, dest, term, uid, sendTs, elapse⟩ := holds
  unfold Stamp.fromBytes
  rw [Reader.bind_of_ok (readFixed64_holds src), Reader.bind_of_ok (readFixed64_holds dest),
    Reader.bind_of_ok (readFixed64_holds term), Reader.bind_of_ok (readFixed32_holds uid),
    Reader.bind_of_ok (readFixed64_holds sendTs), Reader.bind_of_ok (readFixed64_holds elapse)]
  simp only [Cursor.advance_advance]
  rfl

/-! ## Messages -/

/-- `ToString`: the buffer has the room of `max_bytes`, an `int32_t`, and is not overrun. -/
def toString (maxBytes : ℕ) (bytes : Bytes) : Option Bytes :=
  if maxBytes < 2 ^ 31 ∧ bytes.length ≤ maxBytes then some bytes else none

/-- A message that is encoded, and decoded as it was with the number of bytes it has. -/
def Survives {M : Type} (encoded : Option Bytes) (fromString : ℤ → Decoder M) (m : M) : Prop :=
  ∃ bytes, encoded = some bytes ∧ ∀ beyond, ∃ cursor,
    fromString bytes.length (Memory.follow bytes beyond) Cursor.start = .ok (m, cursor) ∧
      cursor.pos = bytes.length

/-- A message survives if it fits and the decoder undoes the encoder, and only if the
pointer can move over all of its bytes. -/
theorem survives_iff {M : Type} {maxBytes : ℕ} {bytes : Bytes} {fromString : ℤ → Decoder M} {m : M}
    {short : Prop} (room : bytes.length ≤ maxBytes)
    (undoes : short → maxBytes < 2 ^ 31 → ∀ mem : Memory, mem.Holds 0 bytes →
      ∃ cursor, fromString bytes.length mem Cursor.start = .ok (m, cursor) ∧
        cursor.pos = bytes.length)
    (moves : maxBytes < 2 ^ 31 → ∀ (mem : Memory) cursor,
      fromString bytes.length mem Cursor.start = .ok (m, cursor) → cursor.pos = bytes.length → short) :
    Survives (toString maxBytes bytes) fromString m ↔ maxBytes < 2 ^ 31 ∧ short := by
  unfold Survives toString
  constructor
  · rintro ⟨_, encoded, decodes⟩
    split at encoded
    · rename_i fits
      obtain rfl := Option.some.inj encoded
      obtain ⟨cursor, done, all⟩ := decodes fun _ => 0
      exact ⟨fits.1, moves fits.1 _ cursor done all⟩
    · contradiction
  · rintro ⟨fits, short⟩
    refine ⟨bytes, if_pos ⟨fits, room⟩, fun beyond => ?_⟩
    exact undoes short fits _ (Memory.follow_holds bytes beyond)

theorem Ping.survives_iff (m : Ping) :
    Survives (toString m.maxBytes m.toBytes) Ping.fromString m ↔
      m.maxBytes < 2 ^ 31 ∧ m.msg.length < 128 := by
  have length : m.toBytes.length = 36 + (encodeString2 m.msg).length := by
    simp only [toBytes, List.length_append, encodeFixed64_length, encodeFixed32_length]
    omega
  have upper := length_encodeString2_le m.msg
  have lower := le_length_encodeString2 m.msg
  refine Net.survives_iff (by rw [length, maxBytes]; omega) ?_ ?_
  · intro short fits mem holds
    simp only [toBytes, Memory.holds_append, encodeFixed64_length, encodeFixed32_length] at holds
    obtain ⟨src, dest, uid, sendTs, elapse, msg⟩ := holds
    unfold fromString
    rw [Reader.bind_of_ok (readFixed64_holds src), Reader.bind_of_ok (readFixed64_holds dest),
      Reader.bind_of_ok (readFixed32_holds uid), Reader.bind_of_ok (readFixed64_holds sendTs),
      Reader.bind_of_ok (readFixed64_holds elapse),
      Reader.bind_of_ok (readString_holds short (by rw [maxBytes] at fits; omega) msg
        (by rw [length]; exact le_rfl))]
    exact ⟨_, rfl, by rw [length]; rfl⟩
  · intro fits mem cursor done all
    unfold fromString at done
    rw [Reader.bind_of_ok readFixed64_run, Reader.bind_of_ok readFixed64_run,
      Reader.bind_of_ok readFixed32_run, Reader.bind_of_ok readFixed64_run,
      Reader.bind_of_ok readFixed64_run] at done
    obtain ⟨msg, moved, read, done⟩ := Reader.ok_of_bind done
    obtain ⟨rfl, rfl⟩ := Prod.mk.inj (Except.ok.inj done)
    have pos := readString_pos read
    rw [length] at all
    rw [maxBytes] at fits
    simp only [Cursor.advance_advance, Cursor.pos_advance, Cursor.start] at pos
    rw [← length_encodeString2_eq_iff (by dsimp only at fits; omega)]
    dsimp only at *
    omega

theorem u32ToClientCmd_toU32 (cmd : ClientCmd) : u32ToClientCmd (clientCmdToU32 cmd) = cmd := by
  cases cmd <;> rfl

theorem toNat_clientCmd (cmd : ClientCmd) :
    (UInt32.ofNat (clientCmdToU32 cmd)).toNat = clientCmdToU32 cmd := by
  cases cmd <;> rfl

theorem ClientRequest.survives_iff (m : ClientRequest) :
    Survives (toString m.maxBytes m.toBytes) ClientRequest.fromString m ↔
      m.maxBytes < 2 ^ 31 ∧ m.data.length < 128 := by
  have length : m.toBytes.length = 8 + (encodeString2 m.data).length := by
    simp only [toBytes, List.length_append, encodeFixed32_length]
    omega
  have upper := length_encodeString2_le m.data
  have lower := le_length_encodeString2 m.data
  refine Net.survives_iff (by rw [length, maxBytes]; omega) ?_ ?_
  · intro short fits mem holds
    simp only [toBytes, Memory.holds_append, encodeFixed32_length] at holds
    obtain ⟨uid, cmd, data⟩ := holds
    rw [← toNat_clientCmd] at cmd
    unfold fromString
    rw [Reader.bind_of_ok (readFixed32_holds uid), Reader.bind_of_ok (readFixed32_holds cmd),
      Reader.bind_of_ok (readString_holds short (by rw [maxBytes] at fits; omega) data
        (by rw [length]; exact le_rfl)), toNat_clientCmd, u32ToClientCmd_toU32]
    exact ⟨_, rfl, by rw [length]; rfl⟩
  · intro fits mem cursor done all
    unfold fromString at done
    rw [Reader.bind_of_ok readFixed32_run, Reader.bind_of_ok readFixed32_run] at done
    obtain ⟨data, moved, read, done⟩ := Reader.ok_of_bind done
    obtain ⟨rfl, rfl⟩ := Prod.mk.inj (Except.ok.inj done)
    have pos := readString_pos read
    rw [length] at all
    rw [maxBytes] at fits
    simp only [Cursor.advance_advance, Cursor.pos_advance, Cursor.start] at pos
    rw [← length_encodeString2_eq_iff (by dsimp only at fits; omega)]
    dsimp only at *
    omega

theorem ClientRequestReply.survives_iff (m : ClientRequestReply) :
    Survives (toString m.maxBytes m.toBytes) ClientRequestReply.fromString m ↔
      m.maxBytes < 2 ^ 31 ∧ m.msg.length < 128 ∧ m.data.length < 128 := by
  have length : m.toBytes.length =
      8 + (encodeString2 m.msg).length + (encodeString2 m.data).length := by
    simp only [toBytes, List.length_append, encodeFixed32_length]
    omega
  have upper_msg := length_encodeString2_le m.msg
  have upper_data := length_encodeString2_le m.data
  have lower_msg := le_length_encodeString2 m.msg
  have lower_data := le_length_encodeString2 m.data
  refine Net.survives_iff (by rw [length, maxBytes]; omega) ?_ ?_
  · rintro ⟨short_msg, short_data⟩ fits mem holds
    rw [maxBytes] at fits
    simp only [toBytes, Memory.holds_append, encodeFixed32_length] at holds
    obtain ⟨uid, code, msg, data⟩ := holds
    unfold fromString
    rw [Reader.bind_of_ok (readFixed32_holds uid), Reader.bind_of_ok (readInt32_holds code),
      Reader.bind_of_ok (readString_holds short_msg (by omega) msg
        (by rw [length]; simp only [Cursor.advance_advance, Cursor.pos_advance, Cursor.start]; omega)),
      Reader.bind_of_ok (readString_holds short_data (by omega) data
        (by rw [length]; simp only [Cursor.advance_advance, Cursor.pos_advance, Cursor.start]; omega))]
    exact ⟨_, rfl, by rw [length]; simp [Cursor.start]⟩
  · intro fits mem cursor done all
    unfold fromString at done
    rw [Reader.bind_of_ok readFixed32_run, Reader.bind_of_ok readInt32_run] at done
    obtain ⟨msg, moved, read_msg, done⟩ := Reader.ok_of_bind done
    obtain ⟨data, moved', read_data, done⟩ := Reader.ok_of_bind done
    obtain ⟨rfl, rfl⟩ := Prod.mk.inj (Except.ok.inj done)
    have pos_msg := readString_pos read_msg
    have pos_data := readString_pos read_data
    rw [length] at all
    rw [maxBytes] at fits
    simp only [Cursor.advance_advance, Cursor.pos_advance, Cursor.start] at pos_msg
    rw [← length_encodeString2_eq_iff (by dsimp only at fits; omega),
      ← @length_encodeString2_eq_iff data (by dsimp only at fits; omega)]
    dsimp only at *
    omega

theorem InstallSnapshot.survives_iff (m : InstallSnapshot) :
    Survives (toString m.maxBytes m.toBytes) InstallSnapshot.fromString m ↔
      m.maxBytes < 2 ^ 31 ∧ m.data.length < 128 := by
  have length : m.toBytes.length = 60 + (encodeString2 m.data).length + 1 := by
    simp only [toBytes, List.length_append, encodeFixed64_length, encodeFixed32_length,
      Stamp.length_toBytes, encodeBool, List.length_singleton]
    omega
  have upper := length_encodeString2_le m.data
  have lower := le_length_encodeString2 m.data
  refine Net.survives_iff (by rw [length, maxBytes]; omega) ?_ ?_
  · intro short fits mem holds
    rw [maxBytes] at fits
    simp only [toBytes, Memory.holds_append, encodeFixed64_length, encodeFixed32_length,
      Stamp.length_toBytes] at holds
    obtain ⟨stamp, lastIndex, lastTerm, offset, data, done⟩ := holds
    unfold fromString
    rw [Reader.bind_of_ok (Stamp.fromBytes_holds stamp),
      Reader.bind_of_ok (readFixed32_holds lastIndex),
      Reader.bind_of_ok (readFixed64_holds lastTerm), Reader.bind_of_ok (readInt32_holds offset),
      Reader.bind_of_ok (readString_holds short (by omega) data
        (by rw [length]; simp only [Cursor.advance_advance, Cursor.pos_advance, Cursor.start]; omega)),
      Reader.bind_of_ok (readBool_holds done)]
    exact ⟨_, rfl, by rw [length]; rfl⟩
  · intro fits mem cursor done all
    unfold fromString at done
    rw [Reader.bind_of_ok Stamp.fromBytes_run, Reader.bind_of_ok readFixed32_run,
      Reader.bind_of_ok readFixed64_run, Reader.bind_of_ok readInt32_run] at done
    obtain ⟨data, moved, read, done⟩ := Reader.ok_of_bind done
    rw [Reader.bind_of_ok readBool_run] at done
    obtain ⟨rfl, rfl⟩ := Prod.mk.inj (Except.ok.inj done)
    have pos := readString_pos read
    rw [length] at all
    rw [maxBytes] at fits
    simp only [Cursor.advance_advance, Cursor.pos_advance, Cursor.start] at pos all
    rw [← @length_encodeString2_eq_iff data (by dsimp only at fits; omega)]
    dsimp only at *
    omega

/-! ## Entries -/

namespace LogEntry

theorem length_toBytes (entry : LogEntry) :
    entry.toBytes.length = 24 + (encodeString2 entry.value).length := by
  simp only [toBytes, List.length_append, encodeFixed64_length, encodeFixed32_length]
  omega

theorem toNat_type (type : EntryType) : (UInt32.ofNat type.toU32).toNat = type.toU32 := by
  cases type <;> rfl

theorem readType_holds {type : EntryType}
    (holds : mem.Holds cursor.pos (encodeFixed32 type.toU32)) :
    readType mem cursor = .ok (type, cursor.advance 4) := by
  rw [← toNat_type] at holds
  unfold readType
  rw [Reader.bind_of_ok (readFixed32_holds holds), toNat_type, u32ToEntryType_toU32]
  rfl

theorem readType_pos {type : EntryType} (done : readType mem cursor = .ok (type, moved)) :
    moved = cursor.advance 4 := by
  unfold readType at done
  rw [Reader.bind_of_ok readFixed32_run] at done
  cases found : u32ToEntryType
      (UInt32.ofNat (decodeFixed32 (mem.read cursor.pos 4))).toNat with
  | ok _ =>
      rw [found] at done
      exact (Prod.mk.inj (Except.ok.inj done)).2.symm
  | error _ =>
      rw [found] at done
      contradiction

theorem fromString_holds {entry : LogEntry} {len : ℤ} (short : entry.value.length < 128)
    (holds : mem.Holds cursor.pos entry.toBytes) (room : entry.toBytes.length ≤ len)
    (bound : len < 2 ^ 31) :
    fromString len mem cursor = .ok (some entry, cursor.advance entry.toBytes.length) := by
  rw [length_toBytes] at room ⊢
  simp only [toBytes, Memory.holds_append, encodeFixed64_length, encodeFixed32_length] at holds
  obtain ⟨index, chkThs, chkAll, term, type, value⟩ := holds
  have length := (@length_encodeString2_eq_iff entry.value (by omega)).mpr short
  obtain ⟨slice, slice_eq⟩ : ∃ slice : ℕ, len - 4 - 8 = slice :=
    ⟨(len - 4 - 8).toNat, by omega⟩
  unfold fromString
  rw [Reader.bind_of_ok (readFixed32_holds index), Reader.bind_of_ok (readFixed32_holds chkThs),
    Reader.bind_of_ok (readFixed32_holds chkAll), Reader.bind_of_ok (readFixed64_holds term),
    Reader.bind_of_ok (readType_holds type), slice_eq,
    Reader.bind_of_ok (readString2_holds (by omega) (by omega) value (by omega))]
  rw [length]
  have same : (⟨(cursor.advance 24).pos + (1 + entry.value.length), max (cursor.advance 24).reach
      ((cursor.advance 24).pos + (1 + entry.value.length))⟩ : Cursor) =
        cursor.advance (24 + (1 + entry.value.length)) :=
    Cursor.advance_advance cursor 24 (1 + entry.value.length)
  simp only [Cursor.advance_advance]
  rw [same]
  rfl

theorem fromString_pos {entry : LogEntry} {len : ℤ}
    (done : fromString len mem cursor = .ok (some entry, moved)) :
    moved.pos = cursor.pos + (24 + (1 + entry.value.length)) := by
  unfold fromString at done
  rw [Reader.bind_of_ok readFixed32_run, Reader.bind_of_ok readFixed32_run,
    Reader.bind_of_ok readFixed32_run, Reader.bind_of_ok readFixed64_run] at done
  obtain ⟨type, cursor₁, typed, done⟩ := Reader.ok_of_bind done
  obtain ⟨found, cursor₂, read, done⟩ := Reader.ok_of_bind done
  obtain ⟨same, rfl⟩ := Prod.mk.inj (Except.ok.inj done)
  obtain ⟨value, rfl, rfl⟩ := Option.map_eq_some_iff.mp same
  have pos := readString2_pos read
  rw [readType_pos typed] at pos
  simp only [Cursor.advance_advance, Cursor.pos_advance] at pos
  dsimp only
  omega

end LogEntry

namespace AppendEntries

theorem readEntries_zero {len2 : ℤ} :
    readEntries 0 len2 mem cursor =
      if 0 ≤ len2 then .ok ([], cursor) else .error .entriesLength := by
  unfold readEntries check
  split
  · rw [Reader.bind_of_ok Reader.pure_run, Reader.pure_run]
  · rfl

/-- One more entry is decoded as long as there is one. -/
theorem readEntries_succ {count : ℕ} {len2 : ℤ} {entry : LogEntry}
    (decoded : LogEntry.fromString len2 mem cursor = .ok (some entry, moved)) :
    readEntries (count + 1) len2 mem cursor =
      (readEntries count (len2 - (moved.pos - cursor.pos)) >>= fun rest =>
        pure (entry :: rest)) mem moved := by
  rw [readEntries, Reader.bind_of_ok (show size mem cursor = .ok (cursor.pos, cursor) from rfl),
    Reader.bind_of_ok decoded]
  dsimp only
  rw [Reader.bind_of_ok (show size mem moved = .ok (moved.pos, moved) from rfl)]

theorem readEntries_cons {count : ℕ} {len2 : ℤ} {entries : List LogEntry}
    (done : readEntries (count + 1) len2 mem cursor = .ok (entries, moved)) :
    ∃ entry cursor₁ rest, LogEntry.fromString len2 mem cursor = .ok (some entry, cursor₁) ∧
      readEntries count (len2 - (cursor₁.pos - cursor.pos)) mem cursor₁ = .ok (rest, moved) ∧
      entries = entry :: rest := by
  have whole := done
  unfold readEntries at done
  rw [Reader.bind_of_ok (show size mem cursor = .ok (cursor.pos, cursor) from rfl)] at done
  obtain ⟨found, cursor₁, decoded, done⟩ := Reader.ok_of_bind done
  cases found with
  | none => contradiction
  | some entry =>
      rw [readEntries_succ decoded] at whole
      obtain ⟨rest, cursor₂, others, whole⟩ := Reader.ok_of_bind whole
      obtain ⟨rfl, rfl⟩ := Prod.mk.inj (Except.ok.inj whole)
      exact ⟨entry, cursor₁, rest, decoded, others, rfl⟩

/-- Entries with short values are all read back. -/
theorem readEntries_holds {entries : List LogEntry} {len2 : ℤ}
    (short : ∀ entry ∈ entries, entry.value.length < 128)
    (holds : mem.Holds cursor.pos (entries.flatMap LogEntry.toBytes))
    (room : (entries.flatMap LogEntry.toBytes).length ≤ len2) (bound : len2 < 2 ^ 31) :
    ∃ moved, readEntries entries.length len2 mem cursor = .ok (entries, moved) ∧
      moved.pos = cursor.pos + (entries.flatMap LogEntry.toBytes).length := by
  induction entries generalizing cursor len2 with
  | nil => exact ⟨cursor, by rw [List.length_nil, readEntries_zero]; exact if_pos room, rfl⟩
  | cons entry rest ih =>
      rw [List.forall_mem_cons] at short
      rw [List.flatMap_cons, Memory.holds_append] at holds
      rw [List.flatMap_cons, List.length_append] at room ⊢
      have first := @LogEntry.fromString_holds _ _ _ len2 short.1 holds.1 (by omega) bound
      obtain ⟨moved, others, pos⟩ := @ih (cursor.advance entry.toBytes.length)
        (len2 - entry.toBytes.length) short.2 holds.2 (by omega) (by omega)
      refine ⟨moved, ?_, ?_⟩
      · have counted : len2 - ((cursor.advance entry.toBytes.length).pos - cursor.pos : ℤ) =
            len2 - entry.toBytes.length := by
          rw [Cursor.pos_advance]
          omega
        rw [List.length_cons, readEntries_succ first, counted, Reader.bind_of_ok others]
        rfl
      · rw [pos, Cursor.pos_advance]
        omega

/-- The pointer moves over every entry as over one with a short value. -/
theorem readEntries_pos {count : ℕ} {len2 : ℤ} {entries : List LogEntry}
    (done : readEntries count len2 mem cursor = .ok (entries, moved)) :
    moved.pos = cursor.pos + (entries.map fun entry => 24 + (1 + entry.value.length)).sum := by
  induction count generalizing len2 entries cursor moved with
  | zero =>
      rw [readEntries_zero] at done
      split at done
      · obtain ⟨rfl, rfl⟩ := Prod.mk.inj (Except.ok.inj done)
        rfl
      · contradiction
  | succ count ih =>
      obtain ⟨entry, cursor₁, rest, decoded, others, rfl⟩ := readEntries_cons done
      rw [ih others, LogEntry.fromString_pos decoded, List.map_cons, List.sum_cons]
      omega

theorem length_entries_le (entries : List LogEntry) :
    (entries.flatMap LogEntry.toBytes).length ≤
      (entries.map fun entry => 4 + 4 + 4 + 4 + 8 + 4 + 2 * 4 + entry.value.length).sum := by
  induction entries with
  | nil => exact le_rfl
  | cons entry rest ih =>
      have := length_encodeString2_le entry.value
      rw [List.flatMap_cons, List.length_append, entry.length_toBytes, List.map_cons, List.sum_cons]
      omega

theorem moved_le_length (entries : List LogEntry) :
    (entries.map fun entry => 24 + (1 + entry.value.length)).sum ≤
      (entries.flatMap LogEntry.toBytes).length := by
  induction entries with
  | nil => exact le_rfl
  | cons entry rest ih =>
      have := le_length_encodeString2 entry.value
      rw [List.flatMap_cons, List.length_append, entry.length_toBytes, List.map_cons, List.sum_cons]
      omega

theorem length_le_length (entries : List LogEntry) :
    entries.length ≤ (entries.flatMap LogEntry.toBytes).length := by
  induction entries with
  | nil => exact le_rfl
  | cons entry rest ih =>
      rw [List.flatMap_cons, List.length_append, entry.length_toBytes, List.length_cons]
      omega

/-- Nothing is left out only if every prefix is one byte. -/
theorem short_of_length {entries : List LogEntry}
    (fits : (entries.flatMap LogEntry.toBytes).length < 2 ^ 32)
    (all : (entries.flatMap LogEntry.toBytes).length ≤
      (entries.map fun entry => 24 + (1 + entry.value.length)).sum) :
    ∀ entry ∈ entries, entry.value.length < 128 := by
  induction entries with
  | nil => exact fun _ mem => absurd mem List.not_mem_nil
  | cons entry rest ih =>
      have lower := le_length_encodeString2 entry.value
      have others := moved_le_length rest
      rw [List.flatMap_cons, List.length_append, entry.length_toBytes] at fits all
      rw [List.map_cons, List.sum_cons] at all
      rw [List.forall_mem_cons]
      refine ⟨?_, ih (by omega) (by omega)⟩
      rw [← length_encodeString2_eq_iff (by omega)]
      omega

theorem survives_iff (m : AppendEntries) :
    Survives (toString m.maxBytes m.toBytes) fromString m ↔
      m.maxBytes < 2 ^ 31 ∧ ∀ entry ∈ m.entries, entry.value.length < 128 := by
  have length : m.toBytes.length = 64 + (m.entries.flatMap LogEntry.toBytes).length := by
    simp only [toBytes, List.length_append, encodeFixed64_length, encodeFixed32_length,
      Stamp.length_toBytes]
    omega
  have upper := length_entries_le m.entries
  have room : m.toBytes.length ≤ m.maxBytes := by
    rw [length, maxBytes]
    omega
  refine Net.survives_iff room ?_ ?_
  · intro short fits mem holds
    simp only [toBytes, Memory.holds_append, encodeFixed64_length, encodeFixed32_length,
      Stamp.length_toBytes] at holds
    obtain ⟨stamp, preLogIndex, preLogTerm, commitIndex, count, entries⟩ := holds
    have few : m.entries.length < 2 ^ 31 := by
      have := length_le_length m.entries
      omega
    have count_eq : (Int32.ofNat m.entries.length).toUInt32.toNat = m.entries.length :=
      Nat.mod_eq_of_lt (by omega)
    rw [← count_eq] at count
    obtain ⟨moved, read, pos⟩ := @readEntries_holds _ (Cursor.start.advance 64) _
      ((m.toBytes.length : ℤ) - 48) short entries (by omega) (by omega)
    have left : (m.toBytes.length : ℤ) - 8 - 8 - 8 - 4 - 4 - 8 - 4 - 4 = m.toBytes.length - 48 := by
      omega
    unfold fromString
    rw [Reader.bind_of_ok (Stamp.fromBytes_holds stamp),
      Reader.bind_of_ok (readFixed32_holds preLogIndex),
      Reader.bind_of_ok (readFixed64_holds preLogTerm),
      Reader.bind_of_ok (readFixed32_holds commitIndex),
      Reader.bind_of_ok (readInt32_holds count), left, Int32.toInt_ofNat_of_lt few, Int.toNat_natCast]
    simp only [Cursor.advance_advance]
    rw [Reader.bind_of_ok read]
    refine ⟨moved, rfl, ?_⟩
    rw [pos, length]
    rfl
  · intro fits mem cursor done all
    unfold fromString at done
    rw [Reader.bind_of_ok Stamp.fromBytes_run, Reader.bind_of_ok readFixed32_run,
      Reader.bind_of_ok readFixed64_run, Reader.bind_of_ok readFixed32_run,
      Reader.bind_of_ok readInt32_run] at done
    obtain ⟨entries, moved, read, done⟩ := Reader.ok_of_bind done
    obtain ⟨rfl, rfl⟩ := Prod.mk.inj (Except.ok.inj done)
    have pos := readEntries_pos read
    simp only [Cursor.advance_advance, Cursor.pos_advance, Cursor.start] at pos
    exact short_of_length (by omega) (by dsimp only at *; omega)

end AppendEntries

/-! ## All of them -/

/-- The messages whose length varies. -/
inductive Varied
  | appendEntries (m : AppendEntries)
  | installSnapshot (m : InstallSnapshot)
  | clientRequest (m : ClientRequest)
  | clientRequestReply (m : ClientRequestReply)
  | ping (m : Ping)
  | pingReply (m : PingReply)

namespace Varied

/-- `MaxBytes` of each message. -/
def maxBytes : Varied → ℕ
  | appendEntries m => m.maxBytes
  | installSnapshot m => m.maxBytes
  | clientRequest m => m.maxBytes
  | clientRequestReply m => m.maxBytes
  | ping m => m.maxBytes
  | pingReply m => m.maxBytes

/-- The strings of a message. -/
def strings : Varied → List Bytes
  | appendEntries m => m.entries.map LogEntry.value
  | installSnapshot m => [m.data]
  | clientRequest m => [m.data]
  | clientRequestReply m => [m.msg, m.data]
  | ping m => [m.msg]
  | pingReply m => [m.msg]

/-- `FromString` undoes `ToString`. -/
def RoundTrips : Varied → Prop
  | appendEntries m => Survives (toString m.maxBytes m.toBytes) AppendEntries.fromString m
  | installSnapshot m => Survives (toString m.maxBytes m.toBytes) InstallSnapshot.fromString m
  | clientRequest m => Survives (toString m.maxBytes m.toBytes) ClientRequest.fromString m
  | clientRequestReply m => Survives (toString m.maxBytes m.toBytes) ClientRequestReply.fromString m
  | ping m => Survives (toString m.maxBytes m.toBytes) Ping.fromString m
  | pingReply m => Survives (toString m.maxBytes m.toBytes) Ping.fromString m

/-- A message of variable length survives the wire if and only if the room it asks for
is an `int32_t` and all its strings are shorter than 128 bytes. -/
theorem roundTrips_iff (m : Varied) :
    m.RoundTrips ↔ m.maxBytes < 2 ^ 31 ∧ ∀ text ∈ m.strings, text.length < 128 := by
  cases m with
  | appendEntries m => simpa [RoundTrips, strings, maxBytes] using m.survives_iff
  | installSnapshot m => simpa [RoundTrips, strings, maxBytes] using m.survives_iff
  | clientRequest m => simpa [RoundTrips, strings, maxBytes] using m.survives_iff
  | clientRequestReply m => simpa [RoundTrips, strings, maxBytes] using m.survives_iff
  | ping m => simpa [RoundTrips, strings, maxBytes] using m.survives_iff
  | pingReply m => simpa [RoundTrips, strings, maxBytes] using Ping.survives_iff m

/-- A request with 128 bytes does not. -/
theorem not_roundTrips :
    ¬∀ m : Varied, (∀ text ∈ m.strings, text.length < 2 ^ 31) → m.RoundTrips := by
  intro all
  have survives := all (.clientRequest ⟨1, .propose, List.replicate 128 0⟩) (by
    simp [strings])
  have short := ((ClientRequest.survives_iff _).mp survives).2
  simp at short

end Varied

end Vraft.Net
