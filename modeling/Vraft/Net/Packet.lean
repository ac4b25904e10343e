import Vraft.Net.Chopped

/-!
# Packets

A header with the size and the type of a body, and the body.  What the type means and
whether the body can be decoded is left to those who receive it.
-/

namespace Vraft.Net

open Connection

/-- A type and a body whose size is an `int32_t`. -/
structure Packet where
  type : Int32
  body : Bytes
  small : body.length < 2 ^ 31

namespace Packet

variable {packet : Packet} {front behind : Bytes}

/-- The header and the body. -/
def toBytes (packet : Packet) : Bytes :=
  encodeFixed32 packet.body.length ++ (encodeFixed32 packet.type.toUInt32.toNat ++ packet.body)

theorem length_toBytes (packet : Packet) :
    packet.toBytes.length = headerBytes + packet.body.length := by
  simp only [toBytes, List.length_append, encodeFixed32_length, headerBytes]
  omega

theorem toBytes_pos (packet : Packet) : 0 < packet.toBytes.length := by
  rw [length_toBytes, headerBytes]
  omega

/-- A field of a header is in its first four bytes. -/
theorem headerField_append (long : 4 ≤ front.length) (behind : Bytes) :
    headerField (front ++ behind) = headerField front := by
  rw [headerField, headerField, decodeFixed32, decodeFixed32, List.take_append_of_le_length long]

/-- As soon as the header is there it tells the size of the body. -/
theorem headerField_front (header : headerBytes ≤ front.length)
    (part : front <+: packet.toBytes ++ behind) : headerField front = packet.body.length := by
  rw [headerBytes] at header
  obtain ⟨more, stream⟩ := part
  rw [← headerField_append (by omega) more, stream, toBytes, List.append_assoc]
  exact headerField_length packet.small _

theorem headerField_type (header : headerBytes ≤ front.length)
    (part : front <+: packet.toBytes ++ behind) :
    headerField (front.drop 4) = packet.type.toInt := by
  rw [headerBytes] at header
  obtain ⟨more, stream⟩ := part
  have long : 4 ≤ (front.drop 4).length := by
    rw [List.length_drop]
    omega
  rw [← headerField_append long more, ← List.drop_append_of_le_length (by omega), stream, toBytes,
    List.append_assoc, List.drop_left' (encodeFixed32_length _), List.append_assoc]
  exact headerField_encode _

/-- Behind the header follows the body. -/
theorem drop_header (packet : Packet) (behind : Bytes) :
    (packet.toBytes ++ behind).drop headerBytes = packet.body ++ behind := by
  have header : (encodeFixed32 packet.body.length ++
      encodeFixed32 packet.type.toUInt32.toNat).length = headerBytes := by
    simp [headerBytes]
  rw [toBytes, ← List.append_assoc, List.append_assoc, List.drop_left' header]

end Packet

end Vraft.Net
