import Vraft.Lib.Failing
import Vraft.Lib.Region
import Vraft.Util.Coding

/-!
# The buffer of a connection

`Buffer` writes into the memory of a vector and keeps two positions in it.  The memory is
reserved, the vector's own size plays no part until it has to grow: then only the bytes
below that size are taken along.
-/

namespace Vraft.Seda

open Region

/-- What a conversion to `int32_t` leaves of a value. -/
def int32 (value : ℤ) : ℤ := value.bmod (2 ^ 32)

theorem int32_of_range {value : ℤ} (lower : 0 ≤ value) (upper : value < 2 ^ 31) :
    int32 value = value := by
  rw [int32, Int.bmod_def]
  split_ifs <;> omega

/-- The ways a call of the buffer can fail: an assertion, a size that the vector does not
take, or a copy outside of its memory. -/
inductive BufferFault
  | maxWasteBytes
  | initBytes
  | size
  | writable
  | readable
  | moved
  | outside
  deriving DecidableEq

/-- `storage` is the memory that the vector holds, its length the capacity; `size` is
`buf_.size()`. -/
structure Buffer where
  maxWasteBytes : ℤ
  storage : Bytes
  size : ℕ
  readIndex : ℤ
  writeIndex : ℤ
  deriving DecidableEq

namespace Buffer

/-- The constructor.  Reserved memory may hold anything. -/
def make (initBytes maxWasteBytes : Int32) (reserved : ℕ → UInt8) : Except BufferFault Buffer :=
  if 0 < maxWasteBytes.toInt then
    if maxWasteBytes.toInt < initBytes.toInt then
      .ok
        { maxWasteBytes := maxWasteBytes.toInt
          storage := (List.range initBytes.toInt.toNat).map reserved
          size := 0
          readIndex := 0
          writeIndex := 0 }
    else .error .initBytes
  else .error .maxWasteBytes

variable (buf : Buffer)

/-- `buf_.size()`. -/
def capacity : ℕ := buf.storage.length

/-- `Buffer::ReadableBytes`. -/
def readableBytes : ℤ := int32 (buf.writeIndex - buf.readIndex)

/-- `Buffer::WritableBytes`. -/
def writableBytes : ℤ := int32 (buf.capacity - buf.writeIndex)

/-- `Buffer::WastefulBytes`. -/
def wastefulBytes : ℤ := buf.readIndex

/-- The bytes between `BeginRead()` and `BeginWrite()`. -/
def content : Bytes := segment buf.storage buf.readIndex.toNat buf.writeIndex.toNat

/-- `std::vector::resize`.  Beyond the capacity the first `size` bytes move to new memory,
which may have some to spare; new items are zero. -/
def resize (n : ℕ) (spare : Bytes) : Buffer :=
  if n ≤ buf.capacity then
    { buf with
      storage := buf.storage.take buf.size ++
        (List.replicate (n - buf.size) 0 ++ buf.storage.drop (max n buf.size))
      size := n }
  else
    { buf with
      storage := buf.storage.take buf.size ++ (List.replicate (n - buf.size) 0 ++ spare)
      size := n }

/-- `Buffer::Reset`. -/
def reset : Buffer := { buf with readIndex := 0, writeIndex := 0 }

/-- `Buffer::MaybeReset`: start over when all has been read. -/
def maybeReset : Buffer :=
  if buf.readIndex = buf.writeIndex ∧ 0 < buf.readIndex then buf.reset else buf

/-- `Buffer::Move`: what is readable goes to the front. -/
def move : Except BufferFault Buffer :=
  if 0 < buf.wastefulBytes then
    let readable := buf.readableBytes
    let moved : Buffer :=
      { buf with
        storage := overwrite buf.storage 0 buf.content
        readIndex := 0
        writeIndex := readable }
    if readable = moved.readableBytes then .ok moved else .error .moved
  else .ok buf

/-- `Buffer::MaybeMove`. -/
def maybeMove : Except BufferFault Buffer :=
  if buf.maxWasteBytes < buf.wastefulBytes then buf.move else .ok buf

/-- `Buffer::Retrieve`, with the assert on what is readable. -/
def retrieve (len : ℤ) : Except BufferFault Buffer :=
  if len ≤ buf.readableBytes then
    ({ buf with readIndex := int32 (buf.readIndex + len) } : Buffer).maybeReset.maybeMove
  else .error .readable

/-- The sum is an `int32_t`, and a vector has no negative size. -/
def makeSpace (len : ℤ) (spare : Bytes) : Except BufferFault Buffer :=
  if buf.writableBytes < len then
    if 0 ≤ buf.writeIndex + len ∧ buf.writeIndex + len < 2 ^ 31 then
      .ok (buf.resize (buf.writeIndex + len).toNat spare)
    else .error .size
  else .ok buf

/-- `Buffer::EnsureWritableBytes`; new bytes of the vector are taken from `spare`. -/
def ensureWritableBytes (len : ℤ) (spare : Bytes) : Except BufferFault Buffer := do
  let buf ← if buf.writableBytes < len then buf.makeSpace len spare else .ok buf
  if len ≤ buf.writableBytes then .ok buf else .error .writable

/-- `Buffer::Append`. -/
def append (data spare : Bytes) : Except BufferFault Buffer := do
  let buf ← buf.ensureWritableBytes (int32 data.length) spare
  if 0 ≤ buf.writeIndex ∧ buf.writeIndex + data.length ≤ buf.capacity then
    .ok
      { buf with
        storage := overwrite buf.storage buf.writeIndex.toNat data
        writeIndex := int32 (buf.writeIndex + data.length) }
  else .error .outside

/-! ## Positions in order -/

/-- The positions are in order, and within the memory. -/
structure Sound : Prop where
  read_nonneg : 0 ≤ buf.readIndex
  read_le_write : buf.readIndex ≤ buf.writeIndex
  write_le_capacity : buf.writeIndex ≤ buf.capacity
  write_lt : buf.writeIndex < 2 ^ 31
  size_le_capacity : buf.size ≤ buf.capacity

variable {buf}

namespace Sound

variable (sound : buf.Sound)

include sound

theorem write_nonneg : 0 ≤ buf.writeIndex :=
  sound.read_nonneg.trans sound.read_le_write

theorem readableBytes_eq : buf.readableBytes = buf.writeIndex - buf.readIndex := by
  have := sound.read_nonneg
  have := sound.read_le_write
  have := sound.write_lt
  exact int32_of_range (by omega) (by omega)

theorem length_content : (buf.content.length : ℤ) = buf.writeIndex - buf.readIndex := by
  have := sound.read_nonneg
  have := sound.read_le_write
  have inside := sound.write_le_capacity
  rw [capacity] at inside
  rw [content, length_segment (by omega)]
  omega

theorem readableBytes_eq_length : buf.readableBytes = buf.content.length := by
  rw [sound.readableBytes_eq, sound.length_content]

theorem writableBytes_eq (near : buf.capacity - buf.writeIndex < 2 ^ 31) :
    buf.writableBytes = buf.capacity - buf.writeIndex := by
  have := sound.write_le_capacity
  exact int32_of_range (by omega) near

end Sound

/-! ## Retrieving -/

/-- `next` has the content `queue`, in as much memory as before. -/
structure Becomes (buf : Buffer) (queue : Bytes) (next : Buffer) : Prop where
  sound : next.Sound
  content_eq : next.content = queue
  capacity_eq : next.capacity = buf.capacity
  maxWasteBytes_eq : next.maxWasteBytes = buf.maxWasteBytes

theorem Becomes.refl (sound : buf.Sound) : buf.Becomes buf.content buf :=
  ⟨sound, rfl, rfl, rfl⟩

theorem Becomes.trans {first second : Buffer} {queue queue' : Bytes}
    (earlier : buf.Becomes queue first) (later : first.Becomes queue' second) :
    buf.Becomes queue' second :=
  ⟨later.sound, later.content_eq, later.capacity_eq.trans earlier.capacity_eq,
    later.maxWasteBytes_eq.trans earlier.maxWasteBytes_eq⟩

theorem reset_becomes (sound : buf.Sound) : buf.Becomes [] buf.reset where
  sound :=
    { read_nonneg := le_refl _
      read_le_write := le_refl _
      write_le_capacity := Int.natCast_nonneg _
      write_lt := show (0 : ℤ) < 2 ^ 31 by decide
      size_le_capacity := sound.size_le_capacity }
  content_eq := segment_self _ _
  capacity_eq := rfl
  maxWasteBytes_eq := rfl

/-- The content moves to the front of the memory. -/
theorem move_eq (sound : buf.Sound) (wasteful : 0 < buf.readIndex) :
    buf.move = .ok
      { buf with
        storage := overwrite buf.storage 0 buf.content
        readIndex := 0
        writeIndex := buf.writeIndex - buf.readIndex } := by
  have readable := sound.readableBytes_eq
  have := sound.read_le_write
  have := sound.write_lt
  have kept : int32 (buf.writeIndex - buf.readIndex - 0) = buf.writeIndex - buf.readIndex := by
    rw [sub_zero]
    exact int32_of_range (by omega) (by omega)
  unfold move wastefulBytes
  rw [if_pos wasteful]
  dsimp only
  rw [readable, if_pos]
  exact kept.symm

theorem length_content_le (sound : buf.Sound) : buf.content.length ≤ buf.capacity := by
  have := sound.length_content
  have := sound.read_nonneg
  have := sound.write_le_capacity
  omega

theorem move_becomes (sound : buf.Sound) :
    buf.Becomes buf.content
      { buf with
        storage := overwrite buf.storage 0 buf.content
        readIndex := 0
        writeIndex := buf.writeIndex - buf.readIndex } := by
  have room := length_content_le sound
  have length := sound.length_content
  have capacity : (overwrite buf.storage 0 buf.content).length = buf.capacity :=
    length_overwrite (by rw [Nat.zero_add]; exact room)
  refine ⟨⟨le_refl _, ?_, ?_, ?_, ?_⟩, ?_, capacity, rfl⟩
  · exact sub_nonneg.mpr sound.read_le_write
  · show _ ≤ ((overwrite buf.storage 0 buf.content).length : ℤ)
    rw [capacity]
    dsimp only
    omega
  · have := sound.read_nonneg
    have := sound.write_lt
    dsimp only
    omega
  · show _ ≤ (overwrite buf.storage 0 buf.content).length
    rw [capacity]
    exact sound.size_le_capacity
  · have written : (buf.writeIndex - buf.readIndex).toNat = 0 + buf.content.length := by omega
    show segment (overwrite buf.storage 0 buf.content) 0 _ = _
    rw [written, segment_overwrite (le_refl 0) (Nat.zero_le _), segment_self, List.nil_append]

theorem maybeReset_spec (sound : buf.Sound) :
    buf.Becomes buf.content buf.maybeReset ∧
      buf.maybeReset.readIndex = if buf.readIndex = buf.writeIndex then 0 else buf.readIndex := by
  unfold maybeReset
  by_cases empty : buf.readIndex = buf.writeIndex
  · have nothing : buf.content = [] := by
      rw [content, empty, segment_self]
    rw [if_pos empty, nothing]
    split_ifs with advanced
    · exact ⟨reset_becomes sound, rfl⟩
    · have start : buf.readIndex = 0 :=
        le_antisymm (not_lt.mp fun some => advanced ⟨empty, some⟩) sound.read_nonneg
      exact ⟨nothing ▸ .refl sound, start⟩
  · rw [if_neg empty, if_neg fun both => empty both.1]
    exact ⟨.refl sound, rfl⟩

theorem maybeMove_spec (sound : buf.Sound) (waste : 0 ≤ buf.maxWasteBytes) :
    ∃ next, buf.maybeMove = .ok next ∧ buf.Becomes buf.content next ∧
      next.readIndex = if buf.maxWasteBytes < buf.readIndex then 0 else buf.readIndex := by
  unfold maybeMove wastefulBytes
  split_ifs with wasteful
  · exact ⟨_, move_eq sound (by omega), move_becomes sound, rfl⟩
  · exact ⟨buf, rfl, .refl sound, rfl⟩

/-- Where reading goes on after a `Retrieve` that leaves the positions `read` and `write`. -/
def settled (maxWasteBytes read write : ℤ) : ℤ :=
  if read = write then 0 else if maxWasteBytes < read then 0 else read

theorem retrieve_spec {len : ℤ} (sound : buf.Sound) (waste : 0 ≤ buf.maxWasteBytes)
    (nonneg : 0 ≤ len) (within : len ≤ buf.readableBytes) :
    ∃ next, buf.retrieve len = .ok next ∧ buf.Becomes (buf.content.drop len.toNat) next ∧
      next.readIndex = settled buf.maxWasteBytes (buf.readIndex + len) buf.writeIndex := by
  have := sound.read_nonneg
  have := sound.write_lt
  have readable := sound.readableBytes_eq
  have advanced : int32 (buf.readIndex + len) = buf.readIndex + len :=
    int32_of_range (by omega) (by omega)
  have later : ({ buf with readIndex := buf.readIndex + len } : Buffer).Sound :=
    { sound with
      read_nonneg := by dsimp only; omega
      read_le_write := by dsimp only; omega }
  have content : ({ buf with readIndex := buf.readIndex + len } : Buffer).content =
      buf.content.drop len.toNat := by
    rw [Buffer.content, Buffer.content, segment_drop, Int.toNat_add sound.read_nonneg nonneg]
  obtain ⟨reset, readIndex⟩ := maybeReset_spec later
  obtain ⟨next, moved, becomes, settles⟩ :=
    maybeMove_spec reset.sound (by rw [reset.maxWasteBytes_eq]; exact waste)
  unfold retrieve
  rw [if_pos within, advanced]
  refine ⟨next, moved, ?_, ?_⟩
  · rw [← content, ← reset.content_eq]
    exact Becomes.trans ⟨later, content, rfl, rfl⟩ (reset.trans becomes)
  · rw [settles, readIndex, reset.maxWasteBytes_eq, settled]
    dsimp only
    split_ifs <;> omega

/-! ## Appending -/

theorem ensureWritableBytes_of_room {len : ℤ} (sound : buf.Sound)
    (near : buf.capacity - buf.writeIndex < 2 ^ 31)
    (room : buf.writeIndex + len ≤ buf.capacity) (spare : Bytes) :
    buf.ensureWritableBytes len spare = .ok buf := by
  have writable := sound.writableBytes_eq near
  unfold ensureWritableBytes
  rw [if_neg (by omega), ok_bind]
  exact if_pos (by omega)

/-- Bytes that fit behind the content are written there. -/
theorem append_of_room {data : Bytes} (sound : buf.Sound)
    (near : buf.capacity - buf.writeIndex < 2 ^ 31)
    (room : buf.writeIndex + data.length ≤ buf.capacity)
    (small : buf.writeIndex + data.length < 2 ^ 31) (spare : Bytes) :
    ∃ next, buf.append data spare = .ok next ∧ buf.Becomes (buf.content ++ data) next ∧
      next.readIndex = buf.readIndex ∧ next.size = buf.size := by
  have := sound.write_nonneg
  have := sound.read_nonneg
  have := sound.read_le_write
  have asked : int32 data.length = data.length := int32_of_range (by omega) (by omega)
  have written : int32 (buf.writeIndex + data.length) = buf.writeIndex + data.length :=
    int32_of_range (by omega) small
  have capacity : (overwrite buf.storage buf.writeIndex.toNat data).length = buf.capacity :=
    length_overwrite (by rw [Buffer.capacity] at room; omega)
  unfold append
  rw [asked, ensureWritableBytes_of_room sound near room, ok_bind,
    if_pos ⟨sound.write_nonneg, room⟩, written]
  refine ⟨_, rfl, ⟨⟨sound.read_nonneg, ?_, ?_, small, ?_⟩, ?_, capacity, rfl⟩, rfl, rfl⟩
  · dsimp only
    omega
  · show _ ≤ ((overwrite buf.storage buf.writeIndex.toNat data).length : ℤ)
    rw [capacity]
    exact room
  · show _ ≤ (overwrite buf.storage buf.writeIndex.toNat data).length
    rw [capacity]
    exact sound.size_le_capacity
  · have ending : (buf.writeIndex + data.length).toNat = buf.writeIndex.toNat + data.length := by
      omega
    show segment (overwrite buf.storage buf.writeIndex.toNat data) buf.readIndex.toNat _ = _
    rw [ending, segment_overwrite (by omega) (by rw [Buffer.capacity] at room; omega)]
    rfl

@[simp]
theorem resize_readIndex (n : ℕ) (spare : Bytes) : (buf.resize n spare).readIndex = buf.readIndex := by
  unfold resize
  split_ifs <;> rfl

@[simp]
theorem resize_writeIndex (n : ℕ) (spare : Bytes) :
    (buf.resize n spare).writeIndex = buf.writeIndex := by
  unfold resize
  split_ifs <;> rfl

@[simp]
theorem resize_size (n : ℕ) (spare : Bytes) : (buf.resize n spare).size = n := by
  unfold resize
  split_ifs <;> rfl

@[simp]
theorem resize_maxWasteBytes (n : ℕ) (spare : Bytes) :
    (buf.resize n spare).maxWasteBytes = buf.maxWasteBytes := by
  unfold resize
  split_ifs <;> rfl

/-- Growing takes the content along if it lies below the size of the vector. -/
theorem resize_spec {n : ℕ} (sound : buf.Sound) (below : buf.writeIndex ≤ buf.size)
    (grows : buf.capacity < n) (spare : Bytes) :
    (buf.resize n spare).Sound ∧ (buf.resize n spare).content = buf.content ∧
      (buf.resize n spare).capacity = n + spare.length := by
  have within := sound.size_le_capacity
  have := sound.read_nonneg
  have := sound.read_le_write
  rw [capacity] at within grows
  have capacity : (buf.resize n spare).capacity = n + spare.length := by
    unfold resize Buffer.capacity
    rw [if_neg (not_le.mpr grows)]
    simp only [List.length_append, List.length_take, List.length_replicate]
    omega
  refine ⟨⟨?_, ?_, ?_, ?_, ?_⟩, ?_, capacity⟩
  · rw [resize_readIndex]
    exact sound.read_nonneg
  · rw [resize_readIndex, resize_writeIndex]
    exact sound.read_le_write
  · rw [resize_writeIndex, capacity]
    omega
  · rw [resize_writeIndex]
    exact sound.write_lt
  · rw [resize_size, capacity]
    omega
  · rw [content, resize_readIndex, resize_writeIndex]
    unfold resize Buffer.capacity
    rw [if_neg (not_le.mpr grows), segment_append (by rw [List.length_take]; omega),
      segment_take (by omega)]
    rfl

/-- Bytes that do not fit are appended to the grown buffer. -/
theorem append_grown {data spare : Bytes} (sound : buf.Sound) (below : buf.writeIndex ≤ buf.size)
    (near : buf.capacity - buf.writeIndex < 2 ^ 31)
    (grows : buf.capacity < buf.writeIndex + data.length)
    (small : buf.writeIndex + data.length < 2 ^ 31)
    (spared : (data.length : ℤ) + spare.length < 2 ^ 31) :
    buf.append data spare =
      (buf.resize (buf.writeIndex + data.length).toNat spare).append data [] := by
  have := sound.write_nonneg
  have asked : int32 data.length = data.length := int32_of_range (by omega) (by omega)
  have writable := sound.writableBytes_eq near
  obtain ⟨grown, -, capacity⟩ := resize_spec sound below
    (n := (buf.writeIndex + data.length).toNat) (by omega) spare
  have stays := buf.resize_writeIndex (buf.writeIndex + data.length).toNat spare
  have near' : (buf.resize (buf.writeIndex + data.length).toNat spare).capacity -
      (buf.resize (buf.writeIndex + data.length).toNat spare).writeIndex < 2 ^ 31 := by
    omega
  have writable' := grown.writableBytes_eq near'
  have ensured : buf.ensureWritableBytes data.length spare =
      .ok (buf.resize (buf.writeIndex + data.length).toNat spare) := by
    unfold ensureWritableBytes makeSpace
    rw [if_pos (by omega), if_pos (by omega), if_pos ⟨by omega, small⟩, ok_bind]
    exact if_pos (by omega)
  unfold append
  rw [asked, ensured, ensureWritableBytes_of_room grown near' (by omega)]

/-! ## Runs -/

/-- `spare` is the memory beyond what was asked for, should the vector grow. -/
inductive Call
  | append (data spare : Bytes)
  | retrieve (len : ℤ)
  deriving DecidableEq

variable (buf) in
/-- One call. -/
def call : Call → Except BufferFault Buffer
  | .append data spare => buf.append data spare
  | .retrieve len => buf.retrieve len

/-- What a call does to a queue of bytes. -/
def Call.onQueue (queue : Bytes) : Call → Bytes
  | .append data _ => queue ++ data
  | .retrieve len => queue.drop len.toNat

/-- Not more is retrieved than there is. -/
def Call.Allowed (queue : Bytes) : Call → Prop
  | .append _ _ => True
  | .retrieve len => len ≤ queue.length

variable (buf) in
/-- The sizes are representable.  Either the data fits behind the content, or the content
lies below `buf_.size()`; no negative number of bytes is retrieved. -/
def Call.Fits : Call → Prop
  | .append data spare =>
      buf.writeIndex + data.length < 2 ^ 31 ∧ buf.capacity - buf.writeIndex < 2 ^ 31 ∧
        (buf.writeIndex + data.length ≤ buf.capacity ∨
          buf.writeIndex ≤ buf.size ∧ (data.length : ℤ) + spare.length < 2 ^ 31)
  | .retrieve len => 0 ≤ len ∧ len ≤ buf.readableBytes

instance (call : Call) (queue : Bytes) : Decidable (call.Allowed queue) := by
  cases call <;> unfold Call.Allowed <;> infer_instance

instance (call : Call) : Decidable (call.Fits buf) := by
  cases call <;> unfold Call.Fits <;> infer_instance

theorem append_spec {data spare : Bytes} (sound : buf.Sound)
    (fits : (Call.append data spare).Fits buf) :
    ∃ next, buf.append data spare = .ok next ∧ next.Sound ∧
      next.maxWasteBytes = buf.maxWasteBytes ∧ next.content = buf.content ++ data := by
  obtain ⟨small, near, place⟩ := fits
  by_cases room : buf.writeIndex + data.length ≤ buf.capacity
  · obtain ⟨next, done, becomes, -, -⟩ := append_of_room sound near room small spare
    exact ⟨next, done, becomes.sound, becomes.maxWasteBytes_eq, becomes.content_eq⟩
  · obtain ⟨below, spared⟩ := place.resolve_left room
    have := sound.write_nonneg
    obtain ⟨grown, content, capacity⟩ := resize_spec sound below
      (n := (buf.writeIndex + data.length).toNat) (by omega) spare
    have stays := buf.resize_writeIndex (buf.writeIndex + data.length).toNat spare
    have fits : (buf.resize (buf.writeIndex + data.length).toNat spare).writeIndex + data.length ≤
        (buf.resize (buf.writeIndex + data.length).toNat spare).capacity := by
      omega
    obtain ⟨next, done, becomes, -, -⟩ := append_of_room grown (by omega) fits (by omega) []
    refine ⟨next, ?_, becomes.sound, ?_, ?_⟩
    · rw [append_grown sound below near (not_le.mp room) small spared, done]
    · rw [becomes.maxWasteBytes_eq, resize_maxWasteBytes]
    · rw [becomes.content_eq, content]

theorem call_spec {call : Call} (sound : buf.Sound) (waste : 0 ≤ buf.maxWasteBytes)
    (fits : call.Fits buf) :
    ∃ next, buf.call call = .ok next ∧ next.Sound ∧ next.maxWasteBytes = buf.maxWasteBytes ∧
      next.content = call.onQueue buf.content := by
  cases call with
  | append data spare => exact append_spec sound fits
  | retrieve len =>
      obtain ⟨next, done, becomes, -⟩ := retrieve_spec sound waste fits.1 fits.2
      exact ⟨next, done, becomes.sound, becomes.maxWasteBytes_eq, becomes.content_eq⟩

variable (buf) in
/-- Several calls one after another. -/
def run (calls : List Call) : Except BufferFault Buffer :=
  calls.foldlM call buf

/-- The content is a queue, and the positions are in order. -/
structure IsQueue (buf : Buffer) (queue : Bytes) : Prop where
  content_eq : buf.content = queue
  readableBytes_eq : buf.readableBytes = queue.length
  read_nonneg : 0 ≤ buf.readIndex
  read_le_write : buf.readIndex ≤ buf.writeIndex
  write_le_capacity : buf.writeIndex ≤ buf.capacity

theorem Sound.isQueue (sound : buf.Sound) : buf.IsQueue buf.content where
  content_eq := rfl
  readableBytes_eq := sound.readableBytes_eq_length
  read_nonneg := sound.read_nonneg
  read_le_write := sound.read_le_write
  write_le_capacity := sound.write_le_capacity

/-- Every call is allowed where it is made. -/
def AllAllowed : Bytes → List Call → Prop
  | _, [] => True
  | queue, call :: calls => call.Allowed queue ∧ AllAllowed (call.onQueue queue) calls

/-- Every call of a run fits the buffer that it is made on. -/
def AllFit : Buffer → List Call → Prop
  | _, [] => True
  | buf, call :: calls =>
      call.Fits buf ∧
        match buf.call call with
        | .ok next => AllFit next calls
        | .error _ => True

instance AllAllowed.decide : ∀ (queue : Bytes) (calls : List Call), Decidable (AllAllowed queue calls)
  | _, [] => .isTrue trivial
  | queue, call :: calls =>
      have := AllAllowed.decide (call.onQueue queue) calls
      inferInstanceAs (Decidable (_ ∧ _))

instance AllFit.decide : ∀ (buf : Buffer) (calls : List Call), Decidable (AllFit buf calls)
  | _, [] => .isTrue trivial
  | buf, call :: calls =>
      have : Decidable (match buf.call call with
          | .ok next => AllFit next calls
          | .error _ => True) :=
        match buf.call call with
        | .ok next => AllFit.decide next calls
        | .error _ => .isTrue trivial
      inferInstanceAs (Decidable (_ ∧ _))

theorem run_spec {calls done : List Call} (sound : buf.Sound) (waste : 0 ≤ buf.maxWasteBytes)
    (fit : AllFit buf calls) (front : done <+: calls) :
    ∃ next, buf.run done = .ok next ∧ next.IsQueue (done.foldl Call.onQueue buf.content) := by
  induction done generalizing buf calls with
  | nil => exact ⟨buf, rfl, sound.isQueue⟩
  | cons call done ih =>
      obtain ⟨rest, rfl⟩ := front
      rw [List.cons_append] at fit
      obtain ⟨fits, others⟩ := fit
      obtain ⟨next, stepped, sound', kept, content⟩ := call_spec sound waste fits
      rw [stepped] at others
      obtain ⟨last, ran, queue⟩ := ih sound' (kept ▸ waste) others (List.prefix_append _ _)
      refine ⟨last, ?_, ?_⟩
      · rw [run, List.foldlM_cons, stepped]
        exact ran
      · rw [List.foldl_cons, ← content]
        exact queue

theorem make_spec {initBytes maxWasteBytes : Int32} {reserved : ℕ → UInt8}
    (made : make initBytes maxWasteBytes reserved = .ok buf) :
    buf.Sound ∧ 0 < buf.maxWasteBytes ∧ buf.maxWasteBytes < buf.capacity ∧ buf.content = [] := by
  unfold make at made
  split_ifs at made with positive larger
  obtain rfl := Except.ok.inj made
  have length : ((List.range initBytes.toInt.toNat).map reserved).length = initBytes.toInt.toNat := by
    rw [List.length_map, List.length_range]
  refine ⟨⟨le_refl _, le_refl _, Int.natCast_nonneg _, ?_, Nat.zero_le _⟩, positive, ?_,
    segment_self _ _⟩
  · show (0 : ℤ) < 2 ^ 31
    decide
  · rw [capacity, length]
    dsimp only
    omega

/-- The buffer is a queue in every run in which each call fits. -/
theorem isQueue_of_allFit {initBytes maxWasteBytes : Int32} {reserved : ℕ → UInt8}
    {calls done : List Call} (made : make initBytes maxWasteBytes reserved = .ok buf)
    (fit : AllFit buf calls) (front : done <+: calls) :
    ∃ next, buf.run done = .ok next ∧ next.IsQueue (done.foldl Call.onQueue []) := by
  obtain ⟨sound, positive, -, empty⟩ := make_spec made
  obtain ⟨next, ran, queue⟩ := run_spec sound (le_of_lt positive) fit front
  exact ⟨next, ran, empty ▸ queue⟩

/-- The smallest buffer that can be made. -/
def smallest : Buffer := ⟨1, [0, 0], 0, 0, 0⟩

theorem make_smallest : make 2 1 (fun _ => 0) = .ok smallest := by
  decide +kernel

theorem isQueue_of_allFit_grown :
    ∃ next, smallest.run [.append [1, 2, 3] [], .append [4] [], .retrieve 2] = .ok next ∧
      next.IsQueue [3, 4] := by
  have fit : smallest.AllFit [.append [1, 2, 3] [], .append [4] [], .retrieve 2] := by
    decide +kernel
  exact isQueue_of_allFit make_smallest fit (List.prefix_refl _)

/-- The vector grows while what is unread lies above its size. -/
theorem not_isQueue : ¬∀ (initBytes maxWasteBytes : Int32) (reserved : ℕ → UInt8) (buf : Buffer),
    make initBytes maxWasteBytes reserved = .ok buf → ∀ calls, AllAllowed [] calls →
      ∃ next, buf.run calls = .ok next ∧ next.IsQueue (calls.foldl Call.onQueue []) := by
  intro all
  obtain ⟨next, ran, queue⟩ :=
    all 2 1 (fun _ => 0) _ make_smallest [.append [1] [], .append [2, 3] []] (by decide +kernel)
  have replaced : Meets (smallest.run [.append [1] [], .append [2, 3] []])
      (fun next => next.content = [0, 2, 3]) fun _ => False := by
    decide +kernel
  have lost := replaced.of_ok ran
  exact absurd (lost.symm.trans queue.content_eq) (by decide)

end Buffer

end Vraft.Seda
