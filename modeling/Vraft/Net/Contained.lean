import Vraft.Net.RoundTrip
import Vraft.Net.Server
import Mathlib.Tactic.IntervalCases

/-!
# Frames whose decoders stay inside

No decoder is told where its body ends, so it stays inside only if the body has room for
everything it reads.  The condition is exact: it names, for every type, the number of bytes
that are read in any case, and what has to fit behind them.
-/

namespace Vraft.Net

open Raw

variable {mem : Memory} {cursor moved : Cursor}

/-! ## What a body needs -/

/-- The bytes of a body, where nothing is known of what is behind. -/
def bodyMemory (body : Bytes) : Memory :=
  Memory.follow body fun _ => 0

/-- From `pos` on there are `count` entries, each with its fixed fields, a known type
and a string below `limit`, and each beginning where the decoder has stepped to. -/
def EntriesFit (mem : Memory) (limit : ℕ) : ℕ → ℕ → Prop
  | _, 0 => True
  | pos, count + 1 =>
      pos + 24 ≤ limit ∧ decodeFixed32 (mem.read (pos + 20) 4) ≤ 3 ∧
        ∃ len stop, Prefixed mem (pos + 24) limit len stop ∧
          EntriesFit mem limit (pos + 24 + (1 + len)) count

/-- The body has room for what the decoder of its type reads. -/
def Fits (type : ℤ) (body : Bytes) : Prop :=
  match type with
  | 0 => 8 ≤ body.length
  | 2 => 36 ≤ body.length
  | 3 => 36 ≤ body.length
  | 4 => 58 ≤ body.length
  | 5 => 56 ≤ body.length
  | 6 => 64 ≤ body.length ∧
      EntriesFit (bodyMemory body) body.length 64 (headerField (body.drop 60)).toNat
  | 7 => 65 ≤ body.length
  | 8 => 61 ≤ body.length ∧ ∀ count, body[60]? = some count → count.toNat < 128 →
      61 + count.toNat ≠ body.length
  | 9 => 56 ≤ body.length
  | 10 => 64 ≤ body.length
  | _ => False

/-- A decoder ends with a positive number of bytes, and has read nothing behind `len`. -/
def Inside {α : Type} (decoder : Decoder α) (mem : Memory) (len : ℤ) : Prop :=
  ∃ value cursor, decoder mem Cursor.start = .ok (value, cursor) ∧ 0 < cursor.pos ∧
    (cursor.reach : ℤ) ≤ len

/-- A decoder whose end is known. -/
theorem inside_of_run {α : Type} {decoder : Decoder α} {mem : Memory} {len : ℤ} {final : Cursor}
    (run : ∃ value, decoder mem Cursor.start = .ok (value, final)) (counts : 0 < final.pos) :
    Inside decoder mem len ↔ (final.reach : ℤ) ≤ len := by
  obtain ⟨value, run⟩ := run
  constructor
  · rintro ⟨value', cursor, done, -, inside⟩
    rw [run] at done
    obtain ⟨rfl, rfl⟩ := Prod.mk.inj (Except.ok.inj done)
    exact inside
  · exact fun inside => ⟨value, final, run, counts, inside⟩

/-- A string is looked for in what is left, and the pointer does not go back. -/
theorem readString_run (len : ℤ) (mem : Memory) (cursor : Cursor) :
    ∃ text moved, readString len mem cursor = .ok (text, moved) ∧ cursor.pos ≤ moved.pos ∧
      cursor.reach ≤ moved.reach ∧
      ((cursor.pos : ℤ) ≤ len → len < 2 ^ 64 → (moved.reach : ℤ) ≤ max (cursor.reach : ℤ) len) := by
  have limit (le : (cursor.pos : ℤ) ≤ len) (bound : len < 2 ^ 64) :
      ((cursor.pos + sizeT (len - cursor.pos) : ℕ) : ℤ) = len := by
    obtain ⟨left, left_eq⟩ : ∃ left : ℕ, len - cursor.pos = left :=
      ⟨(len - cursor.pos).toNat, by omega⟩
    rw [left_eq, sizeT_of_nonneg (by omega)]
    omega
  by_cases found : ∃ count stop,
      Prefixed mem cursor.pos (cursor.pos + sizeT (len - cursor.pos)) count stop
  · obtain ⟨count, stop, prefixed⟩ := found
    refine ⟨_, _, readString_prefixed prefixed, by simp, le_max_left _ _, fun le bound => ?_⟩
    have := limit le bound
    have := prefixed.2.1
    dsimp only
    omega
  · refine ⟨_, _, readString_not_prefixed fun count stop prefixed => found ⟨count, stop, prefixed⟩,
      le_rfl, le_max_left _ _, fun le bound => ?_⟩
    have := limit le bound
    have := @varint_stop_le mem cursor.pos (cursor.pos + sizeT (len - cursor.pos)) (by omega)
    dsimp only
    omega

/-! ## Decoders of a fixed number of bytes -/

variable {len : ℤ}

theorem RequestVote.inside_iff : Inside RequestVote.fromString mem len ↔ 58 ≤ len := by
  have run : ∃ m, RequestVote.fromString mem Cursor.start = .ok (m, Cursor.start.advance 58) := by
    unfold RequestVote.fromString
    rw [Reader.bind_of_ok Stamp.fromBytes_run, Reader.bind_of_ok readFixed32_run,
      Reader.bind_of_ok readFixed64_run, Reader.bind_of_ok readBool_run,
      Reader.bind_of_ok readBool_run]
    simp only [Cursor.advance_advance]
    exact ⟨_, rfl⟩
  exact inside_of_run run (by decide)

theorem RequestVoteReply.inside_iff : Inside RequestVoteReply.fromString mem len ↔ 56 ≤ len := by
  have run : ∃ m, RequestVoteReply.fromString mem Cursor.start =
      .ok (m, Cursor.start.advance 56) := by
    unfold RequestVoteReply.fromString
    rw [Reader.bind_of_ok Stamp.fromBytes_run, Reader.bind_of_ok readBool_run,
      Reader.bind_of_ok readBool_run, Reader.bind_of_ok readBool_run,
      Reader.bind_of_ok readBool_run, Reader.bind_of_ok readFixed64_run]
    simp only [Cursor.advance_advance]
    exact ⟨_, rfl⟩
  exact inside_of_run run (by decide)

theorem AppendEntriesReply.inside_iff :
    Inside AppendEntriesReply.fromString mem len ↔ 65 ≤ len := by
  have run : ∃ m, AppendEntriesReply.fromString mem Cursor.start =
      .ok (m, Cursor.start.advance 65) := by
    unfold AppendEntriesReply.fromString
    rw [Reader.bind_of_ok Stamp.fromBytes_run, Reader.bind_of_ok readBool_run,
      Reader.bind_of_ok readFixed32_run, Reader.bind_of_ok readFixed32_run,
      Reader.bind_of_ok readInt32_run, Reader.bind_of_ok readFixed64_run]
    simp only [Cursor.advance_advance]
    exact ⟨_, rfl⟩
  exact inside_of_run run (by decide)

theorem InstallSnapshotReply.inside_iff :
    Inside InstallSnapshotReply.fromString mem len ↔ 56 ≤ len := by
  have run : ∃ m, InstallSnapshotReply.fromString mem Cursor.start =
      .ok (m, Cursor.start.advance 56) := by
    unfold InstallSnapshotReply.fromString
    rw [Reader.bind_of_ok Stamp.fromBytes_run, Reader.bind_of_ok readInt32_run,
      Reader.bind_of_ok readFixed64_run]
    simp only [Cursor.advance_advance]
    exact ⟨_, rfl⟩
  exact inside_of_run run (by decide)

/-- Seven bytes more than a `TimeoutNow` has. -/
theorem TimeoutNow.inside_iff : Inside TimeoutNow.fromString mem len ↔ 64 ≤ len := by
  have run : ∃ m, TimeoutNow.fromString mem Cursor.start = .ok (m, ⟨57, 64⟩) := by
    unfold TimeoutNow.fromString
    rw [Reader.bind_of_ok Stamp.fromBytes_run, Reader.bind_of_ok readFixed32_run,
      Reader.bind_of_ok readFixed64_run]
    exact ⟨_, rfl⟩
  exact inside_of_run run (by decide)

/-! ## Decoders of a string -/

theorem Ping.inside_iff (bound : len < 2 ^ 64) : Inside (Ping.fromString len) mem len ↔ 36 ≤ len := by
  obtain ⟨text, moved, read, after, reached, stays⟩ := readString_run len mem (Cursor.start.advance 36)
  have run : ∃ m, Ping.fromString len mem Cursor.start = .ok (m, moved) := by
    unfold Ping.fromString
    rw [Reader.bind_of_ok readFixed64_run, Reader.bind_of_ok readFixed64_run,
      Reader.bind_of_ok readFixed32_run, Reader.bind_of_ok readFixed64_run,
      Reader.bind_of_ok readFixed64_run]
    simp only [Cursor.advance_advance]
    rw [Reader.bind_of_ok read]
    exact ⟨_, rfl⟩
  simp only [Cursor.start, Cursor.reach_advance, Cursor.pos_advance] at after reached stays
  rw [inside_of_run run (by omega)]
  constructor
  · omega
  · intro room
    have := stays (by omega) bound
    omega

theorem ClientRequest.inside_iff (bound : len < 2 ^ 64) :
    Inside (ClientRequest.fromString len) mem len ↔ 8 ≤ len := by
  obtain ⟨text, moved, read, after, reached, stays⟩ := readString_run len mem (Cursor.start.advance 8)
  have run : ∃ m, ClientRequest.fromString len mem Cursor.start = .ok (m, moved) := by
    unfold ClientRequest.fromString
    rw [Reader.bind_of_ok readFixed32_run, Reader.bind_of_ok readFixed32_run]
    simp only [Cursor.advance_advance]
    rw [Reader.bind_of_ok read]
    exact ⟨_, rfl⟩
  simp only [Cursor.start, Cursor.reach_advance, Cursor.pos_advance] at after reached stays
  rw [inside_of_run run (by omega)]
  constructor
  · omega
  · intro room
    have := stays (by omega) bound
    omega

/-- One byte is read behind the string, where the decoder takes its end to be. -/
theorem InstallSnapshot.inside_iff (bound : len < 2 ^ 64) :
    Inside (InstallSnapshot.fromString len) mem len ↔
      61 ≤ len ∧ ((mem 60).toNat < 128 → (61 + (mem 60).toNat : ℤ) ≠ len) := by
  obtain ⟨text, moved, read, after, reached, stays⟩ :=
    readString_run len mem (Cursor.start.advance 60)
  have run : ∃ m, InstallSnapshot.fromString len mem Cursor.start = .ok (m, moved.advance 1) := by
    unfold InstallSnapshot.fromString
    rw [Reader.bind_of_ok Stamp.fromBytes_run, Reader.bind_of_ok readFixed32_run,
      Reader.bind_of_ok readFixed64_run, Reader.bind_of_ok readInt32_run]
    simp only [Cursor.advance_advance]
    rw [Reader.bind_of_ok read, Reader.bind_of_ok readBool_run]
    exact ⟨_, rfl⟩
  rw [inside_of_run run (by rw [Cursor.pos_advance]; omega)]
  have at_60 : (Cursor.start.advance 60).pos = 60 := rfl
  have limit (room : 60 ≤ len) : ((60 + sizeT (len - (60 : ℕ)) : ℕ) : ℤ) = len := by
    obtain ⟨left, left_eq⟩ : ∃ left : ℕ, len - (60 : ℕ) = left := ⟨(len - 60).toNat, by omega⟩
    rw [left_eq, sizeT_of_nonneg (by omega)]
    omega
  simp only [Cursor.start, Cursor.reach_advance, Cursor.pos_advance] at reached stays after ⊢
  constructor
  · intro inside
    refine ⟨by omega, fun single end_ => ?_⟩
    have prefixed := @prefixed_single mem _ (60 + sizeT (len - (60 : ℕ))) single
      (by have := limit (by omega); omega)
    have there := @readString_prefixed _ (Cursor.start.advance 60) len _ _ prefixed
    rw [read] at there
    have moved_eq := (Prod.mk.inj (Except.ok.inj there)).2
    have pos : moved.pos = 60 + (1 + (mem 60).toNat) := by rw [moved_eq]; rfl
    omega
  · rintro ⟨room, other⟩
    have := limit (by omega)
    have := stays (by omega) bound
    by_cases found : ∃ count stop, Prefixed mem 60 (60 + sizeT (len - (60 : ℕ))) count stop
    · obtain ⟨count, stop, prefixed⟩ := found
      have there := @readString_prefixed _ (Cursor.start.advance 60) len _ _ prefixed
      rw [read] at there
      have moved_eq := (Prod.mk.inj (Except.ok.inj there)).2
      have pos : moved.pos = 60 + (1 + count) := by rw [moved_eq]; rfl
      have inside := prefixed.2.1
      have later := prefixed.lt
      by_cases single : stop = 61
      · subst single
        obtain ⟨short, count_eq⟩ := getVarint32Ptr_single prefixed.1
        have := other short
        omega
      · omega
    · have there := @readString_not_prefixed mem (Cursor.start.advance 60) len
        fun count stop prefixed => found ⟨count, stop, prefixed⟩
      rw [read] at there
      have moved_eq := (Prod.mk.inj (Except.ok.inj there)).2
      have pos : moved.pos = 60 := by rw [moved_eq]; rfl
      omega

/-! ## Entries -/

theorem u32ToEntryType_ok {value : ℕ} (known : value ≤ 3) :
    ∃ type, u32ToEntryType value = .ok type := by
  interval_cases value <;> exact ⟨_, rfl⟩

theorem le_of_u32ToEntryType {value : ℕ} {type : EntryType}
    (known : u32ToEntryType value = .ok type) : value ≤ 3 := by
  unfold u32ToEntryType at known
  split at known
  case h_5 => contradiction
  all_goals decide

theorem readType_run {value : ℕ} (field : decodeFixed32 (mem.read cursor.pos 4) = value) :
    (∃ type, LogEntry.readType mem cursor = .ok (type, cursor.advance 4)) ↔ value ≤ 3 := by
  subst field
  have toNat : (UInt32.ofNat (decodeFixed32 (mem.read cursor.pos 4))).toNat =
      decodeFixed32 (mem.read cursor.pos 4) :=
    Nat.mod_eq_of_lt (decodeFixed32_lt _)
  unfold LogEntry.readType
  rw [Reader.bind_of_ok readFixed32_run, toNat]
  constructor
  · rintro ⟨type, done⟩
    cases known : u32ToEntryType (decodeFixed32 (mem.read cursor.pos 4)) with
    | ok _ => exact le_of_u32ToEntryType known
    | error _ =>
        rw [known] at done
        contradiction
  · intro le
    obtain ⟨type, known⟩ := u32ToEntryType_ok le
    rw [known]
    exact ⟨type, rfl⟩

namespace LogEntry

/-- An entry that fits is decoded, and nothing behind it is read. -/
theorem fromString_fits {len2 : ℤ} {limit count stop : ℕ}
    (slice : limit ≤ cursor.pos + 24 + sizeT (len2 - 4 - 8))
    (known : decodeFixed32 (mem.read (cursor.pos + 20) 4) ≤ 3)
    (prefixed : Prefixed mem (cursor.pos + 24) limit count stop) :
    ∃ entry, fromString len2 mem cursor = .ok (some entry,
      ⟨cursor.pos + 24 + (1 + count), max (max cursor.reach (cursor.pos + 24)) (stop + count)⟩) := by
  obtain ⟨type, typed⟩ := (@readType_run mem (cursor.advance 20) _ rfl).mpr known
  have read := @readString2_prefixed FrameFault _ (cursor.advance 24) _ _ _
    (prefixed.limit (prefixed.2.1.trans slice))
  unfold fromString
  rw [Reader.bind_of_ok readFixed32_run, Reader.bind_of_ok readFixed32_run,
    Reader.bind_of_ok readFixed32_run, Reader.bind_of_ok readFixed64_run]
  simp only [Cursor.advance_advance]
  rw [Reader.bind_of_ok typed, Cursor.advance_advance, Reader.bind_of_ok read]
  exact ⟨_, rfl⟩

/-- An entry that has been decoded without reading behind `limit` fits. -/
theorem fits_of_fromString {len2 : ℤ} {limit : ℕ} {entry : LogEntry}
    (done : fromString len2 mem cursor = .ok (some entry, moved)) (inside : moved.reach ≤ limit) :
    cursor.pos + 24 ≤ limit ∧ decodeFixed32 (mem.read (cursor.pos + 20) 4) ≤ 3 ∧
      ∃ count stop, Prefixed mem (cursor.pos + 24) limit count stop ∧
        moved = ⟨cursor.pos + 24 + (1 + count),
          max (max cursor.reach (cursor.pos + 24)) (stop + count)⟩ := by
  unfold fromString at done
  rw [Reader.bind_of_ok readFixed32_run, Reader.bind_of_ok readFixed32_run,
    Reader.bind_of_ok readFixed32_run, Reader.bind_of_ok readFixed64_run] at done
  simp only [Cursor.advance_advance] at done
  obtain ⟨type, cursor₁, typed, done⟩ := Reader.ok_of_bind done
  obtain rfl := readType_pos typed
  have known := (@readType_run mem (cursor.advance 20) _ rfl).mp ⟨type, typed⟩
  obtain ⟨found, cursor₂, read, done⟩ := Reader.ok_of_bind done
  obtain ⟨same, rfl⟩ := Prod.mk.inj (Except.ok.inj done)
  rw [Cursor.advance_advance] at read
  by_cases any : ∃ count stop,
      Prefixed mem (cursor.pos + 24) (cursor.pos + 24 + sizeT (len2 - 4 - 8)) count stop
  · obtain ⟨count, stop, prefixed⟩ := any
    rw [@readString2_prefixed _ _ (cursor.advance 24) _ _ _ prefixed] at read
    have moved_eq := (Prod.mk.inj (Except.ok.inj read)).2
    subst moved_eq
    simp only [Cursor.reach_advance] at inside
    exact ⟨by omega, known, count, stop, prefixed.limit (by omega), rfl⟩
  · rw [@readString2_not_prefixed _ mem (cursor.advance 24) _
      fun count stop prefixed => any ⟨count, stop, prefixed⟩] at read
    rw [← (Prod.mk.inj (Except.ok.inj read)).1] at same
    contradiction

end LogEntry

namespace AppendEntries

theorem readEntries_reach {count : ℕ} {len2 : ℤ} {entries : List LogEntry}
    (done : readEntries count len2 mem cursor = .ok (entries, moved)) :
    cursor.reach ≤ moved.reach := by
  induction count generalizing cursor len2 entries with
  | zero =>
      rw [readEntries_zero] at done
      split at done
      · rw [(Prod.mk.inj (Except.ok.inj done)).2]
      · contradiction
  | succ count ih =>
      obtain ⟨entry, cursor₁, rest, decoded, others, -⟩ := readEntries_cons done
      obtain ⟨-, -, len, stop, -, rfl⟩ := LogEntry.fits_of_fromString decoded le_rfl
      exact (le_max_left _ _).trans ((le_max_left _ _).trans (ih others))

/-- The entries are decoded without reading behind `limit` exactly if they fit. -/
theorem readEntries_inside {count limit : ℕ} {len2 : ℤ} (reached : cursor.reach ≤ limit)
    (pos : cursor.pos ≤ limit) (left : len2 = limit - cursor.pos + 16) (bound : len2 < 2 ^ 64) :
    (∃ entries moved, readEntries count len2 mem cursor = .ok (entries, moved) ∧
      moved.reach ≤ limit) ↔ EntriesFit mem limit cursor.pos count := by
  induction count generalizing cursor len2 with
  | zero =>
      rw [readEntries_zero, if_pos (by omega), EntriesFit]
      exact ⟨fun _ => trivial, fun _ => ⟨[], cursor, rfl, reached⟩⟩
  | succ count ih =>
      have slice : limit ≤ cursor.pos + 24 + sizeT (len2 - 4 - 8) := by
        obtain ⟨more, more_eq⟩ : ∃ more : ℕ, len2 - 4 - 8 = more := ⟨(len2 - 4 - 8).toNat, by omega⟩
        rw [more_eq, sizeT_of_nonneg (by omega)]
        omega
      rw [EntriesFit]
      constructor
      · rintro ⟨entries, final, done, inside⟩
        obtain ⟨entry, cursor₁, rest, decoded, others, -⟩ := readEntries_cons done
        have grows := readEntries_reach others
        obtain ⟨room, known, len, stop, prefixed, rfl⟩ :=
          LogEntry.fits_of_fromString decoded (grows.trans inside)
        have later := prefixed.lt
        have stays := prefixed.2.1
        refine ⟨room, known, len, stop, prefixed, ?_⟩
        dsimp only at others
        exact (@ih ⟨cursor.pos + 24 + (1 + len), _⟩ _ (grows.trans inside)
          (by dsimp only; omega) (by dsimp only; omega) (by omega)).mp
            ⟨rest, final, others, inside⟩
      · rintro ⟨room, known, len, stop, prefixed, rest⟩
        obtain ⟨entry, decoded⟩ := @LogEntry.fromString_fits mem _ _ _ _ _ slice known prefixed
        have later := prefixed.lt
        have stays := prefixed.2.1
        obtain ⟨entries, final, others, inside⟩ := (@ih
          ⟨cursor.pos + 24 + (1 + len), max (max cursor.reach (cursor.pos + 24)) (stop + len)⟩
          (len2 - (24 + (1 + len))) (by dsimp only; omega) (by dsimp only; omega)
          (by dsimp only; omega) (by omega)).mpr rest
        have counted : len2 - ((cursor.pos + 24 + (1 + len) : ℕ) - cursor.pos : ℤ) =
            len2 - (24 + (1 + len)) := by omega
        refine ⟨entry :: entries, final, ?_, inside⟩
        rw [readEntries_succ decoded]
        dsimp only
        rw [counted, Reader.bind_of_ok others]
        rfl

/-- The number of entries that a body announces. -/
def entriesSize (mem : Memory) : ℕ :=
  (UInt32.ofNat (decodeFixed32 (mem.read 60 4))).toInt32.toInt.toNat

theorem inside_iff {limit : ℕ} (bound : limit < 2 ^ 32) :
    Inside (fromString limit) mem limit ↔
      64 ≤ limit ∧ EntriesFit mem limit 64 (entriesSize mem) := by
  have left : (limit : ℤ) - 8 - 8 - 8 - 4 - 4 - 8 - 4 - 4 = limit - 48 := by omega
  have head : fromString limit mem Cursor.start = (readEntries (entriesSize mem) (limit - 48) >>=
      fun entries => pure ⟨stampAt mem 0, UInt32.ofNat (decodeFixed32 (mem.read 44 4)),
        UInt64.ofNat (decodeFixed64 (mem.read 48 8)), UInt32.ofNat (decodeFixed32 (mem.read 56 4)),
        entries⟩) mem (Cursor.start.advance 64) := by
    unfold fromString
    rw [Reader.bind_of_ok Stamp.fromBytes_run, Reader.bind_of_ok readFixed32_run,
      Reader.bind_of_ok readFixed64_run, Reader.bind_of_ok readFixed32_run,
      Reader.bind_of_ok readInt32_run, left]
    simp only [Cursor.advance_advance]
    rfl
  unfold Inside
  rw [head]
  constructor
  · rintro ⟨m, final, done, -, inside⟩
    obtain ⟨entries, moved, read, done⟩ := Reader.ok_of_bind done
    obtain rfl := (Prod.mk.inj (Except.ok.inj done)).2
    have grows := readEntries_reach read
    simp only [Cursor.start, Cursor.reach_advance] at grows
    have room : 64 ≤ limit := by omega
    refine ⟨room, ?_⟩
    exact (@readEntries_inside mem (Cursor.start.advance 64) _ _ _ room room
      (by simp only [Cursor.start, Cursor.pos_advance]; omega) (by omega)).mp
        ⟨entries, moved, read, by exact_mod_cast inside⟩
  · rintro ⟨room, fit⟩
    obtain ⟨entries, moved, read, inside⟩ := (@readEntries_inside
      mem (Cursor.start.advance 64) _ _ (limit - 48) room room
      (by simp only [Cursor.start, Cursor.pos_advance]; omega) (by omega)).mpr fit
    have pos := readEntries_pos read
    rw [Cursor.pos_advance] at pos
    exact ⟨_, moved, by rw [Reader.bind_of_ok read]; rfl, by omega, by exact_mod_cast inside⟩

end AppendEntries

theorem EntriesFit.congr {mem' : Memory} {limit pos count : ℕ}
    (same : ∀ offset, offset < limit → mem offset = mem' offset)
    (fit : EntriesFit mem limit pos count) : EntriesFit mem' limit pos count := by
  induction count generalizing pos with
  | zero => trivial
  | succ count ih =>
      obtain ⟨room, known, len, stop, prefixed, rest⟩ := fit
      have field : mem'.read (pos + 20) 4 = mem.read (pos + 20) 4 :=
        Memory.read_congr fun offset _ lt => (same offset (by omega)).symm
      refine ⟨room, by rwa [field], len, stop, ?_, ih rest⟩
      exact prefixed.congr fun offset _ lt => same offset lt

/-! ## Frames -/

theorem Body.inside_of {M : Type} {decoder : Decoder M} (wrap : M → Body) :
    Inside (Body.of wrap decoder) mem len ↔ Inside decoder mem len := by
  constructor
  · rintro ⟨body, final, done, counts, inside⟩
    obtain ⟨m, moved, decoded, done⟩ := Reader.ok_of_bind done
    obtain ⟨-, rfl⟩ := Prod.mk.inj (Except.ok.inj done)
    exact ⟨m, moved, decoded, counts, inside⟩
  · rintro ⟨m, final, done, counts, inside⟩
    exact ⟨wrap m, final, Reader.bind_of_ok done, counts, inside⟩

/-- A body is decoded as the message selected, if that has any bytes. -/
theorem Body.fromString_iff {type : ℤ} {body : Body} {final : Cursor} :
    fromString type len mem Cursor.start = .ok (body, final) ↔
      select type len mem Cursor.start = .ok (body, final) ∧ 0 < final.pos := by
  have rest {body : Body} {final : Cursor}
      (selected : select type len mem Cursor.start = .ok (body, final)) :
      fromString type len mem Cursor.start =
        if 0 < final.pos then .ok (body, final) else .error .messageBytes := by
    unfold fromString
    rw [Reader.bind_of_ok selected,
      Reader.bind_of_ok (show size mem final = .ok (final.pos, final) from rfl), check]
    split
    · rw [Reader.bind_of_ok Reader.pure_run]
      rfl
    · rfl
  constructor
  · intro done
    have whole := done
    unfold fromString at done
    obtain ⟨body', final', selected, -⟩ := Reader.ok_of_bind done
    rw [rest selected] at whole
    split at whole
    · rename_i counts
      obtain ⟨rfl, rfl⟩ := Prod.mk.inj (Except.ok.inj whole)
      exact ⟨selected, counts⟩
    · contradiction
  · rintro ⟨selected, counts⟩
    rw [rest selected, if_pos counts]

theorem Body.inside_fromString {type : ℤ} :
    Inside (fromString type len) mem len ↔ Inside (select type len) mem len := by
  constructor
  · rintro ⟨body, final, done, counts, inside⟩
    exact ⟨body, final, (fromString_iff.mp done).1, counts, inside⟩
  · rintro ⟨body, final, done, counts, inside⟩
    exact ⟨body, final, fromString_iff.mpr ⟨done, counts⟩, counts, inside⟩

/-- The decoder of a type stays inside a body exactly if the body fits. -/
theorem Body.inside_select {type : ℤ} {body : Bytes} (bound : body.length < 2 ^ 32)
    (same : ∀ offset, offset < body.length → mem offset = bodyMemory body offset) :
    Inside (select type body.length) mem body.length ↔ Fits type body := by
  unfold Fits select
  split
  · rw [inside_of, ClientRequest.inside_iff (by omega)]
    exact Int.ofNat_le
  · rw [inside_of, Ping.inside_iff (by omega)]
    exact Int.ofNat_le
  · rw [inside_of, Ping.inside_iff (by omega)]
    exact Int.ofNat_le
  · rw [inside_of, RequestVote.inside_iff]
    exact Int.ofNat_le
  · rw [inside_of, RequestVoteReply.inside_iff]
    exact Int.ofNat_le
  · rw [inside_of, AppendEntries.inside_iff bound]
    refine and_congr_right fun room => ?_
    have field : mem.read 60 4 = (body.drop 60).take 4 := by
      rw [← @Memory.read_follow _ (fun _ => 0) _ _ (by omega)]
      exact Memory.read_congr fun offset _ lt => same offset (by omega)
    have count : AppendEntries.entriesSize mem = (headerField (body.drop 60)).toNat := by
      rw [AppendEntries.entriesSize, headerField, field, decodeFixed32, decodeFixed32,
        List.take_take, Nat.min_self]
    rw [count]
    exact ⟨EntriesFit.congr same, EntriesFit.congr fun offset lt => (same offset lt).symm⟩
  · rw [inside_of, AppendEntriesReply.inside_iff]
    exact Int.ofNat_le
  · rw [inside_of, InstallSnapshot.inside_iff (by omega)]
    constructor
    · rintro ⟨room, other⟩
      refine ⟨by omega, fun count at_60 short end_ => ?_⟩
      have byte : mem 60 = count := by
        rw [same 60 (by omega), bodyMemory, Memory.follow, at_60]
        rfl
      exact other (by rwa [byte]) (by rw [byte]; omega)
    · rintro ⟨room, other⟩
      refine ⟨by omega, fun short end_ => ?_⟩
      have byte : body[60]? = some (mem 60) := by
        rw [same 60 (by omega), bodyMemory, Memory.follow_lt (by omega)]
        exact List.getElem?_eq_getElem (by omega)
      exact other _ byte short (by omega)
  · rw [inside_of, InstallSnapshotReply.inside_iff]
    exact Int.ofNat_le
  · rw [inside_of, TimeoutNow.inside_iff]
    exact Int.ofNat_le
  · constructor
    · rintro ⟨_, _, done, -⟩
      contradiction
    · intro fits
      simp_all only

namespace Connection

/-- The frame in front has a body of a non-negative size whose decoder reads nothing
behind it and fails no assert, and the buffer advances over exactly this frame. -/
def Contained (conn : Connection) (beyond : Memory) : Prop :=
  0 ≤ conn.bodyBytes ∧
    Inside (Body.fromString conn.type conn.bodyBytes)
      (Memory.follow (conn.buffer.drop headerBytes) beyond) conn.bodyBytes ∧
    ∃ body, conn.turn beyond = .ok
      ⟨conn.buffer.drop (headerBytes + conn.bodyBytes.toNat), conn.received ++ [body]⟩

theorem bodyBytes_lt (conn : Connection) : conn.bodyBytes < 2 ^ 31 :=
  Int32.toInt_lt _

theorem retrieve_ok {bytes rest : Bytes} {count : ℤ} (done : retrieve bytes count = .ok rest) :
    0 ≤ count ∧ count ≤ bytes.length ∧ rest = bytes.drop count.toNat := by
  unfold retrieve at done
  split_ifs at done with short negative
  exact ⟨not_lt.mp negative, not_lt.mp short, (Except.ok.inj done).symm⟩

theorem turn_ok {conn conn' : Connection} {beyond : Memory} (takes : conn.TakesFrame)
    (done : conn.turn beyond = .ok conn') :
    ∃ body final, Body.fromString conn.type conn.bodyBytes
        (Memory.follow (conn.buffer.drop headerBytes) beyond) Cursor.start = .ok (body, final) ∧
      0 ≤ conn.bodyBytes ∧ headerBytes + conn.bodyBytes ≤ conn.buffer.length ∧
      conn' = ⟨conn.buffer.drop (headerBytes + conn.bodyBytes.toNat), conn.received ++ [body]⟩ := by
  unfold turn at done
  rw [if_pos takes] at done
  obtain ⟨⟨body, final⟩, decoded, done⟩ := ok_of_bind_ok done
  obtain ⟨rest, retrieved, done⟩ := ok_of_bind_ok done
  obtain ⟨nonneg, inside, rfl⟩ := retrieve_ok retrieved
  have header := takes.1
  rw [List.length_drop] at inside
  refine ⟨body, final, decoded, nonneg, by omega, ?_⟩
  rw [← Except.ok.inj done, List.drop_drop]

theorem turn_of_ok {conn : Connection} {beyond : Memory} {body : Body} {final : Cursor}
    (takes : conn.TakesFrame) (decoded : Body.fromString conn.type conn.bodyBytes
      (Memory.follow (conn.buffer.drop headerBytes) beyond) Cursor.start = .ok (body, final))
    (nonneg : 0 ≤ conn.bodyBytes)
    (complete : headerBytes + conn.bodyBytes ≤ conn.buffer.length) :
    conn.turn beyond =
      .ok ⟨conn.buffer.drop (headerBytes + conn.bodyBytes.toNat), conn.received ++ [body]⟩ := by
  have retrieved : retrieve (conn.buffer.drop headerBytes) conn.bodyBytes =
      .ok (conn.buffer.drop (headerBytes + conn.bodyBytes.toNat)) := by
    unfold retrieve
    rw [if_neg (by rw [List.length_drop]; omega), if_neg (not_lt.mpr nonneg), List.drop_drop]
  unfold turn
  rw [if_pos takes]
  dsimp only
  rw [decoded, ok_bind]
  dsimp only
  rw [retrieved, ok_bind]

/-- A frame that is taken for complete is contained if and only if it is complete and its
body fits its type. -/
theorem contained_iff {conn : Connection} (takes : conn.TakesFrame) (beyond : Memory) :
    conn.Contained beyond ↔
      0 ≤ conn.bodyBytes ∧ headerBytes + conn.bodyBytes ≤ conn.buffer.length ∧
        Fits conn.type ((conn.buffer.drop headerBytes).take conn.bodyBytes.toNat) := by
  have short := conn.bodyBytes_lt
  have fits_iff (nonneg : 0 ≤ conn.bodyBytes)
      (complete : headerBytes + conn.bodyBytes ≤ conn.buffer.length) :
      Inside (Body.fromString conn.type conn.bodyBytes)
        (Memory.follow (conn.buffer.drop headerBytes) beyond) conn.bodyBytes ↔
      Fits conn.type ((conn.buffer.drop headerBytes).take conn.bodyBytes.toNat) := by
    have length : ((conn.buffer.drop headerBytes).take conn.bodyBytes.toNat).length =
        conn.bodyBytes.toNat := by
      rw [List.length_take, List.length_drop]
      omega
    have bytes : conn.bodyBytes =
        ((conn.buffer.drop headerBytes).take conn.bodyBytes.toNat).length := by
      rw [length]
      omega
    rw [Body.inside_fromString]
    have whole := @Body.inside_select
      (Memory.follow (conn.buffer.drop headerBytes) beyond) conn.type
      ((conn.buffer.drop headerBytes).take conn.bodyBytes.toNat) (by omega)
      fun offset lt => ?_
    · rwa [← bytes] at whole
    · have lt' : offset < (conn.buffer.drop headerBytes).length := by
        rw [length] at lt
        rw [List.length_drop]
        omega
      rw [bodyMemory, Memory.follow_lt lt', Memory.follow_lt lt, List.getElem_take]
  constructor
  · rintro ⟨nonneg, inside, body, turned⟩
    obtain ⟨_, _, -, -, complete, -⟩ := turn_ok takes turned
    exact ⟨nonneg, complete, (fits_iff nonneg complete).mp inside⟩
  · rintro ⟨nonneg, complete, fits⟩
    have inside := (fits_iff nonneg complete).mpr fits
    obtain ⟨body, final, decoded, -, -⟩ := inside
    exact ⟨nonneg, (fits_iff nonneg complete).mpr fits, body,
      turn_of_ok takes decoded nonneg complete⟩

/-- An empty request, all of whose bytes are there. -/
def requestFrame : Connection :=
  ⟨encodeFixed32 9 ++ (encodeFixed32 0 ++ List.replicate 9 0), []⟩

theorem contained_iff_request : requestFrame.Contained fun _ => 0 := by
  have type : requestFrame.type = 0 := by decide +kernel
  refine (contained_iff (by decide +kernel) _).mpr ⟨by decide +kernel, by decide +kernel, ?_⟩
  rw [type]
  show 8 ≤ _
  decide +kernel

/-- A `TimeoutNow` as it is sent: its body has 57 bytes. -/
def timeoutNowFrame : Connection :=
  ⟨encodeFixed32 57 ++ (encodeFixed32 10 ++ List.replicate 57 0), []⟩

/-- The decoder of its last field reads eight bytes where one is left. -/
theorem not_contained :
    ¬∀ (conn : Connection) (beyond : Memory), conn.TakesFrame → conn.Contained beyond := by
  intro all
  obtain ⟨-, inside, -⟩ := all timeoutNowFrame (fun _ => 0) (by decide +kernel)
  have type : timeoutNowFrame.type = 10 := by decide +kernel
  have bytes : timeoutNowFrame.bodyBytes = 57 := by decide +kernel
  rw [type, bytes, Body.inside_fromString] at inside
  have outside := TimeoutNow.inside_iff.mp ((Body.inside_of Body.timeoutNow).mp inside)
  exact absurd outside (by decide)

end Connection

end Vraft.Net
