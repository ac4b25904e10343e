import Vraft.Lib.Failing
import Mathlib.Data.List.Basic

/-!
# Decoding through a pointer

A decoder that is handed a bare pointer reads wherever the pointer is, whether or
not these bytes belong to it.  Memory has a byte at every offset; a cursor notes
where the pointer is and how far has been read.
-/

universe u v w

namespace Raw

/-- The byte at every offset. -/
abbrev Memory := ℕ → UInt8

namespace Memory

/-- The bytes from a position on. -/
def read (mem : Memory) (pos : ℕ) : ℕ → List UInt8
  | 0 => []
  | count + 1 => mem pos :: mem.read (pos + 1) count

/-- Some bytes, and behind them whatever follows. -/
def follow (bytes : List UInt8) (beyond : Memory) : Memory :=
  fun offset => (bytes[offset]?).getD (beyond (offset - bytes.length))

/-- The bytes stand at the offset. -/
def Holds (mem : Memory) (pos : ℕ) (bytes : List UInt8) : Prop :=
  mem.read pos bytes.length = bytes

variable {mem : Memory} {pos : ℕ}

@[simp]
theorem length_read (count : ℕ) : (mem.read pos count).length = count := by
  induction count generalizing pos with
  | zero => rfl
  | succ count ih => simp [read, ih]

theorem read_add (first second : ℕ) :
    mem.read pos (first + second) = mem.read pos first ++ mem.read (pos + first) second := by
  induction first generalizing pos with
  | zero => simp [read]
  | succ first ih =>
      rw [Nat.succ_add, read, read, ih, List.cons_append, Nat.add_assoc, Nat.add_comm 1 first]

theorem holds_append {first second : List UInt8} :
    mem.Holds pos (first ++ second) ↔
      mem.Holds pos first ∧ mem.Holds (pos + first.length) second := by
  rw [Holds, List.length_append, read_add]
  constructor
  · intro whole
    exact List.append_inj whole (length_read _)
  · rintro ⟨front, back⟩
    rw [front, back]

theorem holds_cons {byte : UInt8} {rest : List UInt8} :
    mem.Holds pos (byte :: rest) ↔ mem pos = byte ∧ mem.Holds (pos + 1) rest := by
  simp [Holds, read]

theorem follow_append (first second : List UInt8) (beyond : Memory) :
    follow (first ++ second) beyond = follow first (follow second beyond) := by
  funext offset
  by_cases inside : offset < first.length
  · simp [follow, List.getElem?_append_left inside, List.getElem?_eq_getElem inside]
  · rw [Nat.not_lt] at inside
    simp [follow, List.getElem?_append_right inside, List.getElem?_eq_none inside,
      Nat.sub_sub]

theorem follow_holds (bytes : List UInt8) (beyond : Memory) : (follow bytes beyond).Holds 0 bytes := by
  have from_ (front back : List UInt8) :
      (follow (front ++ back) beyond).Holds front.length back := by
    induction back generalizing front with
    | nil => rfl
    | cons byte rest ih =>
        rw [holds_cons]
        refine ⟨by simp [follow], ?_⟩
        simpa using ih (front ++ [byte])
  exact from_ [] bytes

theorem read_congr {mem mem' : Memory} {pos count : ℕ}
    (same : ∀ offset, pos ≤ offset → offset < pos + count → mem offset = mem' offset) :
    mem.read pos count = mem'.read pos count := by
  induction count generalizing pos with
  | zero => rfl
  | succ count ih =>
      rw [read, read, same pos (Nat.le_refl pos) (by omega),
        ih fun offset le lt => same offset (by omega) (by omega)]

theorem follow_lt {bytes : List UInt8} {beyond : Memory} {offset : ℕ} (inside : offset < bytes.length) :
    follow bytes beyond offset = bytes[offset] := by
  simp [follow, List.getElem?_eq_getElem inside]

theorem read_follow {bytes : List UInt8} {beyond : Memory} {pos count : ℕ}
    (inside : pos + count ≤ bytes.length) :
    (follow bytes beyond).read pos count = (bytes.drop pos).take count := by
  induction count generalizing pos with
  | zero => rfl
  | succ count ih =>
      rw [read, follow_lt (by omega), ih (by omega), List.drop_eq_getElem_cons (i := pos) (by omega),
        List.take_succ_cons]

end Memory

/-! ## Cursors and readers -/

/-- Where the pointer is, and the end of what has been read. -/
structure Cursor where
  pos : ℕ
  reach : ℕ
  deriving DecidableEq, Repr

namespace Cursor

/-- At the first byte, with nothing looked at. -/
def start : Cursor := ⟨0, 0⟩

/-- Read some bytes and step over them. -/
def advance (cursor : Cursor) (count : ℕ) : Cursor :=
  ⟨cursor.pos + count, max cursor.reach (cursor.pos + count)⟩

@[simp]
theorem advance_advance (cursor : Cursor) (first second : ℕ) :
    (cursor.advance first).advance second = cursor.advance (first + second) := by
  simp only [advance, Cursor.mk.injEq]
  omega

@[simp]
theorem pos_advance (cursor : Cursor) (count : ℕ) :
    (cursor.advance count).pos = cursor.pos + count :=
  rfl

@[simp]
theorem reach_advance (cursor : Cursor) (count : ℕ) :
    (cursor.advance count).reach = max cursor.reach (cursor.pos + count) :=
  rfl

end Cursor

/-- A piece of a decoder. -/
def Reader (ε : Type u) (α : Type) :=
  Memory → Cursor → Except ε (α × Cursor)

namespace Reader

variable {ε : Type u} {α β : Type}

instance : Monad (Reader ε) where
  pure value := fun _ cursor => .ok (value, cursor)
  bind reader next := fun mem cursor =>
    match reader mem cursor with
    | .ok (value, moved) => next value mem moved
    | .error failure => .error failure

/-- A failure that reads nothing. -/
def fail (failure : ε) : Reader ε α :=
  fun _ _ => .error failure

/-- The given number of bytes. -/
def take (count : ℕ) : Reader ε (List UInt8) :=
  fun mem cursor => .ok (mem.read cursor.pos count, cursor.advance count)

variable {mem : Memory} {cursor moved : Cursor} {value : α}

theorem pure_run : (pure value : Reader ε α) mem cursor = .ok (value, cursor) :=
  rfl

theorem bind_of_ok {reader : Reader ε α} {next : α → Reader ε β}
    (done : reader mem cursor = .ok (value, moved)) :
    (reader >>= next) mem cursor = next value mem moved := by
  show (match reader mem cursor with
    | .ok (value, moved) => next value mem moved
    | .error failure => .error failure) = _
  rw [done]

theorem ok_of_bind {reader : Reader ε α} {next : α → Reader ε β} {result : β} {final : Cursor}
    (done : (reader >>= next) mem cursor = .ok (result, final)) :
    ∃ value moved, reader mem cursor = .ok (value, moved) ∧
      next value mem moved = .ok (result, final) := by
  cases first : reader mem cursor with
  | ok pair => exact ⟨pair.1, pair.2, rfl, by rwa [bind_of_ok first] at done⟩
  | error failure =>
      simp only [Bind.bind, first] at done
      contradiction

end Reader

end Raw
