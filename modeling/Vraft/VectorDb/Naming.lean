import Vraft.Util.Coding
import Mathlib.Data.List.TakeWhile
import Mathlib.Tactic.Linarith

/-!
# Names of tables, partitions and replicas

The names that `vectordb/metadata.cc` composes with `snprintf` and takes apart with
`Split` and `atoi`.  The number of a partition stands behind the name of its table and
the number of a replica behind the name of its partition, after a `#` each.  A name
is a C string in a buffer of 256 bytes on the way.
-/

namespace Vraft.VectorDb

/-- `#`. -/
def separator : UInt8 := 35

/-- `std::string(s.c_str())`: up to the first NUL. -/
def cStr (s : Bytes) : Bytes :=
  s.takeWhile (· ≠ 0)

/-! ## Decimal numbers -/

/-- The decimal digits of a number. -/
def digits (n : ℕ) : Bytes :=
  (Nat.toDigits 10 n).map Char.toUInt8

/-- `%d`. -/
def decimal (i : Int32) : Bytes :=
  if i.toInt < 0 then 45 :: digits i.toInt.natAbs else digits i.toInt.natAbs

/-- White space, as C has it. -/
def isSpace (ch : UInt8) : Bool := ch = 32 || (9 ≤ ch && ch ≤ 13)

/-- A decimal digit. -/
def isDigit (ch : UInt8) : Bool := 48 ≤ ch && ch ≤ 57

/-- The number of the digits that a text begins with. -/
def digitsValue (text : Bytes) : ℕ :=
  (text.takeWhile isDigit).foldl (fun value ch => 10 * value + (ch.toNat - 48)) 0

/-- The `long` that is nearest to a number. -/
def toLong (value : ℤ) : ℤ :=
  max (-2 ^ 63) (min (2 ^ 63 - 1) value)

/-- White space, a sign, and the digits there are, read as a `long` and then taken as an
`int`. -/
def atoi (text : Bytes) : Int32 :=
  match (cStr text).dropWhile isSpace with
  | 45 :: rest => Int32.ofInt (toLong (-digitsValue rest))
  | 43 :: rest => Int32.ofInt (toLong (digitsValue rest))
  | rest => Int32.ofInt (toLong (digitsValue rest))

/-! ## Composing names -/

/-- `"%s#%d"` in a `char buf[256]`. -/
def numberedName (base : Bytes) (id : Int32) : Bytes :=
  (cStr base ++ separator :: decimal id).take 255

/-- `PartitionName`. -/
def partitionName (tableName : Bytes) (partitionId : Int32) : Bytes :=
  numberedName tableName partitionId

/-- `ReplicaName`. -/
def replicaName (partitionName : Bytes) (replicaId : Int32) : Bytes :=
  numberedName partitionName replicaId

/-! ## Taking names apart -/

/-- The pieces of a string that has been read up to `temp`; empty ones are dropped. -/
def splitFrom (separator : UInt8) : Bytes → Bytes → List Bytes
  | temp, [] => if temp = [] then [] else [temp]
  | temp, ch :: rest =>
      if ch = separator then
        if temp = [] then splitFrom separator [] rest
        else temp :: splitFrom separator [] rest
      else splitFrom separator (temp ++ [ch]) rest

/-- `Split`. -/
def split (str : Bytes) (separator : UInt8) : List Bytes :=
  splitFrom separator [] str

/-- The name of the table and the number, unless the assert fails. -/
def parsePartitionName (name : Bytes) : Option (Bytes × Int32) :=
  match split name separator with
  | [tableName, partitionId] => some (tableName, atoi partitionId)
  | _ => none

/-- The name of the table and both numbers, unless the assert fails. -/
def parseReplicaName (name : Bytes) : Option (Bytes × Int32 × Int32) :=
  match split name separator with
  | [tableName, partitionId, replicaId] => some (tableName, atoi partitionId, atoi replicaId)
  | _ => none

/-! ## Numbers are read back -/

theorem toNat_digit {c : Char} (digit : c.isDigit) :
    c.toUInt8.toNat = c.toNat ∧ 48 ≤ c.toNat ∧ c.toNat ≤ 57 := by
  simp only [Char.isDigit, Bool.and_eq_true, decide_eq_true_eq, ge_iff_le,
    UInt32.le_iff_toNat_le] at digit
  have low : 48 ≤ c.toNat := digit.1
  have high : c.toNat ≤ 57 := digit.2
  have byte : c.toUInt8.toNat = c.toNat % 256 := rfl
  exact ⟨by omega, low, high⟩

theorem isDigit_iff {ch : UInt8} : isDigit ch ↔ 48 ≤ ch.toNat ∧ ch.toNat ≤ 57 := by
  simp only [isDigit, Bool.and_eq_true, decide_eq_true_eq, UInt8.le_iff_toNat_le]
  rfl

theorem isDigit_of_mem_digits {n : ℕ} {ch : UInt8} (mem : ch ∈ digits n) : isDigit ch := by
  obtain ⟨c, inside, rfl⟩ := List.mem_map.mp mem
  obtain ⟨byte, low, high⟩ :=
    toNat_digit (Nat.isDigit_of_mem_toDigits (by decide) (by decide) inside)
  exact isDigit_iff.mpr (by omega)

theorem digits_ne_nil (n : ℕ) : digits n ≠ [] := by
  simp [digits, Nat.toDigits_ne_nil]

theorem takeWhile_of_forall {p : UInt8 → Bool} {text : Bytes} (all : ∀ ch ∈ text, p ch) :
    text.takeWhile p = text := by
  simpa using @List.takeWhile_append_of_pos _ p text [] all

theorem digitsValue_digits (n : ℕ) : digitsValue (digits n) = n := by
  have same (chars : List Char) (all : ∀ c ∈ chars, c.isDigit) (value : ℕ) :
      (chars.map Char.toUInt8).foldl (fun value ch => 10 * value + (ch.toNat - 48)) value =
        Nat.ofDigitChars 10 chars value := by
    induction chars generalizing value with
    | nil => simp
    | cons c chars ih =>
        rw [List.forall_mem_cons] at all
        rw [List.map_cons, List.foldl_cons, Nat.ofDigitChars_cons, ih all.2, (toNat_digit all.1).1]
        rfl
  rw [digitsValue, takeWhile_of_forall fun ch mem => isDigit_of_mem_digits mem, digits,
    same _ fun c mem => Nat.isDigit_of_mem_toDigits (by decide) (by decide) mem,
    Nat.ofDigitChars_ten_toDigits]

/-- The characters of a number are neither NUL nor a separator. -/
theorem ne_of_mem_decimal {i : Int32} {ch : UInt8} (mem : ch ∈ decimal i) :
    ch ≠ 0 ∧ ch ≠ separator := by
  have of_digit : isDigit ch → ch ≠ 0 ∧ ch ≠ separator := by
    intro digit
    rw [isDigit_iff] at digit
    constructor <;> rintro rfl <;> revert digit <;> decide
  unfold decimal at mem
  split at mem
  · rcases List.mem_cons.mp mem with rfl | mem
    · decide
    · exact of_digit (isDigit_of_mem_digits mem)
  · exact of_digit (isDigit_of_mem_digits mem)

theorem cStr_eq_self {text : Bytes} (noNul : ∀ ch ∈ text, ch ≠ 0) : cStr text = text :=
  takeWhile_of_forall fun ch mem => decide_eq_true (noNul ch mem)

theorem toLong_eq_self {value : ℤ} (low : -2 ^ 63 ≤ value) (high : value < 2 ^ 63) :
    toLong value = value := by
  rw [toLong, min_eq_right (by omega), max_eq_right low]

theorem atoi_of_digits {text : Bytes} (ne : text ≠ []) (all : ∀ ch ∈ text, isDigit ch)
    (small : digitsValue text < 2 ^ 63) : atoi text = Int32.ofInt (digitsValue text) := by
  have noNul : cStr text = text := by
    refine cStr_eq_self fun ch mem zero => ?_
    have digit := all ch mem
    rw [zero] at digit
    exact absurd digit (by decide)
  obtain ⟨ch, rest, rfl⟩ := List.exists_cons_of_ne_nil ne
  have digit : isDigit ch := all ch List.mem_cons_self
  have visible : ¬isSpace ch = true := by
    intro space
    simp only [isSpace, Bool.or_eq_true, Bool.and_eq_true, decide_eq_true_eq,
      UInt8.le_iff_toNat_le] at space
    rw [isDigit_iff] at digit
    rcases space with rfl | space
    · revert digit
      decide
    · have : ch.toNat ≤ 13 := space.2
      omega
  rw [atoi, noNul, List.dropWhile_cons_of_neg visible]
  split
  · rename_i same
    rw [(List.cons.inj same).1] at digit
    exact absurd digit (by decide)
  · rename_i same
    rw [(List.cons.inj same).1] at digit
    exact absurd digit (by decide)
  · rw [toLong_eq_self (by omega) (by omega)]

theorem atoi_decimal (i : Int32) : atoi (decimal i) = i := by
  have low := i.le_toInt
  have high := i.toInt_lt
  by_cases negative : i.toInt < 0
  · have text : cStr (decimal i) = decimal i :=
      cStr_eq_self fun ch mem => (ne_of_mem_decimal mem).1
    have written : decimal i = 45 :: digits i.toInt.natAbs := if_pos negative
    rw [atoi, text, written, List.dropWhile_cons_of_neg (by decide)]
    show Int32.ofInt (toLong (-digitsValue (digits i.toInt.natAbs))) = i
    rw [digitsValue_digits, ← Int.eq_neg_natAbs_of_nonpos (le_of_lt negative),
      toLong_eq_self (by omega) (by omega), Int32.ofInt_toInt]
  · have written : decimal i = digits i.toInt.natAbs := if_neg negative
    have small : digitsValue (digits i.toInt.natAbs) < 2 ^ 63 := by
      rw [digitsValue_digits]
      omega
    rw [written, atoi_of_digits (digits_ne_nil _) (fun ch mem => isDigit_of_mem_digits mem) small,
      digitsValue_digits, Int.natAbs_of_nonneg (not_lt.mp negative), Int32.ofInt_toInt]

/-- A digit more is a larger number. -/
theorem le_digitsValue_append {front back : Bytes} (all : ∀ ch ∈ front ++ back, isDigit ch)
    (ne : back ≠ []) : 10 * digitsValue front ≤ digitsValue (front ++ back) := by
  have grows (text : Bytes) (value : ℕ) :
      value ≤ text.foldl (fun value ch => 10 * value + (ch.toNat - 48)) value := by
    induction text generalizing value with
    | nil => exact le_rfl
    | cons ch text ih =>
        have := ih (10 * value + (ch.toNat - 48))
        rw [List.foldl_cons]
        omega
  rw [digitsValue, digitsValue, takeWhile_of_forall all,
    takeWhile_of_forall fun ch mem => all ch (List.mem_append_left _ mem), List.foldl_append]
  generalize front.foldl (fun value ch => 10 * value + (ch.toNat - 48)) 0 = value
  obtain ⟨ch, back, rfl⟩ := List.exists_cons_of_ne_nil ne
  have := grows back (10 * value + (ch.toNat - 48))
  rw [List.foldl_cons]
  omega

/-- A number of which digits are missing is another one. -/
theorem atoi_take_decimal {i : Int32} (nonneg : 0 ≤ i.toInt) {count : ℕ}
    (ne : (decimal i).take count ≠ []) :
    atoi ((decimal i).take count) = i ↔ (decimal i).length ≤ count := by
  constructor
  · intro same
    by_contra fewer
    have written : decimal i = digits i.toInt.natAbs := if_neg (not_lt.mpr nonneg)
    have all : ∀ ch ∈ decimal i, isDigit ch := by
      rw [written]
      exact fun ch mem => isDigit_of_mem_digits mem
    have whole : digitsValue (decimal i) = i.toInt.natAbs := by rw [written, digitsValue_digits]
    rw [← List.take_append_drop count (decimal i)] at all
    have larger := le_digitsValue_append all
      (by rw [Ne, List.drop_eq_nil_iff]; exact fewer)
    rw [List.take_append_drop, whole] at larger
    have digit : ∀ ch ∈ (decimal i).take count, isDigit ch := fun ch mem =>
      all ch (List.mem_append_left _ mem)
    have bound := i.toInt_lt
    rw [atoi_of_digits ne digit (by omega)] at same
    have value := congrArg Int32.toInt same
    rw [Int32.toInt_ofInt, Int.bmod_eq_of_le (by omega) (by norm_num [Int32.size]; omega)] at value
    have zero : i = 0 := by
      rw [← Int32.toInt_inj]
      show i.toInt = 0
      omega
    rw [zero] at ne fewer
    have single : (decimal 0).length = 1 := by decide +kernel
    have : count = 0 := by omega
    exact ne (by rw [this, List.take_zero])
  · intro enough
    rw [List.take_of_length_le enough, atoi_decimal]

/-! ## Names are taken apart as they were composed -/

theorem decimal_ne_nil (i : Int32) : decimal i ≠ [] := by
  unfold decimal
  split
  · exact List.cons_ne_nil _ _
  · exact digits_ne_nil _

theorem splitFrom_append {sep : UInt8} {piece : Bytes} (plain : ∀ ch ∈ piece, ch ≠ sep)
    (temp rest : Bytes) : splitFrom sep temp (piece ++ rest) = splitFrom sep (temp ++ piece) rest := by
  induction piece generalizing temp with
  | nil => simp
  | cons ch piece ih =>
      rw [List.forall_mem_cons] at plain
      rw [List.cons_append, splitFrom, if_neg plain.1, ih plain.2, List.append_assoc]
      rfl

/-- A piece up to a separator. -/
theorem split_cons {sep : UInt8} {piece : Bytes} (plain : ∀ ch ∈ piece, ch ≠ sep)
    (ne : piece ≠ []) (rest : Bytes) : split (piece ++ sep :: rest) sep = piece :: split rest sep := by
  rw [split, splitFrom_append plain, List.nil_append, splitFrom, if_pos rfl, if_neg ne]
  rfl

theorem split_last {sep : UInt8} {piece : Bytes} (plain : ∀ ch ∈ piece, ch ≠ sep)
    (ne : piece ≠ []) : split piece sep = [piece] := by
  have whole := splitFrom_append plain [] []
  rw [List.append_nil, List.nil_append] at whole
  rw [split, whole, splitFrom, if_neg ne]

/-- A name that can be told from the numbers behind it. -/
structure Plain (name : Bytes) : Prop where
  ne : name ≠ []
  noNul : ∀ ch ∈ name, ch ≠ 0
  noSeparator : ∀ ch ∈ name, ch ≠ separator

theorem plain_iff (name : Bytes) :
    (!name.isEmpty && name.all fun ch => ch != 0 && ch != separator) = true ↔ Plain name := by
  simp only [Bool.and_eq_true, Bool.not_eq_true', List.isEmpty_eq_false_iff, List.all_eq_true,
    bne_iff_ne]
  exact ⟨fun ⟨ne, each⟩ => ⟨ne, fun ch mem => (each ch mem).1, fun ch mem => (each ch mem).2⟩,
    fun plain => ⟨plain.ne, fun ch mem => ⟨plain.noNul ch mem, plain.noSeparator ch mem⟩⟩⟩

instance (name : Bytes) : Decidable (Plain name) :=
  decidable_of_iff _ (plain_iff name)

/-! ## The buffer -/

theorem numberedName_of_fits {base : Bytes} {id : Int32}
    (fits : (cStr base).length + 1 + (decimal id).length ≤ 255) :
    numberedName base id = cStr base ++ separator :: decimal id := by
  rw [numberedName, List.take_of_length_le]
  rw [List.length_append, List.length_cons]
  omega

/-- A name that does not fill the buffer is there as a whole. -/
theorem fits_of_short {base : Bytes} {id : Int32} (short : (numberedName base id).length < 255) :
    (cStr base).length + 1 + (decimal id).length ≤ 255 := by
  rw [numberedName, List.length_take, List.length_append, List.length_cons] at short
  omega

theorem numberedName_inj {base : Bytes} {i j : Int32} (short : (numberedName base i).length < 255)
    (same : numberedName base i = numberedName base j) : i = j := by
  have short' : (numberedName base j).length < 255 := same ▸ short
  rw [numberedName_of_fits (fits_of_short short), numberedName_of_fits (fits_of_short short')] at same
  have digits := (List.cons.inj (List.append_cancel_left same)).2
  rw [← atoi_decimal i, digits, atoi_decimal]

theorem noNul_numbered {base : Bytes} {id : Int32} (noNul : ∀ ch ∈ base, ch ≠ 0) :
    ∀ ch ∈ base ++ separator :: decimal id, ch ≠ 0 := by
  intro ch mem
  rcases List.mem_append.mp mem with inside | number
  · exact noNul ch inside
  · rcases List.mem_cons.mp number with rfl | digit
    · decide
    · exact (ne_of_mem_decimal digit).1

theorem numberedName_of_noNul {base : Bytes} {id : Int32} (noNul : ∀ ch ∈ base, ch ≠ 0)
    (fits : base.length + 1 + (decimal id).length ≤ 255) :
    numberedName base id = base ++ separator :: decimal id := by
  have text := cStr_eq_self noNul
  rw [numberedName_of_fits (by rw [text]; exact fits), text]

/-- What the buffer holds of a name. -/
theorem numberedName_cut {base : Bytes} {id : Int32} (noNul : ∀ ch ∈ base, ch ≠ 0) :
    numberedName base id =
      if base.length < 255 then base ++ separator :: (decimal id).take (254 - base.length)
      else base.take 255 := by
  rw [numberedName, cStr_eq_self noNul, List.take_append]
  split
  · rename_i lt
    rw [List.take_of_length_le (by omega), show 255 - base.length = 254 - base.length + 1 by omega,
      List.take_succ_cons]
  · rw [show 255 - base.length = 0 by omega, List.take_zero, List.append_nil]

/-! ## Names are taken apart again -/

/-- The pieces are not empty, and have no separator in them. -/
theorem of_mem_split {sep : UInt8} {text piece : Bytes} (mem : piece ∈ split text sep) :
    piece ≠ [] ∧ ∀ ch ∈ piece, ch ≠ sep ∧ ch ∈ text := by
  have all (temp rest : Bytes) (plain : ∀ ch ∈ temp, ch ≠ sep ∧ ch ∈ text)
      (inside : ∀ ch ∈ rest, ch ∈ text) (mem : piece ∈ splitFrom sep temp rest) :
      piece ≠ [] ∧ ∀ ch ∈ piece, ch ≠ sep ∧ ch ∈ text := by
    induction rest generalizing temp with
    | nil =>
        unfold splitFrom at mem
        split at mem
        · contradiction
        · rename_i ne
          obtain rfl := List.mem_singleton.mp mem
          exact ⟨ne, plain⟩
    | cons ch rest ih =>
        rw [List.forall_mem_cons] at inside
        have nothing : ∀ ch ∈ ([] : Bytes), ch ≠ sep ∧ ch ∈ text := by simp
        unfold splitFrom at mem
        split at mem
        · split at mem
          · exact ih [] nothing inside.2 mem
          · rename_i ne
            rcases List.mem_cons.mp mem with rfl | later
            · exact ⟨ne, plain⟩
            · exact ih [] nothing inside.2 later
        · rename_i other
          refine ih (temp ++ [ch]) (fun c within => ?_) inside.2 mem
          rcases List.mem_append.mp within with earlier | last
          · exact plain c earlier
          · obtain rfl := List.mem_singleton.mp last
            exact ⟨other, inside.1⟩
  exact all [] text (by simp) (fun _ inside => inside) mem

theorem split_of_plain {sep : UInt8} {text : Bytes} (plain : ∀ ch ∈ text, ch ≠ sep) :
    split text sep = if text = [] then [] else [text] := by
  split
  · rename_i empty
    rw [empty]
    rfl
  · rename_i ne
    exact split_last plain ne

theorem ne_of_mem_take_decimal {i : Int32} {count : ℕ} :
    ∀ ch ∈ (decimal i).take count, ch ≠ separator := fun _ mem =>
  (ne_of_mem_decimal (List.mem_of_mem_take mem)).2

theorem noNul_numberedName {base : Bytes} {id : Int32} : ∀ ch ∈ numberedName base id, ch ≠ 0 := by
  intro ch mem
  refine @noNul_numbered (cStr base) id (fun c inside => ?_) ch (List.mem_of_mem_take mem)
  simpa using List.mem_takeWhile_imp inside

/-- The name of a partition is taken apart into that of the table and the number if and
only if that is possible and there is room for both. -/
theorem parsePartitionName_eq_iff {name : Bytes} {i : Int32} (nonneg : 0 ≤ i.toInt) :
    parsePartitionName (partitionName name i) = some (name, i) ↔
      Plain name ∧ name.length + 1 + (decimal i).length ≤ 255 := by
  constructor
  · intro parsed
    unfold parsePartitionName at parsed
    split at parsed
    · rename_i tableName number pieces
      obtain ⟨rfl, value⟩ := Prod.mk.inj (Option.some.inj parsed)
      have piece := of_mem_split (pieces ▸ List.mem_cons_self)
      have plain : Plain tableName := ⟨piece.1, fun ch mem =>
        noNul_numberedName ch (piece.2 ch mem).2, fun ch mem => (piece.2 ch mem).1⟩
      refine ⟨plain, ?_⟩
      rw [partitionName, numberedName_cut plain.noNul] at pieces
      split at pieces
      · rw [split_cons plain.noSeparator plain.ne, split_of_plain ne_of_mem_take_decimal] at pieces
        split at pieces
        · simp at pieces
        · rename_i lt ne
          have same : (decimal i).take (254 - tableName.length) = number := by simpa using pieces
          rw [← same, atoi_take_decimal nonneg ne] at value
          omega
      · rw [split_of_plain fun ch mem => plain.noSeparator ch (List.mem_of_mem_take mem)] at pieces
        split at pieces <;> simp at pieces
    · contradiction
  · rintro ⟨plain, fits⟩
    rw [parsePartitionName, partitionName, numberedName_of_noNul plain.noNul fits,
      split_cons plain.noSeparator plain.ne,
      split_last (fun ch mem => (ne_of_mem_decimal mem).2) (decimal_ne_nil i)]
    dsimp only
    rw [atoi_decimal]

/-- The pieces of the name of a replica, where those of its partition are found. -/
theorem parseReplicaName_eq {name : Bytes} {i r : Int32} (plain : Plain name)
    (fits : name.length + 1 + (decimal i).length ≤ 255) :
    parseReplicaName (replicaName (partitionName name i) r) =
      let count := 253 - (name.length + (decimal i).length)
      if count = 0 then none else some (name, i, atoi ((decimal r).take count)) := by
  have base : partitionName name i = name ++ separator :: decimal i :=
    numberedName_of_noNul plain.noNul fits
  have noNul : ∀ ch ∈ name ++ separator :: decimal i, ch ≠ 0 := noNul_numbered plain.noNul
  have number : ∀ ch ∈ decimal i, ch ≠ separator := fun ch mem => (ne_of_mem_decimal mem).2
  have length : (name ++ separator :: decimal i).length = name.length + 1 + (decimal i).length := by
    rw [List.length_append, List.length_cons]
    omega
  have positive := List.length_pos_iff.mpr (decimal_ne_nil r)
  rw [base, parseReplicaName, replicaName, numberedName_cut noNul, length]
  dsimp only
  split_ifs with lt full full
  · rw [List.append_assoc, List.cons_append, split_cons plain.noSeparator plain.ne,
      split_cons number (decimal_ne_nil i), show 254 - (name.length + 1 + (decimal i).length) = 0 by
        omega, List.take_zero]
    rfl
  · rw [List.append_assoc, List.cons_append, split_cons plain.noSeparator plain.ne,
      split_cons number (decimal_ne_nil i), split_of_plain ne_of_mem_take_decimal, if_neg]
    · dsimp only
      rw [atoi_decimal,
        show 254 - (name.length + 1 + (decimal i).length) =
          253 - (name.length + (decimal i).length) by omega]
    · intro empty
      have gone := congrArg List.length empty
      rw [List.length_take, List.length_nil] at gone
      omega
  · rw [List.take_of_length_le (by omega), split_cons plain.noSeparator plain.ne,
      split_last number (decimal_ne_nil i)]
  · omega

theorem parseReplicaName_eq_iff {name : Bytes} {i r : Int32} (plain : Plain name)
    (fits : name.length + 1 + (decimal i).length ≤ 255) (nonneg : 0 ≤ r.toInt) :
    parseReplicaName (replicaName (partitionName name i) r) = some (name, i, r) ↔
      name.length + 1 + (decimal i).length + 1 + (decimal r).length ≤ 255 := by
  have positive := List.length_pos_iff.mpr (decimal_ne_nil r)
  rw [parseReplicaName_eq plain fits]
  dsimp only
  split_ifs with full
  · simp only [false_iff]
    omega
  · have ne : (decimal r).take (253 - (name.length + (decimal i).length)) ≠ [] := by
      intro empty
      have gone := congrArg List.length empty
      rw [List.length_take, List.length_nil] at gone
      omega
    rw [Option.some.injEq, Prod.mk.injEq, Prod.mk.injEq, atoi_take_decimal nonneg ne]
    simp only [true_and]
    omega

/-- A separator in the name of a table is taken for that of its number. -/
example : parsePartitionName (partitionName [97, 35, 98] 0) = none := by decide +kernel

end Vraft.VectorDb
