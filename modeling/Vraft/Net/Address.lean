import Vraft.Net.FixedLayout
import Vraft.VectorDb.Naming

/-!
# Addresses as text

`RaftAddr::FromString` and `RaftAddr::ToString` of `raft/raft_addr.h`.  A request to
transfer the leadership has the text of an address in it, as it came from the network.
`FromString` asserts that there are two pieces around `#` and takes for granted that there
are two around `:`.
-/

namespace Vraft.Net

open VectorDb

/-! ## Text -/

/-- What stops the parsing of an address. -/
inductive AddrFault
  /-- `assert(result.size() == 2)`. -/
  | pieces
  /-- `ipport[1]` without such a piece. -/
  | port
  deriving DecidableEq, Repr

/-- `:`. -/
def colon : UInt8 := 58

/-- `.`. -/
def dot : UInt8 := 46

/-- The digits there are, unless there is none. -/
def scanDigits (text : Bytes) : Option ℕ :=
  if text.head?.any isDigit then some (digitsValue text) else none

/-- What `sscanf` matches with `%hd` and `%hu`. -/
def scanDecimal (text : Bytes) : Option ℤ :=
  match (cStr text).dropWhile isSpace with
  | 45 :: rest => (scanDigits rest).map fun value : ℕ => -(value : ℤ)
  | 43 :: rest => (scanDigits rest).map Nat.cast
  | rest => (scanDigits rest).map Nat.cast

/-- `%hd`: the `long` that is read, at most its largest value, is cut to 16 bits. -/
def scanInt16 (text : Bytes) (old : Int16) : Int16 :=
  match scanDecimal text with
  | none => old
  | some value => Int16.ofInt (max (-2 ^ 63) (min value (2 ^ 63 - 1)))

/-- `%hu`, likewise of an `unsigned long`. -/
def scanUInt16 (text : Bytes) (old : UInt16) : UInt16 :=
  match scanDecimal text with
  | none => old
  | some value => UInt16.ofInt (if 2 ^ 64 ≤ value.natAbs then 2 ^ 64 - 1 else value)

/-- `IpU32ToIpString`. -/
def ipString (ip : UInt32) : Bytes :=
  digits (ip.toNat / 2 ^ 24) ++ dot :: digits (ip.toNat / 2 ^ 16 % 2 ^ 8) ++
    dot :: digits (ip.toNat / 2 ^ 8 % 2 ^ 8) ++ dot :: digits (ip.toNat % 2 ^ 8)

namespace RaftAddr

variable (resolver : Bytes → Option UInt32)

/-- What is returned, and what has become of the address.  `resolver` is
`HostNameToIpU32`. -/
def fromString (addr : RaftAddr) (s : Bytes) : Except AddrFault (Bool × RaftAddr) :=
  match split s separator with
  | [address, id] =>
      match split address colon with
      | host :: port :: _ =>
          match resolver (cStr host) with
          | some ip => .ok (true, ⟨ip, scanUInt16 port addr.port, scanInt16 id addr.id⟩)
          | none => .ok (false, ⟨addr.ip, scanUInt16 port addr.port, scanInt16 id addr.id⟩)
      | _ => .error .port
  | _ => .error .pieces

/-- `"%s:%d#%d"` in a `char buf[128]`. -/
def toString (addr : RaftAddr) : Bytes :=
  (ipString addr.ip ++ colon :: digits addr.port.toNat ++
    separator :: decimal addr.id.toInt32).take 127

/-! ## The form of an address -/

/-- `host:port#id`. -/
structure IsForm (s host port id : Bytes) : Prop where
  eq : s = host ++ colon :: port ++ separator :: id
  host_ne : host ≠ []
  host_plain : ∀ ch ∈ host, ch ≠ colon ∧ ch ≠ separator
  port_ne : port ≠ []
  port_digits : ∀ ch ∈ port, isDigit ch
  id_digits : ∃ number, (id = number ∨ id = 45 :: number) ∧ number ≠ [] ∧ ∀ ch ∈ number, isDigit ch

/-- The string is a host, a port and an identifier. -/
def HasForm (s : Bytes) : Prop :=
  ∃ host port id, IsForm s host port id

/-- The pieces are there, and the host is not known. -/
def Unknown (s : Bytes) : Prop :=
  ∃ address id host port rest, split s separator = [address, id] ∧
    split address colon = host :: port :: rest ∧ resolver (cStr host) = none

/-- A request with this text is turned down or has the form of an address, and nothing
fails. -/
def Safe (s : Bytes) : Prop :=
  ∃ known addr, fromString resolver (fromU64 0) s = .ok (known, addr) ∧
    (known = true → HasForm s)

/-- Whatever is written is read back, by the text and by the number. -/
def RoundTrips : Prop :=
  ∀ addr : RaftAddr, (∀ start, fromString resolver start addr.toString = .ok (true, addr)) ∧
    fromU64 addr.toU64 = addr

/-! ## What is turned down -/

section Rejection

variable {resolver} {s host port id : Bytes}

theorem ne_of_isDigit {ch : UInt8} (digit : isDigit ch) :
    ch ≠ 0 ∧ ch ≠ colon ∧ ch ≠ separator ∧ ch ≠ dot := by
  rw [isDigit_iff] at digit
  refine ⟨?_, ?_, ?_, ?_⟩ <;> rintro rfl <;> revert digit <;> decide

theorem IsForm.id_plain (form : IsForm s host port id) : id ≠ [] ∧ ∀ ch ∈ id, ch ≠ separator := by
  obtain ⟨number, rfl | rfl, ne, digits⟩ := form.id_digits
  · exact ⟨ne, fun ch mem => (ne_of_isDigit (digits ch mem)).2.2.1⟩
  · refine ⟨List.cons_ne_nil _ _, List.forall_mem_cons.mpr ⟨by decide, fun ch mem => ?_⟩⟩
    exact (ne_of_isDigit (digits ch mem)).2.2.1

/-- The pieces of an address. -/
theorem split_pieces (host_ne : host ≠ []) (host_plain : ∀ ch ∈ host, ch ≠ colon ∧ ch ≠ separator)
    (port_ne : port ≠ []) (port_plain : ∀ ch ∈ port, ch ≠ colon ∧ ch ≠ separator)
    (id_ne : id ≠ []) (id_plain : ∀ ch ∈ id, ch ≠ separator) :
    split (host ++ colon :: port ++ separator :: id) separator = [host ++ colon :: port, id] ∧
      split (host ++ colon :: port) colon = [host, port] := by
  have plain : ∀ ch ∈ host ++ colon :: port, ch ≠ separator := by
    refine List.forall_mem_append.mpr ⟨fun ch mem => (host_plain ch mem).2, ?_⟩
    exact List.forall_mem_cons.mpr ⟨by decide, fun ch mem => (port_plain ch mem).2⟩
  constructor
  · rw [split_cons plain (List.append_ne_nil_of_left_ne_nil host_ne _), split_last id_plain id_ne]
  · rw [split_cons (fun ch mem => (host_plain ch mem).1) host_ne,
      split_last (fun ch mem => (port_plain ch mem).1) port_ne]

theorem IsForm.pieces (form : IsForm s host port id) :
    split s separator = [host ++ colon :: port, id] ∧
      split (host ++ colon :: port) colon = [host, port] := by
  rw [form.eq]
  refine split_pieces form.host_ne form.host_plain form.port_ne (fun ch mem => ?_) form.id_plain.1
    form.id_plain.2
  have digit := ne_of_isDigit (form.port_digits ch mem)
  exact ⟨digit.2.1, digit.2.2.1⟩

theorem safe_iff (s : Bytes) : Safe resolver s ↔ HasForm s ∨ Unknown resolver s := by
  constructor
  · rintro ⟨known, addr, done, form⟩
    unfold fromString at done
    split at done
    · rename_i address id pieces
      split at done
      · rename_i host port rest parts
        split at done
        · obtain ⟨rfl, -⟩ := Prod.mk.inj (Except.ok.inj done)
          exact .inl (form rfl)
        · rename_i none_
          exact .inr ⟨address, id, host, port, rest, pieces, parts, none_⟩
      · contradiction
    · contradiction
  · rintro (form | ⟨address, id, host, port, rest, pieces, parts, none_⟩)
    · obtain ⟨host, port, id, is⟩ := form
      have pieces := is.pieces
      unfold Safe fromString
      rw [pieces.1]
      dsimp only
      rw [pieces.2]
      dsimp only
      split
      · exact ⟨true, _, rfl, fun _ => ⟨host, port, id, is⟩⟩
      · exact ⟨false, _, rfl, fun known => by contradiction⟩
    · unfold Safe fromString
      rw [pieces]
      dsimp only
      rw [parts]
      dsimp only
      rw [none_]
      exact ⟨false, _, rfl, fun known => by contradiction⟩

end Rejection

/-! ## Round trips -/

section RoundTrip

theorem scanDigits_digits (n : ℕ) : scanDigits (digits n) = some n := by
  have some_ : (digits n).head?.any isDigit = true := by
    obtain ⟨ch, rest, same⟩ := List.exists_cons_of_ne_nil (digits_ne_nil n)
    rw [same]
    exact isDigit_of_mem_digits (n := n) (same ▸ List.mem_cons_self)
  rw [scanDigits, if_pos some_, digitsValue_digits]

theorem cStr_digits (n : ℕ) : cStr (digits n) = digits n :=
  cStr_eq_self fun _ mem => (ne_of_isDigit (isDigit_of_mem_digits mem)).1

theorem dropWhile_isSpace {ch : UInt8} {rest : Bytes} (visible : isDigit ch ∨ ch = 45) :
    (ch :: rest).dropWhile isSpace = ch :: rest := by
  refine List.dropWhile_cons_of_neg fun space => ?_
  rcases visible with digit | rfl
  · rw [isDigit_iff] at digit
    simp only [isSpace, Bool.or_eq_true, Bool.and_eq_true, decide_eq_true_eq,
      UInt8.le_iff_toNat_le] at space
    rcases space with rfl | ⟨-, high⟩
    · revert digit
      decide
    · have : ch.toNat ≤ 13 := high
      omega
  · revert space
    decide

theorem scanDecimal_digits (n : ℕ) : scanDecimal (digits n) = some (n : ℤ) := by
  obtain ⟨ch, rest, same⟩ := List.exists_cons_of_ne_nil (digits_ne_nil n)
  have digit : isDigit ch := isDigit_of_mem_digits (n := n) (same ▸ List.mem_cons_self)
  rw [scanDecimal, cStr_digits, same, dropWhile_isSpace (.inl digit), ← same]
  split
  · rename_i minus
    rw [same] at minus
    rw [(List.cons.inj minus).1] at digit
    exact absurd digit (by decide)
  · rename_i plus
    rw [same] at plus
    rw [(List.cons.inj plus).1] at digit
    exact absurd digit (by decide)
  · rw [scanDigits_digits]
    rfl

theorem scanDecimal_decimal (i : Int32) : scanDecimal (decimal i) = some i.toInt := by
  by_cases negative : i.toInt < 0
  · have written : decimal i = 45 :: digits i.toInt.natAbs := if_pos negative
    have text : cStr (decimal i) = decimal i :=
      cStr_eq_self fun ch mem => (ne_of_mem_decimal mem).1
    rw [scanDecimal, text, written, dropWhile_isSpace (.inr rfl)]
    change (scanDigits (digits i.toInt.natAbs)).map (fun value : ℕ => -(value : ℤ)) = _
    rw [scanDigits_digits, Option.map_some, ← Int.eq_neg_natAbs_of_nonpos (le_of_lt negative)]
  · have written : decimal i = digits i.toInt.natAbs := if_neg negative
    rw [written, scanDecimal_digits, Int.natAbs_of_nonneg (not_lt.mp negative)]

theorem scanInt16_decimal (id old : Int16) : scanInt16 (decimal id.toInt32) old = id := by
  have low := id.le_toInt
  have high := id.toInt_lt
  rw [scanInt16, scanDecimal_decimal, Int16.toInt_toInt32]
  dsimp only
  rw [min_eq_left (by omega), max_eq_right (by omega), Int16.ofInt_toInt]

theorem scanUInt16_digits (port old : UInt16) : scanUInt16 (digits port.toNat) old = port := by
  have bound := port.toNat_lt
  rw [scanUInt16, scanDecimal_digits]
  dsimp only
  have same : ((port.toNat : ℤ) % 2 ^ 16).toNat = port.toNat := by omega
  rw [if_neg (by omega), UInt16.ofInt, same, UInt16.ofNat_toNat]

theorem length_digits_le {n k : ℕ} (positive : 0 < k) (bound : n < 10 ^ k) :
    (digits n).length ≤ k := by
  rw [digits, List.length_map]
  exact (Nat.length_toDigits_le_iff (by decide) positive).mpr bound

theorem length_ipString_le (ip : UInt32) : (ipString ip).length ≤ 15 := by
  have bound := ip.toNat_lt
  have first := @length_digits_le (ip.toNat / 2 ^ 24) 3 (by decide) (by omega)
  have second := @length_digits_le (ip.toNat / 2 ^ 16 % 2 ^ 8) 3 (by decide) (by omega)
  have third := @length_digits_le (ip.toNat / 2 ^ 8 % 2 ^ 8) 3 (by decide) (by omega)
  have fourth := @length_digits_le (ip.toNat % 2 ^ 8) 3 (by decide) (by omega)
  simp only [ipString, List.length_append, List.length_cons]
  omega

theorem of_mem_ipString {ip : UInt32} {ch : UInt8} (mem : ch ∈ ipString ip) :
    ch = dot ∨ isDigit ch := by
  simp only [ipString, List.mem_append, List.mem_cons] at mem
  rcases mem with ((mem | rfl | mem) | rfl | mem) | rfl | mem
  · exact .inr (isDigit_of_mem_digits mem)
  · exact .inl rfl
  · exact .inr (isDigit_of_mem_digits mem)
  · exact .inl rfl
  · exact .inr (isDigit_of_mem_digits mem)
  · exact .inl rfl
  · exact .inr (isDigit_of_mem_digits mem)

theorem length_decimal_le {i : Int32} {k : ℕ} (positive : 0 < k) (bound : i.toInt.natAbs < 10 ^ k) :
    (decimal i).length ≤ k + 1 := by
  have length := length_digits_le positive bound
  unfold decimal
  split
  · exact Nat.succ_le_succ length
  · exact Nat.le_succ_of_le length

/-- The buffer is large enough. -/
theorem toString_eq (addr : RaftAddr) :
    addr.toString = ipString addr.ip ++ colon :: digits addr.port.toNat ++
      separator :: decimal addr.id.toInt32 := by
  have ip := length_ipString_le addr.ip
  have port := @length_digits_le addr.port.toNat 5 (by decide)
    (addr.port.toNat_lt.trans (by decide))
  have low := addr.id.le_toInt
  have high := addr.id.toInt_lt
  have id := @length_decimal_le addr.id.toInt32 5 (by decide) (by
    rw [Int16.toInt_toInt32]
    omega)
  rw [toString, List.take_of_length_le]
  simp only [List.length_append, List.length_cons]
  omega

/-- A resolver that knows what stands for itself gives every address back. -/
theorem fromString_toString {resolver : Bytes → Option UInt32}
    (resolves : ∀ ip, resolver (ipString ip) = some ip) (start addr : RaftAddr) :
    fromString resolver start addr.toString = .ok (true, addr) := by
  have host_plain : ∀ ch ∈ ipString addr.ip, ch ≠ colon ∧ ch ≠ separator := by
    intro ch mem
    rcases of_mem_ipString mem with rfl | digit
    · decide
    · have other := ne_of_isDigit digit
      exact ⟨other.2.1, other.2.2.1⟩
  have host_ne : ipString addr.ip ≠ [] := by simp [ipString]
  have port_plain : ∀ ch ∈ digits addr.port.toNat, ch ≠ colon ∧ ch ≠ separator := by
    intro ch mem
    have other := ne_of_isDigit (isDigit_of_mem_digits mem)
    exact ⟨other.2.1, other.2.2.1⟩
  have text : cStr (ipString addr.ip) = ipString addr.ip := by
    refine cStr_eq_self fun ch mem => ?_
    rcases of_mem_ipString mem with rfl | digit
    · decide
    · exact (ne_of_isDigit digit).1
  have pieces := split_pieces host_ne host_plain (digits_ne_nil _) port_plain
    (decimal_ne_nil addr.id.toInt32) fun ch mem => (ne_of_mem_decimal mem).2
  rw [toString_eq, fromString, pieces.1]
  dsimp only
  rw [pieces.2]
  dsimp only
  rw [text, resolves, scanUInt16_digits, scanInt16_decimal]

end RoundTrip

/-! ## Requests -/

/-- A request for a transfer is safe if its text has the form of an address or names an
unknown host, and only then; addresses are read back always. -/
theorem transfer_safe_iff {resolver : Bytes → Option UInt32}
    (resolves : ∀ ip, resolver (ipString ip) = some ip) (s : Bytes) :
    Safe resolver s ∧ RoundTrips resolver ↔ HasForm s ∨ Unknown resolver s := by
  rw [safe_iff, and_iff_left_iff_imp]
  exact fun _ addr => ⟨fun start => fromString_toString resolves start addr, fromU64_toU64 addr⟩

/-- A number of a dotted quad. -/
def quadPart (text : Bytes) : Option ℕ :=
  if text.all isDigit && decide (digitsValue text < 256) then some (digitsValue text) else none

/-- A resolver that knows dotted quads and no names. -/
def quadResolver (text : Bytes) : Option UInt32 :=
  match (split text dot).mapM quadPart with
  | some [a, b, c, d] => some (UInt32.ofNat (a * 2 ^ 24 + b * 2 ^ 16 + c * 2 ^ 8 + d))
  | _ => none

theorem quadPart_digits {n : ℕ} (small : n < 256) : quadPart (digits n) = some n := by
  have all : (digits n).all isDigit = true := List.all_eq_true.mpr fun ch mem =>
    isDigit_of_mem_digits mem
  rw [quadPart, digitsValue_digits, all, decide_eq_true small, Bool.and_true, if_pos rfl]

theorem quadResolver_ipString (ip : UInt32) : quadResolver (ipString ip) = some ip := by
  have bound := ip.toNat_lt
  have plain (n : ℕ) : ∀ ch ∈ digits n, ch ≠ dot := fun ch mem =>
    (ne_of_isDigit (isDigit_of_mem_digits mem)).2.2.2
  have pieces : split (ipString ip) dot = [digits (ip.toNat / 2 ^ 24),
      digits (ip.toNat / 2 ^ 16 % 2 ^ 8), digits (ip.toNat / 2 ^ 8 % 2 ^ 8),
      digits (ip.toNat % 2 ^ 8)] := by
    rw [ipString, List.append_assoc, List.append_assoc, List.cons_append, List.cons_append,
      split_cons (plain _) (digits_ne_nil _), split_cons (plain _) (digits_ne_nil _),
      split_cons (plain _) (digits_ne_nil _), split_last (plain _) (digits_ne_nil _)]
  have value : ip.toNat / 2 ^ 24 * 2 ^ 24 + ip.toNat / 2 ^ 16 % 2 ^ 8 * 2 ^ 16 +
      ip.toNat / 2 ^ 8 % 2 ^ 8 * 2 ^ 8 + ip.toNat % 2 ^ 8 = ip.toNat := by omega
  rw [quadResolver, pieces]
  simp only [List.mapM_cons, List.mapM_nil]
  rw [quadPart_digits (by omega), quadPart_digits (by omega), quadPart_digits (by omega),
    quadPart_digits (by omega)]
  change some (UInt32.ofNat _) = _
  rw [value, UInt32.ofNat_toNat]

/-- `127.0.0.1:9988#7`. -/
def addressText : Bytes :=
  [49, 50, 55, 46, 48, 46, 48, 46, 49, 58, 57, 57, 56, 56, 35, 55]

theorem transfer_safe_example : Safe quadResolver addressText ∧
    fromString quadResolver (fromU64 0) addressText = .ok (true, ⟨2130706433, 9988, 7⟩) := by
  have form : HasForm addressText :=
    ⟨[49, 50, 55, 46, 48, 46, 48, 46, 49], [57, 57, 56, 56], [55], rfl, by decide,
      by decide +kernel, by decide, by decide +kernel, [55], .inl rfl, by decide, by decide +kernel⟩
  exact ⟨((transfer_safe_iff quadResolver_ipString addressText).mpr (.inl form)).1, by decide +kernel⟩

/-- Without any text the assert fails. -/
theorem not_transfer_safe :
    ¬∀ resolver : Bytes → Option UInt32, (∀ ip, resolver (ipString ip) = some ip) →
      (∀ s, Safe resolver s) ∧ RoundTrips resolver := by
  intro all
  obtain ⟨known, addr, done, -⟩ := (all quadResolver quadResolver_ipString).1 []
  contradiction

end RaftAddr

end Vraft.Net
