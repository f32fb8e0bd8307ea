import BitTrie.Fault

/-!
# Keys as bit strings

A key is a finite sequence of bytes.  The trees read it as an endless bit string: position `0`
is the most significant bit of byte `0`, positions grow toward the end of the key, and past the
last byte every bit is zero.  So two keys that differ only in trailing zero bytes read alike.

## Main definitions

* `Key.byteAt`, `Key.bitAt` — the bytes and bits of a key, zero past its end.
* `Key.diffByte?` — the first byte in a range at which two keys differ.
* `Key.firstDiff`, `Key.scanDiff` — where a scan for the first differing bit stops.
* `Key.agreeOn` — two keys read alike over a range of bytes.
* `Key.stringLength` — the bytes before a terminating zero.
* `Key.bitLength` — the bit length of a key prefix, refused when it does not fit a node.

## Main results

* `Key.diffByte?_eq_some_iff`, `Key.agreeOn_iff` — the byte scan in terms of `byteAt`.
* `Key.bitAt_eq_byteAt_testBit` — bits are read from the high end of a byte.
-/

namespace BitTrie

/-- A key: the bytes of a record. -/
abbrev Key := Array UInt8

namespace Key

/-! ### Reading -/

/-- Byte `i` of a key, zero past its end. -/
def byteAt (k : Key) (i : Nat) : UInt8 := k.getD i 0

/-- Bit `p` of a key, counted from the high end of byte `0`. -/
def bitAt (k : Key) (p : Nat) : Bool := (k.byteAt (p / 8)).toNat.testBit (7 - p % 8)

/-- The first `len` bytes of a key, or all of them when it is shorter. -/
def truncate (k : Key) (len : Nat) : Key := k.extract 0 len

/-- The number of bytes before the first zero byte, or all of them when there is none. -/
def stringLength (k : Key) : Nat := k.findIdx (· == 0)

theorem byteAt_of_size_le {k : Key} {i : Nat} (h : k.size ≤ i) : k.byteAt i = 0 := by
  simp [byteAt, Array.getElem?_eq_none h]

theorem byteAt_of_lt {k : Key} {i : Nat} (h : i < k.size) : k.byteAt i = k[i] := by
  simp [byteAt, h]

theorem bitAt_eq_byteAt_testBit (k : Key) (i : Nat) {j : Nat} (h : j < 8) :
    k.bitAt (8 * i + j) = (k.byteAt i).toNat.testBit (7 - j) := by
  have hdiv : (8 * i + j) / 8 = i := by omega
  have hmod : (8 * i + j) % 8 = j := by omega
  rw [bitAt, hdiv, hmod]

theorem byteAt_truncate (k : Key) (len i : Nat) :
    (k.truncate len).byteAt i = if i < len then k.byteAt i else 0 := by
  simp only [truncate, byteAt, Array.getD_eq_getD_getElem?, Array.getElem?_extract]
  rcases Nat.lt_or_ge i len with hlen | hlen
  · rcases Nat.lt_or_ge i k.size with hsize | hsize
    · simp [hlen, hsize, show i < min len k.size by omega]
    · simp [hlen, hsize, show ¬ i < min len k.size by omega]
  · simp [show ¬ i < len by omega, show ¬ i < min len k.size by omega]

/-! ### Comparing -/

/-- The first byte index from `start` up to but not including `stop` at which two keys differ.
Past the longer key both read zero, so the scan ends there however large `stop` is. -/
def diffByte? (a b : Key) (start stop : Nat) : Option Nat :=
  (List.range' start (min stop (max a.size b.size) - start)).find?
    fun i => a.byteAt i != b.byteAt i

/-- Whether two keys read alike on the bytes from `start` up to but not including `stop`. -/
def agreeOn (a b : Key) (start stop : Nat) : Bool := (diffByte? a b start stop).isNone

/-- The number of zero bits above the highest one bit of a byte that is not zero. -/
def leadingZeros (x : UInt8) : Nat := 7 - x.toNat.log2

/-- Where a scan for the first differing bit stops.  The scan starts at the byte that holds bit
`start` and goes byte by byte while bits before `stop` are left.  It stops at the first
differing bit, or, when the bytes scanned are equal, at the end of the last of them. -/
def firstDiff (a b : Key) (start stop : Nat) : Nat :=
  match diffByte? a b (start / 8) ((stop + 7) / 8) with
  | some i => 8 * i + leadingZeros (a.byteAt i ^^^ b.byteAt i)
  | none => 8 * max (start / 8) ((stop + 7) / 8)

/-- The number of bit positions a word can name. -/
def positions : Nat := 4294967296

/-- `firstDiff` in positions of one word: a scan that runs past the last of them is a fault. -/
def scanDiff (a b : Key) (start stop : Nat) : Outcome Nat :=
  let p := firstDiff a b start stop
  if p < positions then .ok p else .error .sumOverflow

/-- The order of two keys on bit `p` alone. -/
def compareAt (a b : Key) (p : Nat) : Ordering :=
  match a.bitAt p, b.bitAt p with
  | false, true => .lt
  | true, false => .gt
  | false, false | true, true => .eq

/-- The number of bits in `len` bytes, refused when a node could not hold their positions. -/
def bitLength (len : Nat) : Outcome Nat :=
  if len ≤ maxKeyLength then .ok (8 * len) else .error (.keyTooLong len)

/-- The scan finds the first index of its range at which the two keys differ. -/
theorem diffByte?_eq_some_iff {a b : Key} {start stop i : Nat} :
    diffByte? a b start stop = some i ↔
      start ≤ i ∧ i < stop ∧ a.byteAt i ≠ b.byteAt i ∧
        ∀ j, start ≤ j → j < i → a.byteAt j = b.byteAt j := by
  have inside : ∀ j, a.byteAt j ≠ b.byteAt j → j < max a.size b.size := by
    intro j hj
    rcases Nat.lt_or_ge j (max a.size b.size) with h | h
    · exact h
    · exact absurd ((byteAt_of_size_le (k := a) (by omega)).trans
        (byteAt_of_size_le (k := b) (by omega)).symm) hj
  simp only [diffByte?, List.find?_range'_eq_some, List.mem_range'_1, bne_iff_ne, ne_eq]
  constructor
  · rintro ⟨hne, hmem, hbefore⟩
    refine ⟨hmem.1, by omega, hne, fun j hj hlt => ?_⟩
    simpa using hbefore j hj hlt
  · rintro ⟨hstart, hstop, hne, hbefore⟩
    have := inside i hne
    exact ⟨hne, ⟨hstart, by omega⟩, fun j hj hlt => by simpa using hbefore j hj hlt⟩

/-- Agreement over a range of bytes is equality of every byte in it. -/
theorem agreeOn_iff {a b : Key} {start stop : Nat} :
    agreeOn a b start stop = true ↔
      ∀ i, start ≤ i → i < stop → a.byteAt i = b.byteAt i := by
  simp only [agreeOn, Option.isNone_iff_eq_none, diffByte?, List.find?_eq_none,
    List.mem_range'_1, bne_iff_ne, ne_eq, Decidable.not_not]
  constructor
  · intro h i hstart hstop
    rcases Nat.lt_or_ge i (max a.size b.size) with hi | hi
    · exact h i ⟨hstart, by omega⟩
    · rw [byteAt_of_size_le (k := a) (by omega), byteAt_of_size_le (k := b) (by omega)]
  · intro h i hi
    exact h i hi.1 (by omega)

end Key

end BitTrie
