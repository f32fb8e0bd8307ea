import BitTrie.Proofs.KeyOrder

/-!
# Bits in machine words

The positions of bits are words of 32 bits, and a bit is read by shifts and masks.  Here every
operation on words is checked: one whose result does not fit ends the computation.  A scan for the
first differing bit goes byte by byte, in steps of eight positions, and may pass the position it
was to stop before.  As long as positions are those of a node nothing overflows, and what is
computed in words is what is computed in numbers.

## Main definitions

* `Overflow`, `Checked` — what an operation on words can run into, and computations that may.
* `Checked.add`, `Checked.sub`, `Checked.mul`, `Checked.narrow`, `Checked.shiftByte`,
  `Checked.count` — the operations on words.
* `Checked.toPosition`, `Checked.toBit`, `Checked.raise`, `Checked.lower` — those on the bit of a
  node.
* `Key.bitWord`, `Key.compareWord`, `Key.bitLengthWord` — a bit, an order and a length in words.
* `Key.scanFrom`, `Key.scanWord`, `Key.boundedScan` — the scan, as a loop over bytes.
* `Key.FirstDifference` — the first position of a range at which two keys differ, or its end.
* `Key.InOrder` — how two keys stand to each other.

## Main results

* `Key.scanFrom_unfold` — the loop, with its checked sums.
* `Key.bitWord_eq`, `Key.compareWord_eq`, `Key.bitLengthWord_eq` — words and numbers agree.
* `Key.firstDifference_firstDiff`, `Key.scanWord_eq` — **the loop finds the first difference**.
* `Key.boundedScan_eq` — from and before positions of a node, it ends at one or just past them.
* `Key.scanWord_finds_first` — what the loop finds, and the order of two keys that it decides.
-/

namespace BitTrie

/-! ### Checked operations -/

/-- Why an operation on words has no result. -/
inductive Overflow where
  /-- A sum is more than a word holds. -/
  | sum
  /-- A product is. -/
  | product
  /-- A difference is below zero. -/
  | difference
  /-- A word is shifted by all its bits, or more. -/
  | shift
  /-- A value has no equal in the type that it is brought to. -/
  | conversion
  /-- A scan ends further on than the positions of a node reach. -/
  | position
  deriving DecidableEq, Repr, Inhabited

/-- A computation in which every operation on words is checked. -/
abbrev Checked (m : Type → Type) := ExceptT Overflow m

namespace Checked

variable {m : Type → Type} [Monad m] {x y : UInt32}

/-- A result, if it is in range. -/
def within {α : Type} (fits : Prop) [Decidable fits] (o : Overflow) (a : α) : Checked m α :=
  if fits then pure a else throw o

/-- The sum of two words. -/
def add (x y : UInt32) : Checked m UInt32 :=
  within (x.toNat + y.toNat < Key.positions) .sum (x + y)

/-- The difference of two words. -/
def sub (x y : UInt32) : Checked m UInt32 := within (y.toNat ≤ x.toNat) .difference (x - y)

/-- The product of two words. -/
def mul (x y : UInt32) : Checked m UInt32 :=
  within (x.toNat * y.toNat < Key.positions) .product (x * y)

/-- A number as a word. -/
def narrow (n : Nat) : Checked m UInt32 :=
  within (n < Key.positions) .conversion (UInt32.ofNat n)

/-- A byte, shifted down. -/
def shiftByte (x : UInt8) (k : UInt32) : Checked m UInt8 :=
  within (k.toNat < 8) .shift (x >>> k.toUInt8)

/-- One more, where an index has no more bits than a position. -/
def count (n : Nat) : Checked m Nat := within (n + 1 < Key.positions) .sum (n + 1)

/-- The bit of a node as a position. -/
def toPosition (b : Int32) : Checked m UInt32 := within (0 ≤ b.toInt) .conversion b.toUInt32

/-- A position as the bit of a node. -/
def toBit (pos : UInt32) : Checked m Int32 :=
  within (pos.toNat < 2147483648) .conversion pos.toInt32

/-- The level after `b`. -/
def raise (b : Int32) : Checked m Int32 := within (b.toInt + 1 < 2147483648) .sum (b + 1)

/-- The level before `b`. -/
def lower (b : Int32) : Checked m Int32 := within (-2147483648 ≤ b.toInt - 1) .difference (b - 1)

theorem within_eq {α : Type} {fits : Prop} [Decidable fits] (h : fits) (o : Overflow) (a : α) :
    (within fits o a : Checked m α) = pure a := if_pos h

theorem toNat_add (h : x.toNat + y.toNat < Key.positions) :
    (x + y).toNat = x.toNat + y.toNat := by
  rw [UInt32.toNat_add]
  exact Nat.mod_eq_of_lt h

theorem toNat_ofNat {n : Nat} (h : n < Key.positions) : (UInt32.ofNat n).toNat = n :=
  UInt32.toNat_ofNat_of_lt' h

theorem toNat_min (x y : UInt32) : (min x y).toNat = min x.toNat y.toNat := by
  show (if x ≤ y then x else y).toNat = _
  split
  · next h => rw [Nat.min_eq_left (UInt32.le_iff_toNat_le.mp h)]
  · next h => rw [Nat.min_eq_right (Nat.le_of_not_le (UInt32.le_iff_toNat_le.not.mp h))]

/-- A bit that is not negative is a position. -/
theorem toPosition_eq {b : Int32} (h : 0 ≤ b.toInt) :
    (toPosition b : Checked m UInt32) = pure b.toUInt32 ∧ b.toUInt32.toNat = b.toInt.toNat := by
  have hle : 0 ≤ b := Int32.le_iff_toInt_le.mpr h
  refine ⟨within_eq h _ _, ?_⟩
  rw [Int32.toNat_toUInt32_of_le hle]
  rfl

/-- A position below the sign bit is the bit of a node. -/
theorem toBit_eq {pos : UInt32} (h : pos.toNat < 2147483648) :
    (toBit pos : Checked m Int32) = pure (Int32.ofNat pos.toNat) := by
  rw [← UInt32.toInt32_ofNat', UInt32.ofNat_toNat]
  exact within_eq h _ _

/-- A bit that is not negative is the same after it has been a position. -/
theorem toBit_toUInt32 {b : Int32} (h : 0 ≤ b.toInt) :
    (toBit b.toUInt32 : Checked m Int32) = pure b := by
  have hnat := (toPosition_eq (m := m) h).2
  have hlt := b.toInt_lt
  have hfits : b.toUInt32.toNat < 2147483648 := by omega
  rw [toBit, within_eq hfits, Int32.toInt32_toUInt32]

theorem raise_eq {b : Int32} (h : b ≠ Int32.maxValue) :
    (raise b : Checked m Int32) = pure (b + 1) ∧ (b + 1).toInt = b.toInt + 1 := by
  have hne : b.toInt ≠ 2147483647 := fun heq => h (Int32.toInt_inj.mp heq)
  have hlt : b.toInt + 1 < 2147483648 := by
    have := b.toInt_lt
    omega
  have hge := b.le_toInt
  refine ⟨within_eq hlt _ _, ?_⟩
  rw [Int32.toInt_add, show (1 : Int32).toInt = 1 from rfl]
  exact Int.bmod_eq_of_le (by omega) (by omega)

theorem lower_eq {b : Int32} (h : b ≠ Int32.minValue) :
    (lower b : Checked m Int32) = pure (b - 1) := by
  have hne : b.toInt ≠ -2147483648 := fun heq => h (Int32.toInt_inj.mp heq)
  have hge := b.le_toInt
  exact within_eq (by omega) _ _

end Checked

namespace Key

open Checked

section

variable {m : Type → Type} [Monad m]

/-- Bit `pos` of a key. -/
def bitWord (k : Key) (pos : UInt32) : Checked m Bool := do
  let shift ← sub 7 (pos &&& 7)
  let byte ← shiftByte (k.byteAt (pos >>> 3).toNat) shift
  return byte &&& 1 == 1

/-- The order of two keys on bit `pos` alone. -/
def compareWord (a b : Key) (pos : UInt32) : Checked m Ordering := do
  return compare (← a.bitWord pos) (← b.bitWord pos)

/-- Where a scan stops that has come to `pos`, the first position of a byte. -/
def scanFrom (a b : Key) (stop pos : UInt32) : Checked m UInt32 :=
  if pos < stop then
    let diff := a.byteAt (pos >>> 3).toNat ^^^ b.byteAt (pos >>> 3).toNat
    if diff ≠ 0 then add pos (UInt32.ofNat (leadingZeros diff))
    -- the loop ends because this sum has not overflowed
    else if pos.toNat + 8 < positions then scanFrom a b stop (pos + 8)
    else throw .sum
  else pure pos
termination_by stop.toNat - pos.toNat
decreasing_by
  have hlt := UInt32.lt_iff_toNat_lt.mp ‹pos < stop›
  rw [toNat_add (y := 8) ‹_›, show (8 : UInt32).toNat = 8 from rfl]
  omega

/-- Where a scan stops that starts at the byte that holds bit `start`. -/
def scanWord (a b : Key) (start stop : UInt32) : Checked m UInt32 :=
  scanFrom a b stop (start &&& ~~~7)

/-- A scan that ends no further on than one position past those of a node. -/
def boundedScan (a b : Key) (start stop : UInt32) : Checked m UInt32 := do
  let pos ← a.scanWord b start stop
  within (pos.toNat ≤ 2147483648) .position pos

/-- The loop, with its checked sums. -/
theorem scanFrom_unfold [LawfulMonad m] (a b : Key) (stop pos : UInt32) :
    (scanFrom a b stop pos : Checked m UInt32) =
      if pos < stop then
        let diff := a.byteAt (pos >>> 3).toNat ^^^ b.byteAt (pos >>> 3).toNat
        if diff ≠ 0 then add pos (UInt32.ofNat (leadingZeros diff))
        else add pos 8 >>= scanFrom a b stop
      else pure pos := by
  rw [scanFrom.eq_def]
  split
  · dsimp only
    split
    · rfl
    · have hsum : pos.toNat + (8 : UInt32).toNat = pos.toNat + 8 := rfl
      unfold add within
      rw [hsum]
      split
      · rw [pure_bind]
      · rw [ExceptT.bind_throw]
  · rfl

end

/-- The number of bits in `len` bytes.  A length that is no word, or has no word of bits, is too
long like others. -/
def bitLengthWord (len : Nat) : Outcome UInt32 :=
  match (do mul (← narrow len) 8 : Checked Id UInt32).run with
  | .ok bits => if len ≤ maxKeyLength then .ok bits else .error (.keyTooLong len)
  | .error _ => .error (.keyTooLong len)

/-! ### Bits -/

section

variable {m : Type → Type} [Monad m]

theorem toNat_shiftRight_three (pos : UInt32) : (pos >>> 3).toNat = pos.toNat / 8 := by
  rw [UInt32.toNat_shiftRight, Nat.shiftRight_eq_div_pow]
  rfl

theorem toNat_and_seven (pos : UInt32) : (pos &&& 7).toNat = pos.toNat % 8 := by
  rw [UInt32.toNat_and]
  exact Nat.and_two_pow_sub_one_eq_mod pos.toNat 3

/-- The first position of the byte that holds one. -/
theorem toNat_and_not_seven (pos : UInt32) : (pos &&& ~~~7).toNat = 8 * (pos.toNat / 8) := by
  have hmask : (~~~7 : UInt32).toNat = 2 ^ 3 * (2 ^ 29 - 1) := rfl
  rw [UInt32.toNat_and, hmask]
  apply Nat.eq_of_testBit_eq
  intro j
  rw [Nat.testBit_and, Nat.testBit_two_pow_mul, Nat.testBit_two_pow_sub_one,
    show 8 * (pos.toNat / 8) = 2 ^ 3 * (pos.toNat / 2 ^ 3) from rfl, Nat.testBit_two_pow_mul,
    Nat.testBit_div_two_pow]
  rcases Nat.lt_or_ge j 3 with hlow | hge
  · simp [Nat.not_le.mpr hlow]
  · rw [Nat.sub_add_cancel hge]
    rcases Nat.lt_or_ge j 32 with hj | hj
    · simp [hge, show j - 3 < 29 by omega]
    · have hzero : pos.toNat.testBit j = false := Nat.testBit_lt_two_pow
        (Nat.lt_of_lt_of_le pos.toNat_lt (Nat.pow_le_pow_right (by decide) hj))
      rw [hzero, Bool.false_and, Bool.and_false]

/-- How far a byte is shifted to bring one of its bits down. -/
theorem sub_and_seven (pos : UInt32) :
    (sub 7 (pos &&& 7) : Checked m UInt32) = pure (7 - (pos &&& 7)) ∧
      (7 - (pos &&& 7)).toNat = 7 - pos.toNat % 8 := by
  have hle : (pos &&& 7).toNat ≤ (7 : UInt32).toNat := by
    rw [toNat_and_seven, show (7 : UInt32).toNat = 7 from rfl]
    omega
  refine ⟨within_eq hle _ _, ?_⟩
  rw [UInt32.toNat_sub_of_le _ _ (UInt32.le_iff_toNat_le.mpr hle), toNat_and_seven]
  rfl

/-- A byte that is shifted by fewer bits than it has. -/
theorem shiftByte_eq {n : UInt32} (hn : n.toNat < 8) (x : UInt8) :
    (shiftByte x n : Checked m UInt8) = pure (x >>> n.toUInt8) ∧
      (x >>> n.toUInt8).toNat = x.toNat >>> n.toNat := by
  refine ⟨within_eq hn _ _, ?_⟩
  rw [UInt8.toNat_shiftRight, UInt32.toNat_toUInt8, Nat.mod_eq_of_lt (by omega : n.toNat < 2 ^ 8),
    Nat.mod_eq_of_lt hn]

/-- The lowest bit of a byte. -/
theorem and_one_beq (x : UInt8) : (x &&& 1 == 1) = x.toNat.testBit 0 := by
  rw [Bool.eq_iff_iff, beq_iff_eq, ← UInt8.toNat_inj, UInt8.toNat_and, Nat.testBit_zero,
    decide_eq_true_eq, ← Nat.and_one_is_mod]
  rfl

variable [LawfulMonad m]

/-- Reading a bit does not overflow, whatever its position. -/
theorem bitWord_eq (k : Key) (pos : UInt32) :
    (k.bitWord pos : Checked m Bool) = pure (k.bitAt pos.toNat) := by
  obtain ⟨hsub, hshift⟩ := sub_and_seven (m := m) pos
  obtain ⟨hbyte, hdown⟩ := shiftByte_eq (m := m) (n := 7 - (pos &&& 7)) (by omega)
    (k.byteAt (pos >>> 3).toNat)
  rw [bitWord, hsub, pure_bind, hbyte, pure_bind, and_one_beq, hdown, hshift,
    toNat_shiftRight_three, Nat.testBit_shiftRight, Nat.add_zero, bitAt]

theorem compareWord_eq (a b : Key) (pos : UInt32) :
    (a.compareWord b pos : Checked m Ordering) = pure (compareAt a b pos.toNat) := by
  rw [compareWord, bitWord_eq, bitWord_eq, pure_bind, pure_bind, compareAt]
  cases a.bitAt pos.toNat <;> cases b.bitAt pos.toNat <;> rfl

end

/-- A length in words is refused when it is in numbers. -/
theorem bitLengthWord_eq (len : Nat) : bitLengthWord len = UInt32.ofNat <$> bitLength len := by
  rw [bitLength]
  split
  · next h =>
    have hlen := h
    unfold maxKeyLength at hlen
    have hnarrow : (narrow len : Checked Id UInt32) = pure (UInt32.ofNat len) :=
      within_eq (by unfold positions; omega) _ _
    have hmul : (mul (UInt32.ofNat len) 8 : Checked Id UInt32) = pure (UInt32.ofNat len * 8) := by
      apply within_eq
      rw [toNat_ofNat (by unfold positions; omega), show (8 : UInt32).toNat = 8 from rfl]
      unfold positions
      omega
    have height : UInt32.ofNat len * 8 = UInt32.ofNat (8 * len) := by
      rw [UInt32.ofNat_mul, UInt32.mul_comm]
      rfl
    rw [bitLengthWord, hnarrow, pure_bind, hmul, height]
    exact if_pos h
  · next h =>
    unfold bitLengthWord
    split
    · exact if_neg h
    · rfl

/-! ### Scans -/

/-- The position `p` is the first one from `s` on and before `e` at which two keys differ, or it is
`e` when there is none. -/
structure FirstDifference (a b : Key) (s e p : Nat) : Prop where
  le : s ≤ p
  same : ∀ q, s ≤ q → q < p → a.bitAt q = b.bitAt q
  ends : p < e ∧ a.bitAt p ≠ b.bitAt p ∨ p = e

section

variable {a b : Key} {s e p p' : Nat}

theorem FirstDifference.le_end (h : FirstDifference a b s e p) : p ≤ e := by
  rcases h.ends with ⟨hlt, -⟩ | heq
  · exact Nat.le_of_lt hlt
  · exact Nat.le_of_eq heq

/-- There is only one first difference. -/
theorem FirstDifference.eq (h : FirstDifference a b s e p) (h' : FirstDifference a b s e p') :
    p = p' := by
  have hle : ∀ {p p'}, FirstDifference a b s e p → FirstDifference a b s e p' → p ≤ p' := by
    intro p p' h h'
    rcases h'.ends with ⟨-, hdiff⟩ | rfl
    · exact Nat.le_of_not_lt fun hlt => hdiff (h.same p' h'.le hlt)
    · exact h.le_end
  exact Nat.le_antisymm (hle h h') (hle h' h)

/-- Where all bits before a position are the same, the first difference from there on is the
first one after earlier positions, too. -/
theorem FirstDifference.extend {s' : Nat} (h : FirstDifference a b s e p) (hs : s' ≤ s)
    (hsame : ∀ q, s' ≤ q → q < s → a.bitAt q = b.bitAt q) : FirstDifference a b s' e p := by
  refine ⟨Nat.le_trans hs h.le, fun q hq hlt => ?_, h.ends⟩
  rcases Nat.lt_or_ge q s with hlow | hge
  · exact hsame q hq hlow
  · exact h.same q hge hlt

/-- What is found in numbers is the first difference. -/
theorem firstDifference_firstDiff (a b : Key) (start stop : Nat) :
    FirstDifference a b (8 * (start / 8)) (8 * max (start / 8) ((stop + 7) / 8))
      (firstDiff a b start stop) := by
  obtain ⟨hends, hle, hsame⟩ := firstDiff_spec a b start stop
  refine ⟨?_, hsame, ?_⟩
  · unfold firstDiff
    cases hscan : diffByte? a b (start / 8) ((stop + 7) / 8) with
    | some i =>
      have hi := (diffByte?_eq_some_iff.mp hscan).1
      dsimp only
      omega
    | none => exact Nat.mul_le_mul_left 8 (Nat.le_max_left _ _)
  · rcases hends with hdiff | heq
    · rcases Nat.lt_or_eq_of_le hle with hlt | heq
      · exact Or.inl ⟨hlt, hdiff⟩
      · exact Or.inr heq
    · exact Or.inr heq

variable {m : Type → Type} [Monad m] [LawfulMonad m]

/-- **The loop finds the first difference** from the byte on that it has come to. -/
theorem scanFrom_finds (a b : Key) {stop pos : UInt32} (hstop : stop.toNat ≤ 2147483648)
    (hpos : pos.toNat % 8 = 0) (hle : pos.toNat ≤ 2147483648) :
    ∃ p : UInt32, (scanFrom a b stop pos : Checked m UInt32) = pure p ∧
      FirstDifference a b pos.toNat (max pos.toNat (8 * ((stop.toNat + 7) / 8))) p.toNat := by
  induction hleft : stop.toNat - pos.toNat using Nat.strongRecOn generalizing pos with
  | ind left ih =>
    have hindex := toNat_shiftRight_three pos
    have hbyte : 8 * (pos.toNat / 8) = pos.toNat := by omega
    rw [scanFrom_unfold]
    split
    · next hlt =>
      rw [UInt32.lt_iff_toNat_lt] at hlt
      rw [hindex]
      dsimp only
      split
      -- the byte differs, and the scan ends in it
      · next hdiff =>
        obtain ⟨hbits, hne, hsame⟩ := bitAt_leadingZeros (a := a) (b := b) (i := pos.toNat / 8)
          fun heq => hdiff (UInt8.xor_eq_zero_iff.mpr heq)
        rw [hbyte] at hne hsame
        generalize leadingZeros (a.byteAt (pos.toNat / 8) ^^^ b.byteAt (pos.toNat / 8)) = n at *
        have hn : (UInt32.ofNat n).toNat = n := toNat_ofNat (by unfold positions; omega)
        have hsum : pos.toNat + (UInt32.ofNat n).toNat < positions := by unfold positions; omega
        refine ⟨_, within_eq hsum _ _, ?_⟩
        rw [toNat_add hsum, hn]
        refine ⟨Nat.le_add_right _ _, fun q hq hlt' => ?_, Or.inl ⟨by omega, hne⟩⟩
        have hq' := hsame (q - pos.toNat) (by omega)
        rwa [Nat.add_sub_cancel' hq] at hq'
      -- the byte is the same, and the scan goes on with the next one
      · next hsame =>
        have hsum : pos.toNat + (8 : UInt32).toNat < positions := by
          rw [show (8 : UInt32).toNat = 8 from rfl]
          unfold positions
          omega
        have hnext : (pos + 8).toNat = pos.toNat + 8 := toNat_add hsum
        have haligned : (pos + 8).toNat % 8 = 0 := by omega
        obtain ⟨p, hscan, hp⟩ :=
          ih (stop.toNat - (pos + 8).toNat) (by omega) haligned (by omega) rfl
        rw [add, within_eq hsum, pure_bind]
        refine ⟨p, hscan, ?_⟩
        rw [hnext, show max (pos.toNat + 8) (8 * ((stop.toNat + 7) / 8)) =
          max pos.toNat (8 * ((stop.toNat + 7) / 8)) by omega] at hp
        refine hp.extend (Nat.le_add_right _ _) fun q hq hlt' => ?_
        have hq' := byteAt_eq_iff.mp (UInt8.xor_eq_zero_iff.mp (not_not.mp hsame))
          (q - pos.toNat) (by omega)
        rwa [hbyte, Nat.add_sub_cancel' hq] at hq'
    · next hge =>
      rw [UInt32.lt_iff_toNat_lt] at hge
      refine ⟨pos, rfl, Nat.le_refl _, fun q hq hlt => absurd hlt (Nat.not_lt.mpr hq), Or.inr ?_⟩
      omega

/-- **The loop stops where the scan in numbers does**, and nothing overflows on the way. -/
theorem scanWord_eq (a b : Key) {start stop : UInt32} (hstart : start.toNat ≤ 2147483648)
    (hstop : stop.toNat ≤ 2147483648) : (scanWord a b start stop : Checked m UInt32) =
      pure (UInt32.ofNat (firstDiff a b start.toNat stop.toNat)) := by
  have hfirst := toNat_and_not_seven start
  have haligned : (start &&& ~~~7).toNat % 8 = 0 := by omega
  obtain ⟨p, hscan, hp⟩ := scanFrom_finds (m := m) a b hstop haligned (by omega)
  rw [hfirst, Nat.mul_max_mul_left] at hp
  rw [scanWord, hscan, ← hp.eq (firstDifference_firstDiff a b start.toNat stop.toNat),
    UInt32.ofNat_toNat]

/-- Where the scan stops is a position. -/
theorem toNat_firstDiff (a b : Key) {start stop : Nat} (hstart : start ≤ 2147483648)
    (hstop : stop ≤ 2147483648) :
    (UInt32.ofNat (firstDiff a b start stop)).toNat = firstDiff a b start stop := by
  refine toNat_ofNat ?_
  have hle := (firstDifference_firstDiff a b start stop).le_end
  unfold positions
  omega

/-- The scans that are made end within the positions of a node, or one past them. -/
theorem boundedScan_eq (a b : Key) {start stop : UInt32} (hstart : start.toNat ≤ 2147483648)
    (hstop : stop.toNat ≤ 2147483648) : ∃ pos : UInt32,
      (a.boundedScan b start stop : Checked m UInt32) = pure pos ∧
      pos.toNat = firstDiff a b start.toNat stop.toNat ∧ pos.toNat ≤ 2147483648 := by
  have hnat := toNat_firstDiff a b hstart hstop
  have hle := (firstDifference_firstDiff a b start.toNat stop.toNat).le_end
  have hpos : firstDiff a b start.toNat stop.toNat ≤ 2147483648 := by omega
  refine ⟨_, ?_, hnat, hnat.trans_le hpos⟩
  rw [boundedScan, scanWord_eq a b hstart hstop, pure_bind]
  exact within_eq (hnat.trans_le hpos) _ _

end

/-! ### The order of two keys -/

/-- How two keys stand to each other as endless byte strings. -/
def InOrder (a b : Key) : Ordering → Prop
  | .lt => a.Precedes b
  | .eq => ∀ i, a.byteAt i = b.byteAt i
  | .gt => b.Precedes a

section

variable {a b : Key} {s e p stop : Nat}

theorem Precedes.not_eq (h : a.Precedes b) : ¬ ∀ i, a.byteAt i = b.byteAt i := by
  obtain ⟨i, -, hlt⟩ := h
  intro heq
  rw [heq i] at hlt
  exact UInt8.lt_irrefl _ hlt

/-- Two keys stand to each other in one way only. -/
theorem InOrder.eq {o o' : Ordering} (h : a.InOrder b o) (h' : a.InOrder b o') : o = o' := by
  cases o <;> cases o'
  case lt.lt | eq.eq | gt.gt => rfl
  case lt.gt | gt.lt => exact absurd h' (Precedes.asymm h)
  case lt.eq => exact absurd h' (Precedes.not_eq h)
  case eq.lt => exact absurd h (Precedes.not_eq h')
  case gt.eq => exact absurd (fun i => (h' i).symm) (Precedes.not_eq h)
  case eq.gt => exact absurd (fun i => (h i).symm) (Precedes.not_eq h')

/-- The bit at which two keys first differ decides how they stand. -/
theorem inOrder_compareAt (hsame : SameBits a b p) (hdiff : a.bitAt p ≠ b.bitAt p) :
    a.InOrder b (compareAt a b p) := by
  unfold compareAt
  cases ha : a.bitAt p <;> cases hb : b.bitAt p
  case false.true => exact precedes_of_bitAt hsame ha hb
  case true.false => exact precedes_of_bitAt hsame.symm hb ha
  case false.false | true.true => exact absurd (ha.trans hb.symm) hdiff

/-- Before the first difference all bits are the same, if they are before the range. -/
theorem FirstDifference.sameBits (h : FirstDifference a b s e p) (hsame : SameBits a b s) :
    SameBits a b p := fun q hq => by
  rcases Nat.lt_or_ge q s with hlow | hge
  · exact hsame q hlow
  · exact h.same q hge hq

/-- It comes before a position of the range if there is any difference before that position. -/
theorem FirstDifference.lt_iff (h : FirstDifference a b s e p) (hsame : SameBits a b s)
    (hstop : stop ≤ e) : p < stop ↔ ∃ q, q < stop ∧ a.bitAt q ≠ b.bitAt q := by
  constructor
  · intro hlt
    rcases h.ends with ⟨-, hdiff⟩ | rfl
    · exact ⟨p, hlt, hdiff⟩
    · exact absurd hstop (Nat.not_le.mpr hlt)
  · rintro ⟨q, hq, hdiff⟩
    by_contra hge
    exact hdiff (h.sameBits hsame q (Nat.lt_of_lt_of_le hq (Nat.le_of_not_lt hge)))

end

/-- **What the scan finds**, of keys of any sizes.  The loop over words ends without an overflow,
where the scan in numbers does: at the first position at which the keys differ, from the byte that
holds `start` on and as far as the last byte begun before `stop`, or at the end of that byte when
there is none.  Where the keys agree on all bits before, it ends before `stop` if they differ at all
before `stop`, and the bits there stand to each other as the keys do. -/
theorem scanWord_finds_first (a b : Key) (start stop : UInt32)
    (hstart : start.toNat ≤ 2147483647) (hstop : stop.toNat ≤ 2147483647) :
    ∃ p : UInt32, (scanWord a b start stop : Checked Id UInt32) = pure p ∧
      scanDiff a b start.toNat stop.toNat = .ok p.toNat ∧
      FirstDifference a b (8 * (start.toNat / 8))
        (max (8 * (start.toNat / 8)) (8 * ((stop.toNat + 7) / 8))) p.toNat ∧
      (SameBits a b (8 * (start.toNat / 8)) →
        (p < stop ↔ ∃ q, q < stop.toNat ∧ a.bitAt q ≠ b.bitAt q) ∧
        (p < stop → ∀ o, (compareWord a b p : Checked Id Ordering) = pure o ↔ a.InOrder b o)) := by
  have hstart' := Nat.le_succ_of_le hstart
  have hstop' := Nat.le_succ_of_le hstop
  have hnat := toNat_firstDiff a b hstart' hstop'
  have hfirst := firstDifference_firstDiff a b start.toNat stop.toNat
  rw [← Nat.mul_max_mul_left, ← hnat] at hfirst
  refine ⟨_, scanWord_eq a b hstart' hstop', ?_, hfirst, fun hsame => ?_⟩
  · rw [hnat]
    exact scanDiff_eq_ok hstart' hstop'
  · rw [UInt32.lt_iff_toNat_lt]
    refine ⟨hfirst.lt_iff hsame (by omega), fun hlt o => ?_⟩
    have hdiff := hfirst.ends.resolve_right (by omega)
    have horder := inOrder_compareAt (hfirst.sameBits hsame) hdiff.2
    rw [compareWord_eq]
    constructor
    · intro heq
      exact Except.ok.inj heq ▸ horder
    · intro ho
      rw [horder.eq ho]

/-- A scan that starts inside the third byte, where the first key has ended: the keys differ in the
last bit of that byte, and the longer one comes later. -/
theorem scanWord_finds_first_ended : ∃ p : UInt32,
    (scanWord #[97, 98] #[97, 98, 1] 19 24 : Checked Id UInt32) = pure p ∧ p.toNat = 23 ∧
      (compareWord #[97, 98] #[97, 98, 1] p : Checked Id Ordering) = pure .lt := by
  obtain ⟨p, hscan, hnat, -, horder⟩ := scanWord_finds_first #[97, 98] #[97, 98, 1] 19 24
    (by decide) (by decide)
  have hp : p.toNat = 23 := Except.ok.inj (hnat.symm.trans (by decide +kernel))
  obtain ⟨-, hcompare⟩ := horder (alike_iff_sameBits.mp (by decide : Alike _ _ 2))
  have hlt : p < 24 := UInt32.lt_iff_toNat_lt.mpr (by rw [hp]; decide)
  exact ⟨p, hscan, hp, (hcompare hlt .lt).mpr ⟨2, by decide, by decide⟩⟩

end Key

end BitTrie
