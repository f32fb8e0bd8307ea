import BitTrie.Key
import Mathlib.Data.Nat.Bitwise

/-!
# Keys compared as endless strings

A key is read as an endless string of bits, or of bytes, zero past its end.  Two keys are
compared in three ways: over their first bits, over their first bytes, and in the dictionary
order of the endless byte strings.  A scan for the first differing bit answers all three.

## Main definitions

* `Key.SameBits a b n` — the first `n` bits are the same.
* `Key.Alike a b len` — the first `len` bytes are the same.
* `Key.Precedes a b` — `a` comes before `b` as an endless byte string.

## Main results

* `Key.alike_iff_sameBits` — bytes are the same when their bits are.
* `Key.sameBits_firstDiff`, `Key.bitAt_ne_of_firstDiff_lt` — **what a scan finds**: before its
  end all bits are the same, and where it ends early they differ.
* `Key.precedes_of_bitAt` — the first differing bit decides the order.
-/

namespace BitTrie

namespace Key

variable {a b c : Key}

/-! ### Agreement -/

/-- The first `n` bits of two keys are the same. -/
def SameBits (a b : Key) (n : Nat) : Prop := ∀ p, p < n → a.bitAt p = b.bitAt p

/-- The first `len` bytes of two keys are the same, bytes past the end reading as zero. -/
def Alike (a b : Key) (len : Nat) : Prop := ∀ i, i < len → a.byteAt i = b.byteAt i

theorem SameBits.symm {n : Nat} (h : SameBits a b n) : SameBits b a n :=
  fun p hp => (h p hp).symm

theorem SameBits.trans {n : Nat} (hab : SameBits a b n) (hbc : SameBits b c n) :
    SameBits a c n :=
  fun p hp => (hab p hp).trans (hbc p hp)

theorem SameBits.mono {m n : Nat} (h : SameBits a b n) (hmn : m ≤ n) : SameBits a b m :=
  fun p hp => h p (Nat.lt_of_lt_of_le hp hmn)

theorem Alike.symm {len : Nat} (h : Alike a b len) : Alike b a len :=
  fun i hi => (h i hi).symm

theorem Alike.trans {len : Nat} (hab : Alike a b len) (hbc : Alike b c len) : Alike a c len :=
  fun i hi => (hab i hi).trans (hbc i hi)

theorem Alike.mono {m len : Nat} (h : Alike a b len) (hm : m ≤ len) : Alike a b m :=
  fun i hi => h i (Nat.lt_of_lt_of_le hi hm)

theorem alike_iff_agreeOn {len : Nat} : Alike a b len ↔ agreeOn a b 0 len = true := by
  rw [agreeOn_iff]
  exact ⟨fun h i _ hi => h i hi, fun h i hi => h i (Nat.zero_le i) hi⟩

instance {len : Nat} : Decidable (Alike a b len) := decidable_of_iff _ alike_iff_agreeOn.symm

/-- A byte has no bits past its eighth. -/
private theorem testBit_byte (x : UInt8) {j : Nat} (h : 8 ≤ j) : x.toNat.testBit j = false :=
  Nat.testBit_lt_two_pow (Nat.lt_of_lt_of_le x.toNat_lt (Nat.pow_le_pow_right (by decide) h))

/-- Bytes are the same when their eight bits are. -/
theorem byteAt_eq_iff {i : Nat} :
    a.byteAt i = b.byteAt i ↔ ∀ j, j < 8 → a.bitAt (8 * i + j) = b.bitAt (8 * i + j) := by
  constructor
  · intro h j hj
    rw [bitAt_eq_byteAt_testBit a i hj, bitAt_eq_byteAt_testBit b i hj, h]
  · intro h
    refine UInt8.toNat_inj.mp (Nat.eq_of_testBit_eq ?_)
    intro j
    rcases Nat.lt_or_ge j 8 with hj | hj
    · have hbit := h (7 - j) (by omega)
      rw [bitAt_eq_byteAt_testBit a i (by omega), bitAt_eq_byteAt_testBit b i (by omega),
        show 7 - (7 - j) = j by omega] at hbit
      exact hbit
    · rw [testBit_byte _ hj, testBit_byte _ hj]

/-- Agreement over bytes is agreement over their bits. -/
theorem alike_iff_sameBits {len : Nat} : Alike a b len ↔ SameBits a b (8 * len) := by
  constructor
  · intro h p hp
    have hbyte := byteAt_eq_iff.mp (h (p / 8) (by omega)) (p % 8) (by omega)
    rwa [Nat.div_add_mod] at hbyte
  · intro h i hi
    exact byteAt_eq_iff.mpr fun j hj => h (8 * i + j) (by omega)

theorem bitAt_truncate (k : Key) (len p : Nat) :
    (k.truncate len).bitAt p = if p < 8 * len then k.bitAt p else false := by
  rw [bitAt, bitAt, byteAt_truncate]
  split
  · rw [if_pos (show p < 8 * len by omega)]
  · rw [if_neg (show ¬ p < 8 * len by omega)]
    exact Nat.zero_testBit _

/-- A key and its first bytes have the same bits as far as those go. -/
theorem sameBits_truncate (k : Key) (len : Nat) : SameBits (k.truncate len) k (8 * len) :=
  fun p hp => by rw [bitAt_truncate, if_pos hp]

/-! ### The scan -/

/-- The leading zeros of a byte are followed by a one. -/
private theorem testBit_leadingZeros {x : UInt8} (h : x ≠ 0) :
    leadingZeros x < 8 ∧ x.toNat.testBit (7 - leadingZeros x) = true ∧
      ∀ j, j < leadingZeros x → x.toNat.testBit (7 - j) = false := by
  have hne : x.toNat ≠ 0 := fun hx => h (UInt8.toNat_inj.mp hx)
  have hlog : x.toNat.log2 < 8 := (Nat.log2_lt hne).mpr x.toNat_lt
  refine ⟨by rw [leadingZeros]; omega, ?_, ?_⟩
  · rw [leadingZeros, show 7 - (7 - x.toNat.log2) = x.toNat.log2 by omega]
    exact Nat.testBit_log2 hne
  · intro j hj
    unfold leadingZeros at hj
    exact Nat.testBit_lt_two_pow (Nat.lt_of_lt_of_le Nat.lt_log2_self
      (Nat.pow_le_pow_right (by decide) (by omega)))

/-- In a byte in which two keys differ, they first differ after the leading zeros of their
difference. -/
theorem bitAt_leadingZeros {i : Nat} (h : a.byteAt i ≠ b.byteAt i) :
    leadingZeros (a.byteAt i ^^^ b.byteAt i) < 8 ∧
      a.bitAt (8 * i + leadingZeros (a.byteAt i ^^^ b.byteAt i)) ≠
        b.bitAt (8 * i + leadingZeros (a.byteAt i ^^^ b.byteAt i)) ∧
      ∀ j, j < leadingZeros (a.byteAt i ^^^ b.byteAt i) →
        a.bitAt (8 * i + j) = b.bitAt (8 * i + j) := by
  obtain ⟨hlt, hone, hzero⟩ := testBit_leadingZeros (x := a.byteAt i ^^^ b.byteAt i)
    fun hx => h (UInt8.xor_eq_zero_iff.mp hx)
  rw [UInt8.toNat_xor] at hone hzero
  refine ⟨hlt, ?_, ?_⟩
  · rw [bitAt_eq_byteAt_testBit a i hlt, bitAt_eq_byteAt_testBit b i hlt]
    rw [Nat.testBit_xor] at hone
    intro heq
    simp [heq] at hone
  · intro j hj
    rw [bitAt_eq_byteAt_testBit a i (by omega), bitAt_eq_byteAt_testBit b i (by omega)]
    have hxor := hzero j hj
    rw [Nat.testBit_xor] at hxor
    simpa using hxor

/-- **What a scan finds.**  It ends at a position where the keys differ, or at the end of its
last byte; from the byte it starts in up to where it ends, all bits are the same. -/
theorem firstDiff_spec (a b : Key) (start stop : Nat) :
    (a.bitAt (firstDiff a b start stop) ≠ b.bitAt (firstDiff a b start stop) ∨
      firstDiff a b start stop = 8 * max (start / 8) ((stop + 7) / 8)) ∧
    firstDiff a b start stop ≤ 8 * max (start / 8) ((stop + 7) / 8) ∧
    ∀ p, 8 * (start / 8) ≤ p → p < firstDiff a b start stop → a.bitAt p = b.bitAt p := by
  unfold firstDiff
  cases hscan : diffByte? a b (start / 8) ((stop + 7) / 8) with
  | some i =>
    obtain ⟨hstart, hstop, hne, hbefore⟩ := diffByte?_eq_some_iff.mp hscan
    obtain ⟨hlt, hdiff, hsame⟩ := bitAt_leadingZeros hne
    refine ⟨Or.inl hdiff, by dsimp only; omega, ?_⟩
    intro p hp hlt'
    dsimp only at hlt'
    -- before the byte that differs all bytes agree, and in it all bits above the leading one
    rcases Nat.lt_or_ge p (8 * i) with h | h
    · have hbyte := byteAt_eq_iff.mp (hbefore (p / 8) (by omega) (by omega)) (p % 8) (by omega)
      rwa [Nat.div_add_mod] at hbyte
    · have hbit := hsame (p - 8 * i) (by omega)
      rwa [show 8 * i + (p - 8 * i) = p by omega] at hbit
  | none =>
    have hagree : agreeOn a b (start / 8) ((stop + 7) / 8) = true := by
      rw [agreeOn, hscan]; rfl
    refine ⟨Or.inr rfl, Nat.le_refl _, ?_⟩
    intro p hp hlt
    dsimp only at hlt
    have hbyte := byteAt_eq_iff.mp (agreeOn_iff.mp hagree (p / 8) (by omega) (by omega))
      (p % 8) (by omega)
    rwa [Nat.div_add_mod] at hbyte

/-- A scan extends the agreement of two keys to where it ends. -/
theorem sameBits_firstDiff {start : Nat} (h : SameBits a b start) (stop : Nat) :
    SameBits a b (firstDiff a b start stop) := by
  intro p hp
  rcases Nat.lt_or_ge p (8 * (start / 8)) with hlt | hge
  · exact h p (by omega)
  · exact (firstDiff_spec a b start stop).2.2 p hge hp

/-- Where a scan ends early, the keys differ. -/
theorem bitAt_ne_of_firstDiff_lt {start stop : Nat} (h : firstDiff a b start stop < stop) :
    a.bitAt (firstDiff a b start stop) ≠ b.bitAt (firstDiff a b start stop) := by
  rcases (firstDiff_spec a b start stop).1 with hne | heq
  · exact hne
  · omega

/-- A scan from the first bit finds the first bit at which the keys differ. -/
theorem firstDiff_eq {stop d : Nat} (hd : d < stop) (hsame : SameBits a b d)
    (hdiff : a.bitAt d ≠ b.bitAt d) : firstDiff a b 0 stop = d := by
  have hscan : SameBits a b (firstDiff a b 0 stop) :=
    sameBits_firstDiff (fun p hp => absurd hp (Nat.not_lt_zero p)) stop
  rcases Nat.lt_trichotomy (firstDiff a b 0 stop) d with hlt | heq | hgt
  · exact absurd (hsame _ hlt) (bitAt_ne_of_firstDiff_lt (Nat.lt_trans hlt hd))
  · exact heq
  · exact absurd (hscan d hgt) hdiff

/-- A scan from the first bit does not end where the keys agree. -/
theorem le_firstDiff {stop : Nat} (h : SameBits a b stop) : stop ≤ firstDiff a b 0 stop := by
  by_contra hlt
  have hlt' := Nat.lt_of_not_le hlt
  exact bitAt_ne_of_firstDiff_lt hlt' (h _ hlt')

/-- A scan over the bits of whole bytes stays within them. -/
theorem firstDiff_le {start stop len : Nat} (hstart : start ≤ 8 * len) (hstop : stop ≤ 8 * len) :
    firstDiff a b start stop ≤ 8 * len := by
  have hle := (firstDiff_spec a b start stop).2.1
  omega

/-- No position of a scan over bits that fit a node leaves the range of positions. -/
theorem scanDiff_eq_ok {start stop : Nat} (hstart : start ≤ 2147483648)
    (hstop : stop ≤ 2147483648) : scanDiff a b start stop = .ok (firstDiff a b start stop) := by
  have hle := (firstDiff_spec a b start stop).2.1
  have hlt : firstDiff a b start stop < positions := by
    unfold positions
    omega
  unfold scanDiff
  exact if_pos hlt

/-! ### The order -/

/-- One key comes before another as an endless byte string: at the first byte that differs it
has the smaller one. -/
def Precedes (a b : Key) : Prop :=
  ∃ i, (∀ j, j < i → a.byteAt j = b.byteAt j) ∧ a.byteAt i < b.byteAt i

theorem Precedes.asymm (h : Precedes a b) : ¬ Precedes b a := by
  obtain ⟨i, hsame, hlt⟩ := h
  rintro ⟨j, hsame', hlt'⟩
  rcases Nat.lt_trichotomy i j with hij | rfl | hji
  · rw [hsame' i hij] at hlt
    exact UInt8.lt_irrefl _ hlt
  · exact UInt8.lt_asymm hlt hlt'
  · rw [hsame j hji] at hlt'
    exact UInt8.lt_irrefl _ hlt'

/-- The first bit at which two keys differ decides their order. -/
theorem precedes_of_bitAt {p : Nat} (hsame : SameBits a b p) (ha : a.bitAt p = false)
    (hb : b.bitAt p = true) : Precedes a b := by
  refine ⟨p / 8, fun j hj => byteAt_eq_iff.mpr fun r hr => hsame _ (by omega), ?_⟩
  refine UInt8.lt_iff_toNat_lt.mpr (Nat.lt_of_testBit (7 - p % 8) ha hb ?_)
  intro j hj
  rcases Nat.lt_or_ge j 8 with h | h
  · have hbit := hsame (8 * (p / 8) + (7 - j)) (by omega)
    rw [bitAt_eq_byteAt_testBit a _ (by omega), bitAt_eq_byteAt_testBit b _ (by omega),
      show 7 - (7 - j) = j by omega] at hbit
    exact hbit
  · rw [testBit_byte _ h, testBit_byte _ h]

end Key

end BitTrie
