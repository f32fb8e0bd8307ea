import BitTrie.Index
import BitTrie.Proofs.KeyOrder
import BitTrie.Strings

/-!
# Strings of keys

A string is inserted and looked up with its terminator.  So agreement with it is equality of
strings, what stands behind a terminator is never seen, and strings are in dictionary order where
their keys are in the order of the trees.

## Main definitions

* `Key.string` — the bytes of a key before its first zero byte.

## Main results

* `Key.alike_iff_string_eq` — agreement over a string and its terminator.
* `Key.before_of_precedes` — strings are ordered as their keys are.
-/

namespace BitTrie

namespace Key

variable {a b k : Key}

/-- The bytes of a key before its first zero byte. -/
def string (k : Key) : Key := k.truncate k.stringLength

theorem size_string (k : Key) : k.string.size = k.stringLength := by
  rw [string, truncate, Array.size_extract, Nat.min_eq_left k.stringLength_le, Nat.sub_zero]

theorem byteAt_string (k : Key) (i : Nat) :
    k.string.byteAt i = if i < k.stringLength then k.byteAt i else 0 := byteAt_truncate k _ i

theorem byteAt_ne_zero {i : Nat} (h : i < k.stringLength) : k.byteAt i ≠ 0 := by
  rw [byteAt_of_lt (Nat.lt_of_lt_of_le h k.stringLength_le)]
  have hnot := Array.not_of_lt_findIdx h
  rwa [Bool.eq_false_iff, ne_eq, beq_iff_eq] at hnot

/-- The string ends at the first zero byte. -/
theorem stringLength_eq {n : Nat} (hbefore : ∀ i, i < n → k.byteAt i ≠ 0) (hn : k.byteAt n = 0) :
    k.stringLength = n := by
  rcases Nat.lt_trichotomy k.stringLength n with hlt | heq | hgt
  · exact absurd k.byteAt_stringLength (hbefore _ hlt)
  · exact heq
  · exact absurd hn (byteAt_ne_zero hgt)

theorem stringLength_string (k : Key) : k.string.stringLength = k.stringLength := by
  refine stringLength_eq ?_ ?_
  · intro i hi
    rw [byteAt_string, if_pos hi]
    exact byteAt_ne_zero hi
  · rw [byteAt_string, if_neg (Nat.lt_irrefl _)]

theorem string_string (k : Key) : k.string.string = k.string := by
  rw [string, stringLength_string, ← size_string, truncate, Array.extract_size]

/-- **Agreement over a string and its terminator** is equality of strings. -/
theorem alike_iff_string_eq : Alike a b (b.stringLength + 1) ↔ a.string = b.string := by
  constructor
  · intro h
    -- a terminator in the same place ends both strings
    have hlen : a.stringLength = b.stringLength := by
      refine stringLength_eq ?_ ?_
      · intro i hi
        rw [h i (Nat.lt_succ_of_lt hi)]
        exact byteAt_ne_zero hi
      · rw [h _ (Nat.lt_succ_self _)]
        exact b.byteAt_stringLength
    refine Array.ext (by rw [size_string, size_string, hlen]) ?_
    intro i hia hib
    rw [← byteAt_of_lt hia, ← byteAt_of_lt hib, byteAt_string, byteAt_string, hlen]
    split
    · next hi => exact h i (Nat.lt_succ_of_lt hi)
    · rfl
  · intro h i hi
    have hlen : a.stringLength = b.stringLength := by rw [← size_string, h, size_string]
    rcases Nat.lt_succ_iff_lt_or_eq.mp hi with hi | rfl
    · have hbyte : a.string.byteAt i = b.string.byteAt i := by rw [h]
      rwa [byteAt_string, byteAt_string, if_pos hi, if_pos (hlen ▸ hi)] at hbyte
    · rw [b.byteAt_stringLength, ← hlen]
      exact a.byteAt_stringLength

end Key

/-! ### Order -/

theorem Key.getElem?_toList {k : Key} {i : Nat} (hi : i < k.size) :
    k.toList[i]? = some (k.byteAt i) := by
  rw [Array.getElem?_toList, Array.getElem?_eq_getElem hi, byteAt_of_lt hi]

/-- A byte sequence comes before another that has the larger byte where they part, or goes on
where it ends. -/
theorem bytesBefore_of_getElem? {xs ys : List UInt8} {i : Nat} {y : UInt8}
    (hsame : ∀ j, j < i → xs[j]? = ys[j]?) (hy : ys[i]? = some y)
    (hlt : ∀ x, xs[i]? = some x → x < y) : bytesBefore xs ys = true := by
  induction xs generalizing ys i with
  | nil =>
    cases ys with
    | nil => cases hy
    | cons z zs => rfl
  | cons x xs ih =>
    cases ys with
    | nil => cases hy
    | cons z zs =>
      cases i with
      | zero =>
        have hxz : x < z := by
          rw [List.getElem?_cons_zero, Option.some.injEq] at hy
          rw [hy]
          exact hlt x rfl
        rw [bytesBefore, if_neg (UInt8.ne_of_lt hxz)]
        exact decide_eq_true hxz
      | succ i =>
        have hxz : x = z := Option.some.inj (hsame 0 (Nat.succ_pos i))
        rw [bytesBefore, if_pos hxz]
        exact ih (fun j hj => hsame (j + 1) (Nat.succ_lt_succ hj)) hy hlt

/-- Strings are in the order of the keys they are read off. -/
theorem Key.before_of_precedes {a b : Key} (h : a.Precedes b) (hne : a.string ≠ b.string) :
    a.string.before b.string = true := by
  obtain ⟨i, hsame, hlt⟩ := h
  -- keys with other strings part before either of them is over
  have hia : i ≤ a.stringLength := by
    refine Nat.le_of_not_lt fun hia => hne (alike_iff_string_eq.mp ?_).symm
    intro j hj
    exact (hsame j (by omega)).symm
  have hib : i ≤ b.stringLength := by
    refine Nat.le_of_not_lt fun hib => hne (alike_iff_string_eq.mp ?_)
    intro j hj
    exact hsame j (by omega)
  have hib' : i < b.stringLength := by
    apply Nat.lt_of_le_of_ne hib
    intro heq
    rw [heq, b.byteAt_stringLength] at hlt
    exact absurd hlt (UInt8.not_lt.mpr UInt8.zero_le)
  have hget : ∀ k : Key, ∀ j, j < k.stringLength → k.string.toList[j]? = some (k.byteAt j) := by
    intro k j hj
    rw [getElem?_toList (by rw [size_string]; exact hj), byteAt_string, if_pos hj]
  refine bytesBefore_of_getElem? (i := i) ?_ (hget b i hib') ?_
  · intro j hj
    rw [hget a j (Nat.lt_of_lt_of_le hj hia), hget b j (Nat.lt_of_lt_of_le hj hib), hsame j hj]
  · intro x hx
    rcases Nat.lt_or_eq_of_le hia with hia | rfl
    · rw [hget a i hia, Option.some.injEq] at hx
      rwa [← hx]
    · rw [Array.getElem?_toList, Array.getElem?_eq_none (by rw [size_string])] at hx
      cases hx

end BitTrie
