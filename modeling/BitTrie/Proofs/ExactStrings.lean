import BitTrie.Proofs.StringMap

/-!
# Two lookups of a string

There are two ways to look up a string that is given by the first bytes of a query.  One looks for
these bytes and a terminator.  The other looks for the bytes only, and then tests one byte of what
it has found.  What it has found is one of maybe many entries that begin with the bytes.  But it is
the foremost of them, and a zero is the smallest byte, so if the string is there at all it stands
in front of all its extensions.

## Main definitions

* `Forest.hungAs` — the records of a string that a run hangs in a tree.

## Main results

* `Key.alike_truncate_iff` — agreement with the first bytes of a query and a terminator.
* `Plot.Bears.findStringOf_eq_find` — testing one byte of what is found is as good as looking for
  it.
* `Plot.Bears.findStringOf_eq` — **the two lookups agree**, in any sound tree.
* `Forest.calls_findStringOf` — **the same after any run**, and what they find in a tree of
  strings.
-/

namespace BitTrie

namespace Key

variable {a k : Key} {len : Nat}

/-- Agreement with the first bytes of a key and a terminator is agreement over these bytes, and a
zero byte after them. -/
theorem alike_truncate_iff :
    a.Alike (k.truncate len) (len + 1) ↔ a.Alike k len ∧ a.byteAt len = 0 := by
  constructor
  · intro h
    constructor
    · intro i hi
      rw [h i (Nat.lt_succ_of_lt hi), byteAt_truncate, if_pos hi]
    · rw [h len (Nat.lt_succ_self len), byteAt_truncate, if_neg (Nat.lt_irrefl len)]
  · rintro ⟨halike, hzero⟩ i hi
    rw [byteAt_truncate]
    rcases Nat.lt_succ_iff_lt_or_eq.mp hi with hi | rfl
    · rw [if_pos hi]
      exact halike i hi
    · rw [if_neg (Nat.lt_irrefl i)]
      exact hzero

/-- Bytes that are not zero are bytes of the key. -/
theorem le_size_of_byteAt_ne (h : ∀ i, i < len → k.byteAt i ≠ 0) : len ≤ k.size :=
  Nat.le_of_not_lt fun hlt => h k.size hlt (byteAt_of_size_le (Nat.le_refl _))

theorem stringLength_truncate (h : ∀ i, i < len → k.byteAt i ≠ 0) :
    (k.truncate len).stringLength = len := by
  refine stringLength_eq ?_ ?_
  · intro i hi
    rw [byteAt_truncate, if_pos hi]
    exact h i hi
  · rw [byteAt_truncate, if_neg (Nat.lt_irrefl len)]

/-- First bytes without a zero among them are a string. -/
theorem string_truncate (h : ∀ i, i < len → k.byteAt i ≠ 0) :
    (k.truncate len).string = k.truncate len := by
  have hsize : (k.truncate len).size = len := by
    rw [truncate, Array.size_extract, Nat.min_eq_left (le_size_of_byteAt_ne h), Nat.sub_zero]
  have hwhole : (k.truncate len).truncate (k.truncate len).size = k.truncate len :=
    Array.extract_size
  rw [string, stringLength_truncate h]
  rwa [hsize] at hwhole

end Key

/-! ### One byte is enough -/

namespace Plot

variable {p : Plot} {o : Option Shape} {query : Key} {len : Nat} {i : Slot}

/-- The test of one byte of what has been found. -/
theorem Bears.findStringOf_of_find (h : p.Bears o) (hfind : p.find query len = .ok (some i)) :
    p.findStringOf query len =
      .ok (if (p.store.keyAt i).byteAt len = 0 then some i else none) := by
  obtain ⟨⟨g, hg, rfl⟩, -, -⟩ := h.find_eq_some_iff.mp hfind
  have hkey := Store.key_eq_ok (h.lt_size (oldest_mem_entries hg))
  rw [findStringOf, hfind]
  simp only [bind, Except.bind, hkey]
  rfl

theorem findStringOf_of_find_none (hfind : p.find query len = .ok none) :
    p.findStringOf query len = .ok none := by
  rw [findStringOf, hfind]
  rfl

theorem Bears.findStringOf_eq_some_iff (h : p.Bears o) : p.findStringOf query len = .ok (some i) ↔
    p.find query len = .ok (some i) ∧ (p.store.keyAt i).byteAt len = 0 := by
  rcases h.find_cases query len with ⟨hfind, -⟩ | ⟨j, hfind, -⟩
  · rw [findStringOf_of_find_none hfind, hfind]
    exact iff_of_false (fun heq => by cases heq) fun heq => by cases heq.1
  · rw [h.findStringOf_of_find hfind, hfind]
    split
    · next hzero =>
      refine ⟨fun heq => ⟨heq, ?_⟩, fun heq => heq.1⟩
      cases heq
      exact hzero
    · next hbyte =>
      refine iff_of_false (fun heq => by cases heq) ?_
      rintro ⟨heq, hzero⟩
      cases heq
      exact hbyte hzero

/-- **The test is enough**: it finds what a lookup of the bytes and a terminator finds. -/
theorem Bears.findStringOf_eq_find (h : p.Bears o) (query : Key) (len : Nat) :
    p.findStringOf query len = p.find (query.truncate len) (len + 1) := by
  rcases h.find_cases query len with ⟨hfind, hnone⟩ | ⟨i, hfind, holdest, hagrees, hfirst⟩
  · rw [findStringOf_of_find_none hfind, eq_comm, h.find_eq_none_iff]
    exact fun g hg halike => hnone g hg (Key.alike_truncate_iff.mp halike).1
  · rw [h.findStringOf_of_find hfind, eq_comm]
    split
    · next hzero =>
      exact h.find_eq_some_iff.mpr ⟨holdest, Key.alike_truncate_iff.mpr ⟨hagrees, hzero⟩,
        fun g hg halike => hfirst g hg (Key.alike_truncate_iff.mp halike).1⟩
    -- a group with a zero there would come before what has been found
    · next hbyte =>
      refine h.find_eq_none_iff.mpr fun g hg halike => ?_
      obtain ⟨halike, hzero⟩ := Key.alike_truncate_iff.mp halike
      refine hfirst g hg halike ⟨len, fun j hj => (halike j hj).trans (hagrees j hj).symm, ?_⟩
      rw [hzero]
      exact UInt8.pos_iff_ne_zero.mpr hbyte

/-- **The two lookups agree.** -/
theorem Bears.findStringOf_eq (h : p.Bears o) (hquery : ∀ i, i < len → query.byteAt i ≠ 0) :
    p.findStringOf query len = p.findString (query.truncate len) := by
  have hstring : (query.truncate len).truncate (query.truncate len).stringLength =
      query.truncate len := Key.string_truncate hquery
  rw [h.findStringOf_eq_find, findString, hstring, Key.stringLength_truncate hquery]

end Plot

/-! ### Runs -/

namespace Forest

/-- The records with a string that a run hangs in a tree, in the order in which it does. -/
def hungAs (f : Forest) (t : Nat) (cs : List Call) (string : Key) : List Slot :=
  ((f.history t cs).map (·.1)).filter fun i =>
    decide (((f.calls cs).store.keyAt i).string = string)

/-- **The two lookups of a string agree, after any run**, for the first bytes of any query that have
no zero among them.  Where the tree is only inserted into by strings, a lookup of the bytes finds
the oldest entry of their string, with a terminator after them, if the run has hung any record of
that string.  If it has not, what is found has no terminator there. -/
theorem calls_findStringOf (uniques : List Bool) (cs : List Call) (t : Nat) (p : Plot)
    (hp : ((fresh uniques).calls cs).plot t = .ok p) (query : Key) (len : Nat)
    (hquery : ∀ i, i < len → query.byteAt i ≠ 0) :
    p.findStringOf query len = p.findString (query.truncate len) ∧
    ((∀ new len, Call.insert t new len ∉ cs) →
      (∀ first later, (fresh uniques).hungAs t cs (query.truncate len) = first :: later →
        p.findStringOf query len = .ok (some first) ∧ p.find query len = .ok (some first) ∧
          (p.store.keyAt first).byteAt len = 0) ∧
      ((fresh uniques).hungAs t cs (query.truncate len) = [] →
        p.findStringOf query len = .ok none ∧
          ∀ i, p.find query len = .ok (some i) → (p.store.keyAt i).byteAt len ≠ 0)) := by
  obtain ⟨shapes, hf⟩ := stands_calls uniques cs
  have hbears := hf.bears_plot hp
  have hexact := hbears.findStringOf_eq hquery
  refine ⟨hexact, fun hstrings => ?_⟩
  have hmaps := hbears.maps (rows_calls uniques cs hp hstrings)
  have hfinds : p.findStringOf query len =
      .ok ((fresh uniques).hungAs t cs (query.truncate len)).head? := by
    rw [hexact, hmaps.finds, Key.string_truncate hquery, index, Index.slotsOf_ofHistory, hungAs]
  constructor
  · intro first later hhung
    rw [hhung, List.head?_cons] at hfinds
    exact ⟨hfinds, hbears.findStringOf_eq_some_iff.mp hfinds⟩
  · intro hhung
    rw [hhung, List.head?_nil] at hfinds
    refine ⟨hfinds, fun i hfind hzero => ?_⟩
    have hfound := hbears.findStringOf_eq_some_iff.mpr ⟨hfind, hzero⟩
    rw [hfinds] at hfound
    cases hfound

/-- Of the entries `abc`, `ab` with a byte after its terminator, and `a`, the second is found by the
first two bytes of a query, and nothing by none of them. -/
theorem calls_findStringOf_ab :
    ∃ p, ((fresh [false]).calls [.add #[97, 98, 99], .add #[97, 98, 0, 7], .add #[97],
        .insertString 0 0, .insertString 0 1, .insertString 0 2]).plot 0 = .ok p ∧
      p.findStringOf #[97, 98, 120] 2 = p.findString #[97, 98] ∧
      p.findStringOf #[97, 98, 120] 2 = .ok (some 1) ∧
      p.findStringOf #[97, 98, 120] 0 = .ok none ∧ p.find #[97, 98, 120] 0 = .ok (some 2) := by
  have hp := plot_of_lt (t := 0) (f := (fresh [false]).calls [.add #[97, 98, 99],
    .add #[97, 98, 0, 7], .add #[97], .insertString 0 0, .insertString 0 1, .insertString 0 2])
    (by decide +kernel)
  obtain ⟨hexact, hstrings⟩ := calls_findStringOf [false] _ 0 _ hp #[97, 98, 120] 2 (by decide)
  obtain ⟨hpresent, -⟩ := hstrings (by simp)
  obtain ⟨-, hstrings'⟩ := calls_findStringOf [false] _ 0 _ hp #[97, 98, 120] 0 (by decide)
  obtain ⟨-, habsent⟩ := hstrings' (by simp)
  exact ⟨_, hp, hexact, (hpresent 1 [] (by decide +kernel)).1, (habsent (by decide +kernel)).1,
    by decide +kernel⟩

end Forest

end BitTrie
