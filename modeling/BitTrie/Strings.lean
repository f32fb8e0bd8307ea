import BitTrie.Insert
import BitTrie.Lookup

/-!
# Terminated strings as keys

The string of a key is what stands before its first zero byte, or the whole key when it has
none.  A string is inserted and looked up together with its terminator, so no string is a
prefix of another and `ab` comes before `abc`.

## Main definitions

* `Plot.findString` — the oldest entry with a given string.
* `Plot.findStringOf` — the same for the first bytes of a query.
* `Edit.insertString` — insert a record keyed by its string.

## Main results

* `Key.stringLength_le` — a string is no longer than its key.
* `Key.byteAt_stringLength` — after its string every key reads zero.
-/

namespace BitTrie

namespace Key

theorem stringLength_le (k : Key) : k.stringLength ≤ k.size := Array.findIdx_le_size

/-- The byte after the string is a terminator, written or read past the end. -/
theorem byteAt_stringLength (k : Key) : k.byteAt k.stringLength = 0 := by
  rcases Nat.lt_or_ge k.stringLength k.size with h | h
  · rw [byteAt_of_lt h]
    exact eq_of_beq (Array.findIdx_getElem (w := h))
  · exact byteAt_of_size_le h

end Key

/-- The first entry whose string is that of the query. -/
def Plot.findString (p : Plot) (query : Key) : Outcome (Option Slot) :=
  p.find (query.truncate query.stringLength) (query.stringLength + 1)

/-- The first entry whose key starts with the first `len` bytes of the query, provided that its
string ends right there. -/
def Plot.findStringOf (p : Plot) (query : Key) (len : Nat) : Outcome (Option Slot) := do
  match ← p.find query len with
  | none => return none
  | some i => return if (← p.store.key i).byteAt len = 0 then some i else none

/-- Insert a record keyed by its string, as `Edit.insert` does. -/
def Edit.insertString (new : Slot) : Edit Slot := do
  let key ← ask (·.store.key new)
  insert new (key.stringLength + 1)

end BitTrie
