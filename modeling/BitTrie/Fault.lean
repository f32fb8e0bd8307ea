/-!
# Faults

A call that is not covered by the library's contract — a link followed that leads nowhere, a
slot that does not exist, a record attached twice — ends in a *fault*.  A fault says what went
wrong; what was written before it stays written.

A fault is not a search result: a key that is not found, or a key that is turned down because
an equal one is present, is an ordinary answer.

## Main definitions

* `Fault` — the causes.
* `Fault.message` — the text of each cause.
-/

namespace BitTrie

/-- The number of slots a store can hold, and the first slot no link can name. -/
def maxSlots : Nat := 2147483646

/-- The longest key, in bytes, all of whose bit positions fit a node. -/
def maxKeyLength : Nat := 268435455

/-- Why a call came to no answer. -/
inductive Fault where
  /-- A slot was read that the store of `size` slots does not have. -/
  | noSuchSlot (size slot : Nat)
  /-- A forest was asked for a tree that it does not have. -/
  | noSuchTree (tree : Nat)
  /-- A link was followed that leads nowhere. -/
  | nullLink
  /-- A link was asked for to a slot past the last one. -/
  | slotTooLarge
  /-- A record was inserted that already hangs in a tree.  That it does not is an assertion of
  checked builds only; others go on with the insertion. -/
  | alreadyResident (slot : Nat)
  /-- A key was inserted over more bytes than a bit position can count. -/
  | keyTooLong (length : Nat)
  /-- A tree that holds every key once has a subtree of equal keys. -/
  | duplicatesInUnique
  /-- A first record was attached to a tree that has one. -/
  | treeNotEmpty
  /-- A sum left the 32-bit range of a bit position or a level. -/
  | sumOverflow
  /-- A level was to be lowered that is already the lowest. -/
  | differenceOverflow
  /-- A record was added to a store that has no slot left. -/
  | storeFull (capacity : Nat)
  /-- A tree and the index it is compared with answer differently. -/
  | disagreement (left right : String)
  /-- A walk over damaged links that never comes to an end. -/
  | endless
  deriving DecidableEq, Repr, Inhabited

/-- The text of a store that can take no more than `capacity` records. -/
def storeFullText (capacity : Nat) : String :=
  s!"arena is full: at most {capacity} nodes can be allocated"

/-- The text of a fault. -/
def Fault.message : Fault → String
  | noSuchSlot size slot => s!"index out of bounds: the len is {size} but the index is {slot}"
  | noSuchTree tree => s!"no such tree: {tree}"
  | nullLink => "assertion failed: !self.is_null()"
  | slotTooLarge => "assertion failed: node.0 <= NodeId::MAX"
  | alreadyResident slot => s!"node #{slot} is already resident"
  | keyTooLong length =>
    s!"key too long: {length} bytes, at most {maxKeyLength} are supported"
  | duplicatesInUnique => "duplicate subtree in a unique tree"
  | treeNotEmpty => "assertion failed: self.is_empty()"
  | sumOverflow => "attempt to add with overflow"
  | differenceOverflow => "attempt to subtract with overflow"
  | storeFull capacity => storeFullText capacity
  | disagreement left right =>
    "assertion `left == right` failed\n  left: " ++ left ++ "\n right: " ++ right
  | endless => "the links form a loop"

/-- The outcome of a call: an answer, or the fault it ended in. -/
abbrev Outcome := Except Fault

end BitTrie
