import BitTrie.Rendering

/-!
# Flaws of a tree

What can be wrong with a tree, as an audit finds it: a link and the link back that do not
match, a branch whose parts are missing or misplaced, or an entry that stands where its key
does not belong.

## Main definitions

* `Flaw` — the kinds of flaws.
* `Flaw.message` — a sentence that describes a flaw.
* `Flaw.kind`, `Flaw.text` — the name of its kind, and its written form.
-/

namespace BitTrie

/-- Something wrong with a tree. -/
inductive Flaw where
  /-- A link names a slot that the store does not have. -/
  | dangling (slot : Slot)
  /-- An entry is reached from a place that its leaf link does not name. -/
  | leafElsewhere (slot : Slot) (place : Place)
  /-- A branch is reached from a place that its branch link does not name. -/
  | branchElsewhere (slot : Slot) (place : Place)
  /-- The entry of a branch's own slot is not below the branch. -/
  | leafOutside (branch : Slot)
  /-- A branch has nothing on one of its sides. -/
  | missingChild (branch : Slot) (side : Side)
  /-- A branch hangs below one that does not decide earlier. -/
  | bitOrder (parent : Slot) (parentBit : Int32) (child : Slot) (childBit : Int32)
  /-- A key differs from that of a branch above it, before the bit the branch decides on. -/
  | misplaced (leaf branch : Slot) (bit : Int32)
  /-- A key stands on the other side of a branch than its bit says. -/
  | wrongSide (leaf branch : Slot) (bit : Int32) (side : Side)
  /-- A subtree of equal keys holds keys that differ. -/
  | unequalKeys (head : Slot)
  /-- A subtree of equal keys stands in a tree that holds every key once. -/
  | equalKeysInUnique (head : Slot)
  /-- A slot is reached a second time in the same role. -/
  | revisited (slot : Slot)
  /-- The links up from the entry of a branch's own slot form a loop. -/
  | loopAbove (branch : Slot)
  deriving DecidableEq, Inhabited

namespace Flaw

/-- The branch of a place, or none for the root, as it appears in the text of a flaw. -/
def parentText (place : Place) : String :=
  Written.option (place.parent?.map Written.slotValue)

/-- A sentence that describes a flaw. -/
def message : Flaw → String
  | dangling slot => s!"link to unallocated slot {Written.slot slot}"
  | leafElsewhere slot place =>
    s!"node {Written.slot slot} is reached as a leaf but its leaf back-link does not point to "
      ++ s!"{parentText place}/{place.side.text}"
  | branchElsewhere slot place =>
    s!"node {Written.slot slot} is reached as a branch but its branch back-link does not point "
      ++ s!"to {parentText place}/{place.side.text}"
  | leafOutside branch =>
    s!"branch {Written.slot branch} does not hold its own leaf in its subtree"
  | missingChild branch side =>
    s!"branch {Written.slot branch} has a null child on the {side.text} side"
  | bitOrder parent parentBit child childBit =>
    s!"branch {Written.slot child} (bit {Written.bit childBit}) is not below its parent "
      ++ s!"{Written.slot parent} (bit {Written.bit parentBit})"
  | misplaced leaf branch bit =>
    s!"leaf {Written.slot leaf} disagrees with branch {Written.slot branch} above bit "
      ++ Written.bit bit
  | wrongSide leaf branch bit side =>
    s!"leaf {Written.slot leaf} sits on side {side.text} of branch {Written.slot branch} but "
      ++ s!"has the other value at bit {Written.bit bit}"
  | unequalKeys head => s!"duplicate subtree {Written.slot head} holds keys that differ"
  | equalKeysInUnique head =>
    s!"duplicate subtree {Written.slot head} in a tree that only accepts unique keys"
  | revisited slot => s!"node {Written.slot slot} is reached more than once"
  | loopAbove branch => s!"node {Written.slot branch} is reached more than once"

/-- The name of a kind of flaw.  A loop shows in two ways, under one name. -/
def kind : Flaw → String
  | dangling _ => "Dangling"
  | leafElsewhere _ _ => "LeafBackLink"
  | branchElsewhere _ _ => "NodeBackLink"
  | leafOutside _ => "LeafOutsideBranch"
  | missingChild _ _ => "MissingChild"
  | bitOrder _ _ _ _ => "BitOrder"
  | misplaced _ _ _ => "Misplaced"
  | wrongSide _ _ _ _ => "WrongSide"
  | unequalKeys _ => "DupMismatch"
  | equalKeysInUnique _ => "DupInUniqueTree"
  | revisited _ => "Cycle"
  | loopAbove _ => "Cycle"

/-- The written form of a flaw. -/
def text (f : Flaw) : String :=
  match f with
  | dangling slot | leafOutside slot | revisited slot | loopAbove slot =>
    Written.tuple f.kind [Written.slotValue slot]
  | leafElsewhere slot place | branchElsewhere slot place =>
    Written.fields f.kind
      [("node", Written.slotValue slot), ("parent", parentText place), ("side", place.side.text)]
  | missingChild branch side =>
    Written.fields f.kind [("node", Written.slotValue branch), ("side", side.text)]
  | bitOrder parent parentBit child childBit =>
    Written.fields f.kind
      [("parent", Written.slotValue parent), ("parent_bit", Written.bit parentBit),
        ("child", Written.slotValue child), ("child_bit", Written.bit childBit)]
  | misplaced leaf branch bit =>
    Written.fields f.kind
      [("leaf", Written.slotValue leaf), ("branch", Written.slotValue branch),
        ("bit", Written.bit bit)]
  | wrongSide leaf branch bit side =>
    Written.fields f.kind
      [("leaf", Written.slotValue leaf), ("branch", Written.slotValue branch),
        ("bit", Written.bit bit), ("side", side.text)]
  | unequalKeys head | equalKeysInUnique head =>
    Written.fields f.kind [("node", Written.slotValue head)]

end Flaw

end BitTrie
