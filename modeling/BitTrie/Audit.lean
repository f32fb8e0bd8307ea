import BitTrie.Flaw

/-!
# Auditing a tree

An audit visits every place of a tree from left to right and asks whether what it meets there
can be right.  It trusts nothing it has not checked: the links may be damaged in any way.

* Each slot met must have its link back to the place it was met at.
* A branch must decide later than the one above it, must have something on both sides, and must
  have the entry of its own slot below it.  Levels over equal keys count upward, and nothing but
  levels may hang below a level.
* An entry must agree with the key of every branch above it before the branch's bit, and must
  stand on the side its own bit says.  Below a branch over equal keys the oldest entry stands
  for all, and each entry must agree with it as far as its own key goes.

The audit reports the first flaw it meets, or the number of entries.

## Main definitions

* `Turn`, `Visit` — a decision on the way down, and a place to look at.
* `Store.ownsLeaf` — whether the entry of a branch's own slot is below the branch.
* `Store.inspectEntry`, `Plot.inspectBranch` — the questions asked of an entry and of a branch.
* `Plot.audit` — the audit of a tree.

## Main results

* `bitsInOrder_of_nonneg`, `bitsInOrder_of_neg` — when a branch may hang below another.
* `Plot.audit_of_isEmpty` — an empty tree has no flaws and no entries.
-/

namespace BitTrie

/-- A question that is answered, or cut short by a flaw, or by a fault. -/
abbrev Inspection := ExceptT Flaw Outcome

/-- A decision taken on the way down. -/
structure Turn where
  /-- The branch that decides. -/
  branch : Slot
  /-- The side that was taken. -/
  side : Side
  /-- The bit of the branch. -/
  bit : Int32
  deriving DecidableEq, Inhabited

/-- A place to look at. -/
structure Visit where
  /-- The link that hangs there. -/
  link : ChildLink
  /-- The decisions that lead there, the last one first. -/
  turns : List Turn
  deriving DecidableEq, Inhabited

/-- The place of a visit. -/
def Visit.place (v : Visit) : Place :=
  match v.turns with
  | [] => .root
  | t :: _ => .under t.branch t.side

/-- What has been met so far. -/
structure Survey where
  /-- The slots met as leaves. -/
  leaves : Array Bool
  /-- The slots met as branches. -/
  branches : Array Bool
  /-- The number of entries. -/
  entries : Nat
  deriving DecidableEq, Inhabited

/-! ### Branches -/

/-- Whether a branch on `child` may hang below one on `parent`. -/
def bitsInOrder (parent child : Int32) : Bool :=
  if child.toInt < 0 then decide (0 ≤ parent.toInt) || decide (parent.toInt < child.toInt)
  else decide (0 ≤ parent.toInt) && decide (parent.toInt < child.toInt)

theorem bitsInOrder_of_nonneg {parent child : Int32} (h : 0 ≤ child.toInt) :
    bitsInOrder parent child = true ↔ 0 ≤ parent.toInt ∧ parent.toInt < child.toInt := by
  simp [bitsInOrder, Int.not_lt.mpr h]

theorem bitsInOrder_of_neg {parent child : Int32} (h : child.toInt < 0) :
    bitsInOrder parent child = true ↔ 0 ≤ parent.toInt ∨ parent.toInt < child.toInt := by
  simp [bitsInOrder, h]

/-- At most `fuel` links up, until `branch` is met, or the root or nothing. -/
def Store.climbTo (s : Store) (branch : Slot) : (fuel : Nat) → ParentLink → Except Flaw Bool
  | 0, _ => .error (.loopAbove branch)
  | fuel + 1, up =>
    match up.place? with
    | none => .ok false
    | some .root => .ok false
    | some (.under p _) =>
      if p = branch then .ok true
      else match s.node p with
        | .error _ => .error (.dangling p)
        | .ok n => climbTo s branch fuel n.branchUp

/-- Whether the way up from the entry of a branch's own slot passes through the branch. -/
def Store.ownsLeaf (s : Store) (branch : Slot) (n : Node) : Except Flaw Bool :=
  s.climbTo branch (s.size + 1) n.leafUp

/-- The questions asked of a branch, and the two places below it. -/
def Plot.inspectBranch (p : Plot) (i : Slot) (n : Node) (v : Visit) (survey : Survey) :
    Inspection (List Visit × Survey) := do
  if n.branchUp.place? ≠ some v.place then throw (.branchElsewhere i v.place)
  if survey.branches.getD i false then throw (.revisited i)
  if n.overEqualKeys && p.tree.unique then throw (.equalKeysInUnique i)
  if let above :: _ := v.turns then
    if !bitsInOrder above.bit n.bit then throw (.bitOrder above.branch above.bit i n.bit)
  match p.store.ownsLeaf i n with
  | .error flaw => throw flaw
  | .ok false => throw (.leafOutside i)
  | .ok true =>
    if n.right = .null then throw (.missingChild i .right)
    if n.left = .null then throw (.missingChild i .left)
    let below (side : Side) : Visit := ⟨n.child side, ⟨i, side, n.bit⟩ :: v.turns⟩
    return ([below .left, below .right],
      { survey with branches := survey.branches.setIfInBounds i true })

/-! ### Entries -/

/-- The key that decides where an entry belongs: its own, or below a branch over equal keys that
of the oldest entry there, with which its own must agree. -/
def Store.decisiveKey (s : Store) (i : Slot) (turns : List Turn) : Inspection Key := do
  let key ← s.key i
  match turns.find? (·.bit.toInt < 0) with
  | none => return key
  | some head =>
    let oldest ← s.key (← s.outermost .left (← ChildLink.ofChild (.branch head.branch)))
    if !key.agreeOn oldest 0 key.size then throw (.unequalKeys head.branch)
    return oldest

/-- Whether a key belongs where a turn on the way down leads. -/
def Store.inspectTurn (s : Store) (leaf : Slot) (key : Key) (t : Turn) : Inspection Unit := do
  if 0 ≤ t.bit.toInt then
    let bit := t.bit.toInt.toNat
    let branchKey ← s.key t.branch
    if (← key.scanDiff branchKey 0 bit) < bit then throw (.misplaced leaf t.branch t.bit)
    if key.bitAt bit ≠ t.side.bit then throw (.wrongSide leaf t.branch t.bit t.side)

/-- The questions asked of an entry. -/
def Store.inspectEntry (s : Store) (i : Slot) (n : Node) (v : Visit) (survey : Survey) :
    Inspection (List Visit × Survey) := do
  if n.leafUp.place? ≠ some v.place then throw (.leafElsewhere i v.place)
  if survey.leaves.getD i false then throw (.revisited i)
  let turns := v.turns.reverse
  let key ← s.decisiveKey i turns
  turns.forM (s.inspectTurn i key)
  return ([], { survey with
    leaves := survey.leaves.setIfInBounds i true, entries := survey.entries + 1 })

/-! ### The audit -/

/-- Look at one place, and give the places below it. -/
def Plot.inspect (p : Plot) (v : Visit) (survey : Survey) :
    Inspection (List Visit × Survey) := do
  let child ← v.link.follow
  if p.store.size ≤ child.slot then throw (.dangling child.slot)
  let n ← p.store.node child.slot
  match child with
  | .leaf i => p.store.inspectEntry i n v survey
  | .branch i => p.inspectBranch i n v survey

/-- At most `fuel` visits, those to make being listed from left to right. -/
def Plot.auditFrom (p : Plot) : (fuel : Nat) → List Visit → Survey → Inspection Nat
  | _, [], survey => return survey.entries
  | 0, _ :: _, _ => throwThe Fault .endless
  | fuel + 1, v :: rest, survey => do
    let (below, survey) ← p.inspect v survey
    auditFrom p fuel (below ++ rest) survey

/-- The first flaw of a tree, or the number of its entries.  No slot is met twice in the same
role, so there are at most two visits for each slot besides the first. -/
def Plot.audit (p : Plot) : Outcome (Except Flaw Nat) :=
  if p.tree.isEmpty then .ok (.ok 0)
  else
    let unseen := Array.replicate p.store.size false
    p.auditFrom (2 * p.store.size + 1) [⟨p.tree.top, []⟩] ⟨unseen, unseen, 0⟩

/-- An empty tree has no flaws and no entries. -/
theorem Plot.audit_of_isEmpty {p : Plot} (h : p.tree.isEmpty = true) :
    p.audit = .ok (.ok 0) := by
  simp [audit, h]

end BitTrie
