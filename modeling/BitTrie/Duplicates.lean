import BitTrie.Tree

/-!
# Entries with equal keys

Entries with equal keys hang together in one subtree whose branches have negative bits: `-1` on
the lowest level and one less on each level above.  From left to right its leaves stand in the
order of insertion.

An entry is added at the right end.  Where the right spine of the subtree skips a level, the
last leaf and the new one fill the hole; where it does not, the new entry becomes a branch over
the full part of the subtree, one level higher.  So the subtree stays as low as it can be
without moving an entry.

## Main definitions

* `Store.spine` — where the right spine of a subtree ends, and its lowest full part.
* `Edit.fillHole`, `Edit.stack`, `Edit.append` — adding an entry to a subtree of equal keys.
* `Store.nextEqual`, `Store.prevEqual` — the entries after and before one with an equal key.
* `Store.chain` — the entries met by going on in one direction.

## Main results

* `Store.chain_zero`, `Store.chain_succ` — a chain entry by entry.
-/

namespace BitTrie

/-! ### Adding an entry -/

/-- The right end of a subtree of equal keys. -/
structure Spine where
  /-- The lowest branch of the spine from which the levels go down to its end one by one. -/
  full : Slot
  /-- The last branch of the spine. -/
  last : Slot
  deriving DecidableEq, Repr, Inhabited

/-- At most `fuel` branches down the right spine. -/
def Store.spineFrom (s : Store) : (fuel : Nat) → (full last : Slot) → Outcome Spine
  | 0, _, _ => .error .endless
  | fuel + 1, full, last => do
    let above ← s.node last
    match ← above.right.follow with
    | .leaf _ => return ⟨full, last⟩
    | .branch next =>
      let below ← s.node next
      if above.bit = Int32.maxValue then throw .sumOverflow
      let skips := above.bit.toInt + 1 < below.bit.toInt
      spineFrom s fuel (if skips then next else full) next

/-- The right end of the subtree headed by `sub`.  A spine longer than the store is a loop. -/
def Store.spine (s : Store) (sub : Slot) : Outcome Spine := s.spineFrom (s.size + 1) sub sub

namespace Edit

/-- Hang the leaf on the right of `last`, and `new` after it, from `new` as a branch of the
lowest level in the leaf's old place. -/
def fillHole (last leaf new : Slot) : Edit Unit := do
  let branchNew ← ofOutcome (ChildLink.ofChild (.branch new))
  modifyNode last (·.setChild .right branchNew)
  let place := (← node leaf).leafUp
  let leftOfNew ← ofOutcome (ParentLink.ofPlace (.under new .left))
  let rightOfNew ← ofOutcome (ParentLink.ofPlace (.under new .right))
  let leafOld ← ofOutcome (ChildLink.ofChild (.leaf leaf))
  let leafNew ← ofOutcome (ChildLink.ofChild (.leaf new))
  modifyNode leaf fun n => { n with leafUp := leftOfNew }
  modifyNode new fun _ => ⟨-1, leafOld, leafNew, place, rightOfNew⟩

/-- Put `new` in the place of the branch `full`, with that branch on its left and `new` as a
leaf on its right, one level above. -/
def stack (full new : Slot) : Edit Unit := do
  let place := (← node full).branchUp
  let branchNew ← ofOutcome (ChildLink.ofChild (.branch new))
  hang place branchNew
  let leftOfNew ← ofOutcome (ParentLink.ofPlace (.under new .left))
  let rightOfNew ← ofOutcome (ParentLink.ofPlace (.under new .right))
  let branchFull ← ofOutcome (ChildLink.ofChild (.branch full))
  let leafNew ← ofOutcome (ChildLink.ofChild (.leaf new))
  modifyNode full fun n => { n with branchUp := leftOfNew }
  let bit := (← node full).bit
  if bit = Int32.minValue then throw .differenceOverflow
  modifyNode new fun _ => ⟨bit - 1, branchFull, leafNew, place, rightOfNew⟩

/-- Add `new` after every entry of the subtree of equal keys headed by `sub`. -/
def append (sub new : Slot) : Edit Slot := do
  let spine ← ask (·.store.spine sub)
  let last ← node spine.last
  if last.bit.toInt < -1 then
    fillHole spine.last (← ofOutcome last.right.follow).slot new
  else
    stack spine.full new
  return new

end Edit

/-! ### Walking over them -/

/-- At most `fuel` links up inside a subtree of equal keys, until the walk comes from the side
`origin`; then over to the other side and down to the nearest leaf. -/
def Store.stepFrom (s : Store) (origin : Side) : (fuel : Nat) → ParentLink →
    Outcome (Option Slot)
  | 0, _ => .error .endless
  | fuel + 1, up => do
    match ← up.follow with
    | .root => return none
    | .under p side =>
      let parent ← s.node p
      if !parent.overEqualKeys then return none
      if side = origin then
        return some (← s.outermost origin (parent.child origin.opposite))
      stepFrom s origin fuel parent.branchUp

/-- The neighbour of an entry among those with an equal key, seen from the side `origin`: the
next one from the left, the previous one from the right. -/
def Store.step (s : Store) (origin : Side) (i : Slot) : Outcome (Option Slot) := do
  let n ← s.node i
  if n.leafUp = .null then return none
  s.stepFrom origin (s.size + 1) n.leafUp

/-- The next entry with an equal key, in the order of insertion. -/
def Store.nextEqual (s : Store) (i : Slot) : Outcome (Option Slot) := s.step .left i

/-- The previous entry with an equal key, in the order of insertion. -/
def Store.prevEqual (s : Store) (i : Slot) : Outcome (Option Slot) := s.step .right i

/-- An entry, followed by those met by at most `limit` steps in one direction. -/
def Store.chain (s : Store) (origin : Side) : (limit : Nat) → Slot → Outcome (List Slot)
  | 0, i => .ok [i]
  | limit + 1, i => do
    match ← s.step origin i with
    | none => return [i]
    | some j => return i :: (← s.chain origin limit j)

/-- An entry and all that come after it with an equal key.  A chain with more entries than the
store has slots has met one twice, and goes on forever. -/
def Store.equalEntries (s : Store) (i : Slot) : Outcome (List Slot) := do
  let entries ← s.chain .left (s.size + 1) i
  if entries.length ≤ s.size then return entries else throw .endless

theorem Store.chain_zero (s : Store) (origin : Side) (i : Slot) :
    s.chain origin 0 i = .ok [i] := rfl

theorem Store.chain_succ (s : Store) (origin : Side) (limit : Nat) (i : Slot) :
    s.chain origin (limit + 1) i = (do
      match ← s.step origin i with
      | none => return [i]
      | some j => return i :: (← s.chain origin limit j)) := rfl

end BitTrie
