import BitTrie.Duplicates

/-!
# Inserting a record

An insertion first looks for the place where the new entry belongs, without changing anything,
and then makes the few writes that hang it there.

The way down compares the first `len` bytes of the new key with the keys of the slots it meets.
A position `bit` says how far the comparison has come: bits that one slot has shown equal are
not compared again further down.  A branch on bit `b` shares its first `b` bits with all that
hang below it, so

* where the keys differ before `b`, the new entry is spliced in above the branch;
* where they do not, the way goes down on the side of bit `b` of the new key.

The way ends at a leaf, or at a branch over equal keys, whose oldest entry speaks for all.  The
keys differ there, and the new entry is spliced in; or they are equal, and the new entry is
turned down, makes a pair with the leaf, or is added to the subtree of equal keys.

## Main definitions

* `Landing` — what the way down has found.
* `Store.landFrom`, `Plot.landing` — the way down.
* `Edit.splice`, `Edit.settle` — hanging the new entry where it belongs.
* `Edit.insert` — the insertion.

## Main results

* `Edit.insert_of_isResident`, `Edit.insert_of_tooLong` — what is refused before any write.
-/

namespace BitTrie

/-! ### The way down -/

/-- Where a new entry belongs. -/
inductive Landing where
  /-- An equal key is present, and the tree holds every key once. -/
  | present (old : Slot)
  /-- After all entries of the subtree of equal keys headed by `head`. -/
  | append (head : Slot)
  /-- In `place`, where `old` hangs now, as a branch with the new leaf on `side` and `old` on
  the other. -/
  | splice (place : Place) (old : Child) (side : Side) (bit : Int32)
  deriving DecidableEq, Inhabited

/-- The landing of a key that first differs from the entries below `old` at `bit`. -/
def Landing.apart (key : Key) (place : Place) (old : Child) (bit : Nat) : Landing :=
  .splice place old (.ofBit (key.bitAt bit)) (Int32.ofNat bit)

/-- At most `fuel` links down from `link`, which hangs in `place`, for a key of `bits` bits of
which those before `bit` need no comparison. -/
def Store.landFrom (s : Store) (unique : Bool) (key : Key) (bits : Nat) : (fuel : Nat) →
    Place → ChildLink → (bit : Nat) → Outcome Landing
  | 0, _, _, _ => .error .endless
  | fuel + 1, place, link, bit => do
    let child ← link.follow
    let resident ← s.key child.slot
    match child with
    | .leaf old =>
      let bit ← key.scanDiff resident bit bits
      if bit < bits then return .apart key place child bit
      else if unique then return .present old
      else return .splice place child .right (-1)
    | .branch old =>
      let n ← s.node old
      if n.overEqualKeys then
        let oldest ← s.key (← s.outermost .left link)
        let bit ← key.scanDiff oldest bit bits
        if bit < bits then return .apart key place child bit
        else if unique then throw .duplicatesInUnique
        else return .append old
      -- Bits past the new key never split: it goes on down and is settled at the bottom.
      let limit := min n.bit.toInt.toNat bits
      let bit ← if bit < limit then key.scanDiff resident bit limit else pure bit
      if bit < limit then return .apart key place child bit
      let side := Side.ofBit (key.bitAt n.bit.toInt.toNat)
      landFrom s unique key bits fuel (.under old side) (n.child side) bit

/-- Where a new entry with the key `key`, of `bits` bits, belongs in a tree that has entries.
The way down from a slot is the same at every visit, so a slot met twice is met forever. -/
def Plot.landing (p : Plot) (key : Key) (bits : Nat) : Outcome Landing :=
  p.store.landFrom p.tree.unique key bits (p.store.size + 1) .root p.tree.top 0

/-! ### The writes -/

namespace Node

/-- The parent link of a node in one of its roles. -/
def up (n : Node) : Role → ParentLink
  | .branch => n.branchUp
  | .leaf => n.leafUp

/-- The node with the parent link of one of its roles replaced. -/
def setUp (n : Node) : Role → ParentLink → Node
  | .branch, l => { n with branchUp := l }
  | .leaf, l => { n with leafUp := l }

end Node

namespace Edit

/-- Put `new` in `place` as a branch on `bit`, with itself as a leaf on `side` and `old`, which
hung there before, on the other side. -/
def splice (place : Place) (old : Child) (new : Slot) (side : Side) (bit : Int32) :
    Edit Unit := do
  let oldUp := (← node old.slot).up old.role
  let newSide ← ofOutcome (ParentLink.ofPlace (.under new side))
  let oldSide ← ofOutcome (ParentLink.ofPlace (.under new side.opposite))
  let leafNew ← ofOutcome (ChildLink.ofChild (.leaf new))
  let branchNew ← ofOutcome (ChildLink.ofChild (.branch new))
  let childOld ← ofOutcome (ChildLink.ofChild old)
  modifyNode new fun n => { n with branchUp := oldUp }
  modifyNode old.slot (·.setUp old.role oldSide)
  modifyNode new fun n =>
    { ((n.setChild side leafNew).setChild side.opposite childOld) with
      bit := bit, leafUp := newSide }
  hangAt place branchNew

/-- Hang `new` where it belongs, and give the entry that now stands for its key. -/
def settle (new : Slot) : Landing → Edit Slot
  | .present old => return old
  | .append head => append head new
  | .splice place old side bit => do
    splice place old new side bit
    return new

/-- Insert a record that is in no tree, keyed by the first `len` bytes of its key, and give the
entry that now stands for that key: the new one, or, in a tree that holds every key once, the
one that was there before.  That the record is in no tree is an assertion of checked builds only;
others leave it to the caller. -/
def insert (new : Slot) (len : Nat) : Edit Slot := do
  if ← ask (·.store.isResident new) then throw (.alreadyResident new)
  let bits ← ofOutcome (Key.bitLength len)
  if ← ask (fun p => .ok p.tree.isEmpty) then plant new
  else
    let key ← ask (·.store.key new)
    settle new (← ask (·.landing (key.truncate len) bits))

/-- A record that is in a tree is refused, and nothing is written. -/
theorem insert_of_isResident {p : Plot} {new : Slot} (h : p.store.isResident new = .ok true)
    (len : Nat) : insert new len p = .error (.alreadyResident new) p := by
  rw [insert, bind_of_ok (ask_of_ok h)]
  rfl

/-- A key that is too long is refused, and nothing is written. -/
theorem insert_of_tooLong {p : Plot} {new : Slot} (h : p.store.isResident new = .ok false)
    {len : Nat} (hlen : maxKeyLength < len) : insert new len p = .error (.keyTooLong len) p := by
  have hbits : ask (fun _ => Key.bitLength len) p = .error (.keyTooLong len) p :=
    ask_of_error (by rw [Key.bitLength, if_neg (Nat.not_le.mpr hlen)])
  rw [insert, bind_of_ok (ask_of_ok h)]
  exact bind_of_error hbits

end Edit

end BitTrie
