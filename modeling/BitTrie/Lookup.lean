import BitTrie.Tree

/-!
# Looking up a key

A lookup over `len` bytes asks for the leftmost entry whose key starts with the first `len`
bytes of the query, with zeros read past the end of either.  On the way down no byte is
compared twice: the key of the slot met on the way vouches for all that hang below it, so only
the bytes between the last decision and the next one are compared, and of the byte that holds
the next decision only the bits before it.

## Main definitions

* `Key.agreeBefore` — two bytes agree on their first bits.
* `Store.findFrom` — the walk down from a link.
* `Plot.find` — the lookup in a tree.

## Main results

* `Key.agreeBefore_zero` — nothing is asked of the byte when the decision is on its first bit.
* `Plot.find_zero` — a lookup over no bytes gives the leftmost entry.
-/

namespace BitTrie

/-- Whether byte `i` of two keys agrees on its first `n` bits. -/
def Key.agreeBefore (a b : Key) (i n : Nat) : Bool :=
  (a.byteAt i).toNat >>> (8 - n) == (b.byteAt i).toNat >>> (8 - n)

theorem Key.agreeBefore_zero (a b : Key) (i : Nat) : a.agreeBefore b i 0 = true := by
  have zero : ∀ x : UInt8, x.toNat >>> 8 = 0 := fun x => by
    have := x.toNat_lt
    rw [Nat.shiftRight_eq_div_pow]
    omega
  simp [agreeBefore, zero]

/-- At most `fuel` links down, the first `pos` bytes of the query being done with. -/
def Store.findFrom (s : Store) (query : Key) (len : Nat) : (fuel : Nat) → ChildLink →
    (pos : Nat) → Outcome (Option Slot)
  | 0, _, _ => .error .endless
  | fuel + 1, link, pos => do
    let child ← link.follow
    let stored ← s.key child.slot
    match child with
    | .leaf i => return if stored.agreeOn query pos len then some i else none
    | .branch i =>
      let n ← s.node i
      if n.overEqualKeys then
        -- The oldest entry speaks for all below: later ones may have shorter keys.
        let oldest ← s.outermost .left link
        return if (← s.key oldest).agreeOn query pos len then some oldest else none
      let bit := n.bit.toInt.toNat
      let byte := bit / 8
      if !stored.agreeOn query pos (min byte len) then return none
      if len ≤ byte then return some (← s.outermost .left n.left)
      let pos := max pos byte
      if !stored.agreeBefore query pos (bit % 8) then return none
      findFrom s query len fuel (n.child (.ofBit (query.bitAt (8 * pos + bit % 8)))) pos

/-- The leftmost entry whose key starts with the first `len` bytes of the query.  The walk is
bounded by the pairs of a slot and a byte position it can be at; one that meets a pair twice
goes on forever. -/
def Plot.find (p : Plot) (query : Key) (len : Nat) : Outcome (Option Slot) :=
  if p.tree.isEmpty then .ok none
  else if len = 0 then some <$> p.store.outermost .left p.tree.top
  else p.store.findFrom query len ((p.store.size + 1) * (p.store.size + 1)) p.tree.top 0

/-- Over no bytes every key matches, so the leftmost entry is found. -/
theorem Plot.find_zero (p : Plot) (query : Key) : p.find query 0 = p.first := by
  simp [find, first]

end BitTrie
