import BitTrie.Audit
import BitTrie.Index
import BitTrie.Strings

/-!
# Comparing a tree with an index

A tree agrees with an index when it has no flaws, holds as many entries as the index lists
slots, and gives the slots of the index to every question that the index can answer: the first
entry of all, the entry found under each key, and the chain of entries with that key.

The comparison stops at the first question that is answered differently, with both answers
written out.

## Main definitions

* `expectEqual` — two answers that should be the same.
* `Plot.agreesOn` — the questions about one key.
* `Plot.agreesWith` — the comparison of a tree with an index.

## Main results

* `expectEqual_eq_ok_iff` — two answers pass exactly when they are the same.
-/

namespace BitTrie

/-- Pass over two answers that are the same, and stop at two that are not. -/
def expectEqual {α : Type} [DecidableEq α] (text : α → String) (left right : α) : Outcome Unit :=
  if left = right then .ok () else .error (.disagreement (text left) (text right))

theorem expectEqual_eq_ok_iff {α : Type} [DecidableEq α] {text : α → String} {left right : α} :
    expectEqual text left right = .ok () ↔ left = right := by
  by_cases h : left = right <;> simp [expectEqual, h]

namespace Written

/-- A slot that may be missing. -/
def slotOption (i : Option Slot) : String := option (i.map slotValue)

/-- A list of slots. -/
def slotList (slots : List Slot) : String := list (slots.map slotValue)

/-- The result of an audit. -/
def audit : Except Flaw Nat → String
  | .ok entries => tuple "Ok" [toString entries]
  | .error flaw => tuple "Err" [flaw.text]

end Written

/-- Pass over an audit that counted `total` entries. -/
def expectEntries (total : Nat) (found : Except Flaw Nat) : Outcome Unit :=
  match found with
  | .ok entries =>
    if entries = total then .ok ()
    else .error (.disagreement (Written.audit found) (Written.audit (.ok total)))
  | .error _ => .error (.disagreement (Written.audit found) (Written.audit (.ok total)))

/-- Ask a tree about the key of one row of an index. -/
def Plot.agreesOn (p : Plot) (strings : Bool) (r : Row) : Outcome Unit := do
  let found ← if strings then p.findString r.key else p.find r.key r.key.size
  let oldest ← r.oldest
  expectEqual Written.slotOption found (some oldest)
  expectEqual Written.slotList (← p.store.equalEntries oldest) r.slots
  expectEqual Written.slotOption (← p.store.prevEqual oldest) none

/-- Compare a tree with an index, whose keys are looked up as strings or whole. -/
def Plot.agreesWith (p : Plot) (x : Index) (strings : Bool) : Outcome Unit := do
  expectEntries x.total (← p.audit)
  let found ← p.first
  expectEqual Written.slotOption found (← x.first)
  x.rows.forM (p.agreesOn strings)

end BitTrie
