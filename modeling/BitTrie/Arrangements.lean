/-!
# Arrangements of a list

A search goes through all orders of the items of a list, in dictionary order of positions.  It
fills a draft place by place.  For each place it goes through the positions of the list, passes
those that are taken, takes one, fills the places after it in every way, and puts the item back.
A full draft is handed to a visitor.  Equal items are told apart by their positions.

## Main definitions

* `Draft` — a partly filled arrangement, and the positions that are taken.
* `Draft.take`, `Draft.putBack` — filling a place, and undoing it.
* `arrangeFrom`, `forEachArrangement` — the search.
* `arrangements` — what it hands to a visitor, in order.

## Main results

* `Draft.putBack_take` — putting back an item leaves the draft as it was before.
* `arrangements_nil` — no items have one arrangement, the empty one.
-/

namespace BitTrie

variable {α : Type} {n : Nat} {m : Type → Type}

/-- A partly filled arrangement of `n` items. -/
structure Draft (α : Type) (n : Nat) where
  /-- Which positions are taken. -/
  taken : Vector Bool n
  /-- The items taken, in the order in which they were. -/
  chosen : Array α

namespace Draft

/-- The draft that has nothing. -/
def blank (α : Type) (n : Nat) : Draft α n := ⟨.replicate n false, #[]⟩

/-- Whether a position is taken. -/
def isTaken (d : Draft α n) (i : Fin n) : Bool := d.taken[i]

/-- Fill the next place with the item `x` of position `i`. -/
def take (d : Draft α n) (i : Fin n) (x : α) : Draft α n :=
  ⟨d.taken.set i true, d.chosen.push x⟩

/-- Clear the last place, which has the item of position `i`. -/
def putBack (d : Draft α n) (i : Fin n) : Draft α n := ⟨d.taken.set i false, d.chosen.pop⟩

/-- What is put back leaves no trace. -/
theorem putBack_take (d : Draft α n) {i : Fin n} (h : d.isTaken i = false) (x : α) :
    (d.take i x).putBack i = d := by
  obtain ⟨taken, chosen⟩ := d
  have htaken : taken.set i false = taken := by
    rw [← h]
    exact Vector.set_getElem_self i.isLt
  simp only [putBack, take, Array.pop_push, Vector.set_set, htaken]

end Draft

/-- Hand every arrangement to `visit` that goes on from a draft with `left` places to fill, and
give the draft that is left behind. -/
def arrangeFrom [Monad m] (items : List α) (visit : List α → m Unit) : (left : Nat) →
    Draft α items.length → m (Draft α items.length)
  | 0, d => do
    visit d.chosen.toList
    return d
  | left + 1, d =>
    (List.finRange items.length).foldlM (fun d i => do
      if d.isTaken i then return d
      let after ← arrangeFrom items visit left (d.take i items[i])
      return after.putBack i) d

/-- Hand every arrangement of the items to `visit`. -/
def forEachArrangement [Monad m] (items : List α) (visit : List α → m Unit) : m Unit := do
  let _ ← arrangeFrom items visit items.length (.blank α items.length)

/-- All orders of the items of a list. -/
def arrangements (items : List α) : List (List α) :=
  let collect : List α → StateM (Array (List α)) Unit := fun order => modify (·.push order)
  ((forEachArrangement items collect).run #[]).2.toList

theorem arrangements_nil : arrangements ([] : List α) = [[]] := rfl

end BitTrie
