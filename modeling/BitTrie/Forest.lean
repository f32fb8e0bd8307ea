import BitTrie.Strings

/-!
# Several trees over one store

A store belongs to its user, and any number of trees may stand in it.  They share the slots but
nothing else: a slot hangs in at most one of them.

## Main definitions

* `Forest` — trees that share a store.
* `Forest.plot` — one of the trees with the store.
* `Forest.edit` — change one of the trees and the store.
* `Forest.add`, `Forest.addThen` — add a record, and hang it in one of the trees.
* `Forest.changesSince` — the slots whose nodes are not what they were.

## Main results

* `Forest.edit_of_ok`, `Forest.edit_of_error` — an edit changes one tree and the store; after a
  fault what it wrote is still there.
-/

namespace BitTrie

/-- Trees that share a store. -/
structure Forest where
  /-- The trees. -/
  trees : Array Tree
  /-- The records of all of them, and of no tree. -/
  store : Store
  deriving Inhabited

namespace Forest

/-- One of the trees with the store. -/
def plot (f : Forest) (t : Nat) : Outcome Plot :=
  match f.trees[t]? with
  | some tree => .ok ⟨tree, f.store⟩
  | none => .error (.noSuchTree t)

/-- Change one of the trees and the store. -/
def edit {α : Type} (f : Forest) (t : Nat) (e : Edit α) : Outcome α × Forest :=
  let ⟨trees, store⟩ := f
  match trees[t]? with
  | none => (.error (.noSuchTree t), ⟨trees, store⟩)
  | some tree =>
    match e ⟨tree, store⟩ with
    | .ok a p => (.ok a, ⟨trees.setIfInBounds t p.tree, p.store⟩)
    | .error fault p => (.error fault, ⟨trees.setIfInBounds t p.tree, p.store⟩)

/-- Add a record that is in no tree. -/
def add (f : Forest) (key : Key) : Outcome Slot × Forest :=
  match f.store.add key with
  | .ok (i, store) => (.ok i, { f with store := store })
  | .error fault => (.error fault, f)

/-- Add a record, and go on with its slot; the record stays if that ends in a fault. -/
def addThen {α : Type} (f : Forest) (key : Key) (t : Nat) (e : Slot → Edit α) :
    Outcome α × Forest :=
  match f.add key with
  | (.ok i, f) => f.edit t (e i)
  | (.error fault, f) => (.error fault, f)

/-- Replace the node of a slot by hand. -/
def modifyNode (f : Forest) (i : Slot) (change : Node → Node) : Outcome Forest :=
  if i < f.store.size then .ok { f with store := f.store.modifyNode i change }
  else .error (.noSuchSlot f.store.size i)

/-- Replace the key of a slot by hand. -/
def setKey (f : Forest) (i : Slot) (key : Key) : Outcome Forest :=
  if i < f.store.size then .ok { f with store := f.store.setKey i key }
  else .error (.noSuchSlot f.store.size i)

/-- The links to the topmost slots of all trees. -/
def tops (f : Forest) : List ChildLink := f.trees.toList.map (·.top)

/-- The slots that are new, or have another node than before, each with its node. -/
def changesSince (f before : Forest) : List (Slot × Node) :=
  f.store.slots.filterMap fun i =>
    match f.store.entries[i]? with
    | none => none
    | some e => if before.store.entries[i]?.map (·.node) = some e.node then none
      else some (i, e.node)

theorem edit_of_ok {α : Type} {f : Forest} {t : Nat} {e : Edit α} {tree : Tree} {a : α}
    {p : Plot} (ht : f.trees[t]? = some tree) (he : e ⟨tree, f.store⟩ = .ok a p) :
    f.edit t e = (.ok a, ⟨f.trees.setIfInBounds t p.tree, p.store⟩) := by
  simp only [edit, ht, he]

theorem edit_of_error {α : Type} {f : Forest} {t : Nat} {e : Edit α} {tree : Tree}
    {fault : Fault} {p : Plot} (ht : f.trees[t]? = some tree)
    (he : e ⟨tree, f.store⟩ = .error fault p) :
    f.edit t e = (.error fault, ⟨f.trees.setIfInBounds t p.tree, p.store⟩) := by
  simp only [edit, ht, he]

end Forest

end BitTrie
