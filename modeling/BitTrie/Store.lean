import BitTrie.Key
import BitTrie.Link

/-!
# Records and their nodes

A store holds records in slots, in the order in which they were added.  Beside its record each
slot has one *node*, through which the record is linked into at most one tree.  The node plays
two parts: as a leaf it hangs from the place `leafUp` and stands for its own record, and as a
branch it hangs from the place `branchUp` and decides, on bit `bit`, between `left` and `right`.

A negative bit marks a branch over entries with equal keys; it counts levels, `-1` being the
lowest.

Slots are never moved and never freed.

## Main definitions

* `Node`, `Node.detached` — the links of a slot, and those of a slot that is in no tree.
* `Entry`, `Store` — a record with its node, and the array of them.
* `Store.node`, `Store.key` — reading a slot; a slot the store does not have is a fault.
* `Store.add`, `Store.setKey`, `Store.modifyNode` — the three changes.

## Main results

* `Store.node_modifyNode`, `Store.key_modifyNode` — what a change of a node leaves as it was.
-/

namespace BitTrie

/-! ### Nodes -/

/-- The links of a slot. -/
structure Node where
  /-- The position the branch decides on, or a negative level over equal keys. -/
  bit : Int32
  /-- What the branch has on its left. -/
  left : ChildLink
  /-- What the branch has on its right. -/
  right : ChildLink
  /-- Where the slot hangs as a branch. -/
  branchUp : ParentLink
  /-- Where the slot hangs as a leaf. -/
  leafUp : ParentLink
  deriving DecidableEq, Inhabited

namespace Node

/-- The node of a slot that is in no tree. -/
def detached : Node := ⟨0, .null, .null, .null, .null⟩

/-- The child link on a side. -/
def child (n : Node) : Side → ChildLink
  | .left => n.left
  | .right => n.right

/-- The node with the child link on a side replaced. -/
def setChild (n : Node) : Side → ChildLink → Node
  | .left, l => { n with left := l }
  | .right, l => { n with right := l }

/-- Whether the branch stands over entries with equal keys. -/
def overEqualKeys (n : Node) : Bool := n.bit.toInt < 0

@[simp] theorem child_setChild_self (n : Node) (s : Side) (l : ChildLink) :
    (n.setChild s l).child s = l := by cases s <;> rfl

@[simp] theorem child_setChild_opposite (n : Node) (s : Side) (l : ChildLink) :
    (n.setChild s l).child s.opposite = n.child s.opposite := by cases s <;> rfl

end Node

/-! ### The store -/

/-- A record and its node. -/
structure Entry where
  /-- The bytes of the record that the trees are ordered by. -/
  key : Key
  /-- The links of the slot. -/
  node : Node
  deriving DecidableEq, Inhabited

/-- The records and nodes of all slots; no more than links can name. -/
structure Store where
  /-- The slots in the order of allocation. -/
  entries : Array Entry
  /-- Every slot can be named by a link. -/
  size_le : entries.size ≤ maxSlots

namespace Store

/-- A store without records. -/
def empty : Store := ⟨#[], Nat.zero_le _⟩

instance : Inhabited Store := ⟨empty⟩

/-- The number of slots. -/
def size (s : Store) : Nat := s.entries.size

/-- A slot's record and node. -/
def entry (s : Store) (i : Slot) : Outcome Entry :=
  if h : i < s.entries.size then .ok s.entries[i] else .error (.noSuchSlot s.size i)

/-- A slot's node. -/
def node (s : Store) (i : Slot) : Outcome Node := (·.node) <$> s.entry i

/-- A slot's key. -/
def key (s : Store) (i : Slot) : Outcome Key := (·.key) <$> s.entry i

/-- Whether a slot's record is linked into some tree. -/
def isResident (s : Store) (i : Slot) : Outcome Bool := (·.leafUp != .null) <$> s.node i

/-- Add a record; its slot is the next one, and it is in no tree. -/
def add (s : Store) (k : Key) : Outcome (Slot × Store) :=
  if h : s.entries.size < maxSlots then
    .ok (s.entries.size, ⟨s.entries.push ⟨k, .detached⟩, by rw [Array.size_push]; exact h⟩)
  else .error (.storeFull maxSlots)

/-- Apply `f` to a slot's entry; nothing happens to a slot the store does not have. -/
def modifyEntry (s : Store) (i : Slot) (f : Entry → Entry) : Store :=
  ⟨s.entries.modify i f, by rw [Array.size_modify]; exact s.size_le⟩

/-- Replace a slot's key. -/
def setKey (s : Store) (i : Slot) (k : Key) : Store := s.modifyEntry i ({ · with key := k })

/-- Apply `f` to a slot's node. -/
def modifyNode (s : Store) (i : Slot) (f : Node → Node) : Store :=
  s.modifyEntry i fun e => { e with node := f e.node }

/-- All slots, in the order of allocation. -/
def slots (s : Store) : List Slot := List.range s.size

/-- All nodes, in the order of allocation. -/
def nodes (s : Store) : List Node := s.entries.toList.map (·.node)

/-! ### What the changes leave alone -/

@[simp] theorem size_modifyEntry (s : Store) (i : Slot) (f : Entry → Entry) :
    (s.modifyEntry i f).size = s.size := Array.size_modify

@[simp] theorem size_modifyNode (s : Store) (i : Slot) (f : Node → Node) :
    (s.modifyNode i f).size = s.size := size_modifyEntry s i _

theorem entry_modifyEntry (s : Store) (i j : Slot) (f : Entry → Entry) :
    (s.modifyEntry i f).entry j = (if i = j then f else id) <$> s.entry j := by
  simp only [entry, modifyEntry, Array.size_modify, size]
  split
  · rw [Array.getElem_modify]
    split <;> simp_all [Functor.map, Except.map]
  · rfl

/-- A change of a slot's node is seen at that slot only. -/
theorem node_modifyNode (s : Store) (i j : Slot) (f : Node → Node) :
    (s.modifyNode i f).node j = (if i = j then f else id) <$> s.node j := by
  rw [node, modifyNode, entry_modifyEntry, node]
  cases s.entry j with
  | error e => rfl
  | ok e => split <;> rfl

/-- A change of a node leaves every key alone. -/
theorem key_modifyNode (s : Store) (i j : Slot) (f : Node → Node) :
    (s.modifyNode i f).key j = s.key j := by
  rw [key, modifyNode, entry_modifyEntry, key]
  cases s.entry j with
  | error e => rfl
  | ok e => split <;> rfl

end Store

end BitTrie
