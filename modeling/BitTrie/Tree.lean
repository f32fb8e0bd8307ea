import BitTrie.Store

/-!
# Trees over a store

A tree is no more than a link to its topmost slot and the choice, made once, whether it takes
several entries with equal keys.  All else stands in the nodes of a store, which several trees
may share.  A tree together with its store is a *plot*.

Reading a plot is a function to an `Outcome`.  Changing it is an `Edit`: a sequence of small
writes, which a fault may cut short.  What was written before the fault stays written.

## Main definitions

* `Tree`, `Plot` — a tree, and a tree with the store it stands in.
* `Store.outermost` — the leaf reached by keeping to one side.
* `Plot.first` — the leftmost entry of a tree.
* `Edit`, `Edit.setTop`, `Edit.modifyNode`, `Edit.hangAt` — changes and the single writes.
* `Edit.plant` — attach the first record of a tree.

## Main results

* `Store.outermost_leaf` — a leaf is its own outermost leaf.
* `Edit.bind_of_ok`, `Edit.bind_of_error` — an edit goes on after an answer, stops at a fault.
* `Edit.modifyNode_of_lt`, `Edit.modifyNode_of_le` — the effect of a write to a node.
-/

namespace BitTrie

/-- A tree: a link to its topmost slot, and whether it holds every key once. -/
structure Tree where
  /-- The topmost slot, as a branch or as the only leaf. -/
  top : ChildLink
  /-- Whether an entry is turned down when an equal key is present. -/
  unique : Bool
  deriving DecidableEq, Inhabited

namespace Tree

/-- A tree without entries that keeps equal keys. -/
def empty : Tree := ⟨.null, false⟩

/-- A tree without entries that holds every key once. -/
def emptyUnique : Tree := ⟨.null, true⟩

/-- Whether the tree has no entries. -/
def isEmpty (t : Tree) : Bool := t.top == .null

end Tree

/-- A tree and the store it stands in. -/
structure Plot where
  tree : Tree
  store : Store
  deriving Inhabited

/-! ### Walking down -/

/-- At most `fuel` links along one side, until a leaf is reached. -/
def Store.walkDown (s : Store) (side : Side) : (fuel : Nat) → ChildLink → Outcome Slot
  | 0, _ => .error .endless
  | fuel + 1, l =>
    match l.follow with
    | .error e => .error e
    | .ok (.leaf i) => .ok i
    | .ok (.branch i) =>
      match s.node i with
      | .error e => .error e
      | .ok n => walkDown s side fuel (n.child side)

/-- The leaf reached from a link by keeping to one side.  A walk that meets more branches than
there are slots has met one twice, and goes on forever. -/
def Store.outermost (s : Store) (side : Side) (l : ChildLink) : Outcome Slot :=
  s.walkDown side (s.size + 1) l

/-- The leftmost entry of a tree. -/
def Plot.first (p : Plot) : Outcome (Option Slot) :=
  if p.tree.isEmpty then .ok none else some <$> p.store.outermost .left p.tree.top

theorem Store.outermost_leaf (s : Store) (side : Side) {l : ChildLink} {i : Slot}
    (h : l.child? = some (.leaf i)) : s.outermost side l = .ok i := by
  simp [outermost, walkDown, ChildLink.follow, h]

/-! ### Edits -/

/-- A change of a plot, which may end in a fault. -/
abbrev Edit := EStateM Fault Plot

namespace Edit

/-- Read from the plot. -/
def ask {α : Type} (read : Plot → Outcome α) : Edit α := fun p =>
  match read p with
  | .ok a => .ok a p
  | .error e => .error e p

/-- Bring an outcome into an edit. -/
def ofOutcome {α : Type} (o : Outcome α) : Edit α := ask fun _ => o

/-- Read a slot's node. -/
def node (i : Slot) : Edit Node := ask (·.store.node i)

/-- Replace the link to the topmost slot. -/
def setTop (l : ChildLink) : Edit Unit :=
  modify fun p => { p with tree := { p.tree with top := l } }

/-- Apply `f` to a slot's node. -/
def modifyNode (i : Slot) (f : Node → Node) : Edit Unit := fun p =>
  if i < p.store.size then .ok () { p with store := p.store.modifyNode i f }
  else .error (.noSuchSlot p.store.size i) p

/-- Put a link in a place. -/
def hangAt : Place → ChildLink → Edit Unit
  | .root, l => setTop l
  | .under p side, l => modifyNode p (·.setChild side l)

/-- Put a link in the place that a parent link names. -/
def hang (up : ParentLink) (l : ChildLink) : Edit Unit := do
  hangAt (← ofOutcome up.follow) l

/-- Attach a record as the only entry of an empty tree. -/
def plant (new : Slot) : Edit Slot := do
  unless ← ask (fun p => .ok p.tree.isEmpty) do throw .treeNotEmpty
  setTop (← ofOutcome (ChildLink.ofChild (.leaf new)))
  modifyNode new fun n => { n with leafUp := .root, branchUp := .null }
  return new

theorem bind_of_ok {α β : Type} {m : Edit α} {f : α → Edit β} {p q : Plot} {a : α}
    (h : m p = .ok a q) : (m >>= f) p = f a q := by
  simp only [bind, EStateM.bind, h]

theorem bind_of_error {α β : Type} {m : Edit α} {f : α → Edit β} {p q : Plot} {e : Fault}
    (h : m p = .error e q) : (m >>= f) p = .error e q := by
  simp only [bind, EStateM.bind, h]

theorem ask_of_ok {α : Type} {read : Plot → Outcome α} {p : Plot} {a : α}
    (h : read p = .ok a) : ask read p = .ok a p := by
  simp only [ask, h]

theorem ask_of_error {α : Type} {read : Plot → Outcome α} {p : Plot} {e : Fault}
    (h : read p = .error e) : ask read p = .error e p := by
  simp only [ask, h]

theorem modifyNode_of_lt {p : Plot} {i : Slot} (h : i < p.store.size) (f : Node → Node) :
    modifyNode i f p = .ok () { p with store := p.store.modifyNode i f } := by
  simp [modifyNode, h]

theorem modifyNode_of_le {p : Plot} {i : Slot} (h : p.store.size ≤ i) (f : Node → Node) :
    modifyNode i f p = .error (.noSuchSlot p.store.size i) p := by
  simp [modifyNode, Nat.not_lt.mpr h]

end Edit

end BitTrie
