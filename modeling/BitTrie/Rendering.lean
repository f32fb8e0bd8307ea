import BitTrie.Tree

/-!
# Written forms

Links, nodes and trees have one written form each, made for reading a damaged store by eye.
A slot is `#3`; a link is its slot with its mark, `#3/Leaf` or `#3/Left`; the link that leads
nowhere is `NULL`, and the one to the root of a tree is `root/Left`.

A value with named parts is its name followed by the parts in braces, one with unnamed parts
its name followed by them in parentheses.  In such a value a slot is itself written with a name.

## Main definitions

* `Written.fields`, `Written.tuple`, `Written.option`, `Written.list` — the general shapes.
* `ChildLink.text`, `ParentLink.text` — links; `ChildLink.ofText?`, `ParentLink.ofText?` read
  them back.
* `Node.text`, `Tree.text` — nodes and trees.
-/

namespace BitTrie

/-! ### General shapes -/

namespace Written

/-- A value with named parts. -/
def fields (name : String) (parts : List (String × String)) : String :=
  name ++ " \x7b " ++ ", ".intercalate (parts.map fun (label, text) => label ++ ": " ++ text)
    ++ " \x7d"

/-- A value with unnamed parts. -/
def tuple (name : String) (parts : List String) : String :=
  name ++ "(" ++ ", ".intercalate parts ++ ")"

/-- A value that may be missing. -/
def option : Option String → String
  | none => "None"
  | some text => tuple "Some" [text]

/-- Several values in order. -/
def list (texts : List String) : String := "[" ++ ", ".intercalate texts ++ "]"

/-- A yes or no. -/
def bool : Bool → String
  | true => "true"
  | false => "false"

/-- A slot on its own. -/
def slot (s : Slot) : String := s!"#{s}"

/-- A slot as a part of a larger value. -/
def slotValue (s : Slot) : String := tuple "NodeId" [toString s]

/-- A bit or level. -/
def bit (b : Int32) : String := toString b.toInt

end Written

namespace Side

/-- The name of a side. -/
def text : Side → String
  | left => "Left"
  | right => "Right"

/-- The side of a name. -/
def ofText? : String → Option Side
  | "Left" => some left
  | "Right" => some right
  | _ => none

theorem ofText?_text (s : Side) : ofText? s.text = some s := by cases s <;> rfl

end Side

namespace Role

/-- The name of a role. -/
def text : Role → String
  | branch => "Branch"
  | leaf => "Leaf"

/-- The role of a name. -/
def ofText? : String → Option Role
  | "Branch" => some branch
  | "Leaf" => some leaf
  | _ => none

theorem ofText?_text (r : Role) : ofText? r.text = some r := by cases r <;> rfl

end Role

/-! ### Links -/

/-- The parts of a link text before and after its slash, the first without its hash. -/
def Written.linkParts? (text : String) : Option (Nat × String) :=
  match text.splitOn "/" with
  | [named, mark] =>
    match named.toList with
    | '#' :: digits => (String.ofList digits).toNat?.map (·, mark)
    | _ => none
  | _ => none

namespace ChildLink

/-- The written form of a child link. -/
def text (l : ChildLink) : String :=
  match l.child? with
  | none => "NULL"
  | some c => Written.slot c.slot ++ "/" ++ c.role.text

/-- The link with a written form; a form that names a slot past the last one gives a fault. -/
def ofText? (text : String) : Option (Outcome ChildLink) :=
  if text = "NULL" then some (.ok null)
  else do
    let (slot, mark) ← Written.linkParts? text
    return ofChild (.of (← Role.ofText? mark) slot)

end ChildLink

namespace Place

/-- The branch of a place, or the root. -/
def targetText : Place → String
  | root => "root"
  | under p _ => Written.slot p

/-- The written form of a place. -/
def text (place : Place) : String := place.targetText ++ "/" ++ place.side.text

end Place

namespace ParentLink

/-- The written form of a parent link. -/
def text (l : ParentLink) : String :=
  match l.place? with
  | none => "NULL"
  | some place => place.text

/-- The link with a written form; a form that names a slot past the last one gives a fault. -/
def ofText? (text : String) : Option (Outcome ParentLink) :=
  if text = "NULL" then some (.ok null)
  else if text = Place.root.text then some (.ok root)
  else do
    let (slot, mark) ← Written.linkParts? text
    return ofPlace (.under slot (← Side.ofText? mark))

end ParentLink

/-! ### Nodes and trees -/

/-- The written form of a node. -/
def Node.text (n : Node) : String :=
  Written.fields "Node"
    [("bit", Written.bit n.bit), ("branches", Written.list [n.left.text, n.right.text]),
      ("node_p", n.branchUp.text), ("leaf_p", n.leafUp.text)]

/-- The written form of a tree. -/
def Tree.text (t : Tree) : String :=
  Written.fields "EbRoot" [("top", t.top.text), ("unique_keys", Written.bool t.unique)]

/-- The written form of the fault of a store that is full. -/
def storeFullValue (capacity : Nat) : String :=
  Written.fields "ArenaFull" [("capacity", toString capacity)]

end BitTrie
