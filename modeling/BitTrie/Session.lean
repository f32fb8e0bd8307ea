import BitTrie.Agreement
import BitTrie.Arrangements
import BitTrie.Forest
import BitTrie.Record

/-!
# Sessions

A session is a forest that is worked on step by step, with two things at hand: a saved copy of
the store, which can be exchanged for the one in use, and an index to check the trees against.
Each command gives an answer or ends in a fault; the session goes on either way, from what had
been written.

Besides the commands that the trees offer, there are commands that write single links and bits,
so that the audit can be tried on damaged trees.

## Main definitions

* `Command`, `Answer` — what can be asked of a session, and what it says.
* `Session`, `Session.step` — sessions, and carrying out a command.
-/

namespace BitTrie

/-- What can be asked of a session.  Trees are numbered from zero. -/
inductive Command where
  /-- Add a record that is in no tree. -/
  | add (key : Key)
  /-- Count the records. -/
  | size
  /-- List all slots. -/
  | slots
  /-- Show the key of a slot. -/
  | key (i : Slot)
  /-- Tell whether a record is in a tree. -/
  | isResident (i : Slot)
  /-- Replace the key of a slot, whether its record is in a tree or not. -/
  | setKey (i : Slot) (key : Key)
  /-- Insert a record over the first bytes of its key. -/
  | insert (t : Nat) (i : Slot) (len : Nat)
  /-- Add a record and insert it over the first bytes of its key. -/
  | addInsert (t : Nat) (key : Key) (len : Nat)
  /-- Insert a record by its string. -/
  | insertString (t : Nat) (i : Slot)
  /-- Add a record and insert it by its string. -/
  | addInsertString (t : Nat) (key : Key)
  /-- Look up the first bytes of a query. -/
  | find (t : Nat) (query : Key) (len : Nat)
  /-- Look up the string of a query. -/
  | findString (t : Nat) (query : Key)
  /-- Look up the first bytes of a query as a string. -/
  | findStringOf (t : Nat) (query : Key) (len : Nat)
  /-- Give the leftmost entry. -/
  | first (t : Nat)
  /-- Give the next entry with an equal key, or the previous one. -/
  | neighbour (origin : Side) (i : Slot)
  /-- Go on to the next entry, or the previous one, at most once more than there are slots. -/
  | chain (origin : Side) (i : Slot)
  /-- Tell whether a tree is empty and whether it holds every key once. -/
  | describe (t : Nat)
  /-- Audit a tree. -/
  | audit (t : Nat)
  /-- Write out a tree. -/
  | showTree (t : Nat)
  /-- Write out a node. -/
  | showNode (i : Slot)
  /-- Attach a record as the only entry of an empty tree. -/
  | plant (t : Nat) (i : Slot)
  /-- Add a record to a subtree of equal keys. -/
  | append (t : Nat) (head i : Slot)
  /-- Walk down from a link along one side. -/
  | outermost (side : Side) (link : ChildLink)
  /-- Put a link in a place. -/
  | hang (t : Nat) (up : ParentLink) (link : ChildLink)
  /-- Keep a copy of the store. -/
  | save
  /-- Exchange the store for the copy that was kept. -/
  | swap
  /-- Enter a slot into the index. -/
  | enter (key : Key) (i : Slot)
  /-- Look up the first key of the index with a given prefix. -/
  | findInIndex (start : Key)
  /-- List an entry and all later ones with an equal key. -/
  | equalEntries (t : Nat) (i : Slot)
  /-- Compare a tree with the index, by strings or by whole keys. -/
  | compare (t : Nat) (strings : Bool)
  /-- Write the link to the topmost slot of a tree. -/
  | setTop (t : Nat) (link : ChildLink)
  /-- Write the bit of a node. -/
  | setBit (i : Slot) (bit : Int32)
  /-- Write a child link of a node. -/
  | setChild (i : Slot) (side : Side) (link : ChildLink)
  /-- Write where a slot hangs in one of its roles. -/
  | setUp (i : Slot) (role : Role) (link : ParentLink)
  deriving DecidableEq, Inhabited

/-- What a session says. -/
inductive Answer where
  /-- Done, with nothing to say. -/
  | done
  /-- A slot, or none. -/
  | slot (i : Option Slot)
  /-- Several slots. -/
  | slots (is : List Slot)
  /-- A key. -/
  | key (k : Key)
  /-- Yes or no. -/
  | flag (b : Bool)
  /-- Two answers of yes or no. -/
  | flags (a b : Bool)
  /-- A number. -/
  | count (n : Nat)
  /-- A number of things, and whether there are none. -/
  | countAndEmpty (n : Nat) (isEmpty : Bool)
  /-- A text. -/
  | text (s : String)
  /-- The result of an audit. -/
  | audit (found : Except Flaw Nat)
  deriving Inhabited

/-- A forest with a saved copy of its store and an index. -/
structure Session where
  /-- The trees and the store in use. -/
  forest : Forest
  /-- The store that is kept. -/
  saved : Store
  /-- The index to check against. -/
  index : Index
  deriving Inhabited

namespace Session

/-- A session with the given trees over an empty store. -/
def start (trees : Array Tree) : Session := ⟨⟨trees, .empty⟩, .empty, .empty⟩

/-- Answer a question about the forest. -/
def ask (s : Session) {α : Type} (answer : α → Answer) (read : Forest → Outcome α) :
    Outcome Answer × Session :=
  (answer <$> read s.forest, s)

/-- Answer a question about one of the trees. -/
def askPlot (s : Session) {α : Type} (answer : α → Answer) (t : Nat) (read : Plot → Outcome α) :
    Outcome Answer × Session :=
  s.ask answer fun f => f.plot t >>= read

/-- Carry out a change of the forest that always leaves one behind. -/
def change (s : Session) {α : Type} (answer : α → Answer)
    (write : Forest → Outcome α × Forest) : Outcome Answer × Session :=
  let ⟨forest, saved, index⟩ := s
  let (outcome, forest) := write forest
  (answer <$> outcome, ⟨forest, saved, index⟩)

/-- Carry out a change of the forest that leaves it alone when it fails. -/
def replace (s : Session) (answer : Answer) (write : Forest → Outcome Forest) :
    Outcome Answer × Session :=
  match write s.forest with
  | .ok f => (.ok answer, { s with forest := f })
  | .error fault => (.error fault, s)

/-- Carry out one command. -/
def step (s : Session) : Command → Outcome Answer × Session
  | .add key => s.change (.slot ∘ some) (·.add key)
  | .size => s.ask (fun n => .countAndEmpty n (n == 0)) fun f => .ok f.store.size
  | .slots => s.ask .slots fun f => .ok f.store.slots
  | .key i => s.ask .key (·.store.key i)
  | .isResident i => s.ask .flag (·.store.isResident i)
  | .setKey i key => s.replace (.key key) (·.setKey i key)
  | .insert t i len => s.change (.slot ∘ some) (·.edit t (.insert i len))
  | .addInsert t key len => s.change (.slot ∘ some) (·.addThen key t fun i => .insert i len)
  | .insertString t i => s.change (.slot ∘ some) (·.edit t (.insertString i))
  | .addInsertString t key => s.change (.slot ∘ some) (·.addThen key t .insertString)
  | .find t query len => s.askPlot .slot t (·.find query len)
  | .findString t query => s.askPlot .slot t (·.findString query)
  | .findStringOf t query len => s.askPlot .slot t (·.findStringOf query len)
  | .first t => s.askPlot .slot t (·.first)
  | .neighbour origin i => s.ask .slot (·.store.step origin i)
  | .chain origin i => s.ask .slots fun f => f.store.chain origin (f.store.size + 1) i
  | .describe t => s.askPlot id t fun p => .ok (.flags p.tree.isEmpty p.tree.unique)
  | .audit t => s.askPlot .audit t (·.audit)
  | .showTree t => s.askPlot .text t fun p => .ok p.tree.text
  | .showNode i => s.ask .text fun f => Node.text <$> f.store.node i
  | .plant t i => s.change (.slot ∘ some) (·.edit t (.plant i))
  | .append t head i => s.change (.slot ∘ some) (·.edit t (.append head i))
  | .outermost side link => s.ask (.slot ∘ some) (·.store.outermost side link)
  | .hang t up link => s.change (fun _ => .done) (·.edit t (.hang up link))
  | .save => (.ok (.count s.forest.store.size), { s with saved := s.forest.store })
  | .swap =>
    (.ok (.count s.saved.size),
      { s with forest := { s.forest with store := s.saved }, saved := s.forest.store })
  | .enter key i =>
    let index := s.index.add key i
    (.ok (.count (index.slotsOf key).length), { s with index := index })
  | .findInIndex start => (.slot <$> s.index.oldestWithPrefix start, s)
  | .equalEntries t i => s.askPlot .slots t (·.store.equalEntries i)
  | .compare t strings => s.askPlot (fun _ => .done) t (·.agreesWith s.index strings)
  | .setTop t link => s.change (fun _ => .done) (·.edit t (.setTop link))
  | .setBit i bit => s.replace .done (·.modifyNode i ({ · with bit := bit }))
  | .setChild i side link => s.replace .done (·.modifyNode i (·.setChild side link))
  | .setUp i role link => s.replace .done (·.modifyNode i (·.setUp role link))

end Session

end BitTrie
