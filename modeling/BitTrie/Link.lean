import BitTrie.Fault

/-!
# Links

A link names a slot and carries one mark, both in a single 32-bit word: twice the slot, plus
one when the mark is set.  The all-ones word is the null link.  There are two kinds of links.

* A **child link** leads down.  Its mark says how the slot is met: as a *branch*, whose bit and
  child links are read, or as a *leaf*, whose key is read.  One slot can be met both ways.
* A **parent link** leads up, from a slot to the place it hangs from.  Its mark says on which
  side of the parent that is.  The slot after the last one stands for the root of a tree.

A link holds a proof that its word is one of these, so a link that can be written down is a
link that can be read.

## Main definitions

* `Word.pack`, `Word.slot`, `Word.mark` — the word of a slot and a mark, and its two parts.
* `ChildLink`, `ChildLink.child?` — child links, and what they lead to.
* `ParentLink`, `ParentLink.place?` — parent links, and the place they name.
* `ChildLink.follow`, `ParentLink.follow` — the same, with the null link a fault.

## Main results

* `Word.slot_pack`, `Word.mark_pack`, `Word.pack_ne_null` — packing loses nothing.
* `ChildLink.child?_of`, `ParentLink.place?_of` — a link leads where it was made to lead.
* `ChildLink.ext_child?`, `ParentLink.ext_place?` — a link is known by where it leads.
-/

namespace BitTrie

/-- A slot of a store, counted from zero in the order of allocation. -/
abbrev Slot := Nat

/-! ### Sides and roles -/

/-- The two sides of a branch. -/
inductive Side where
  | left
  | right
  deriving DecidableEq, Repr, Inhabited

/-- The two ways to meet a slot from above. -/
inductive Role where
  /-- A decision between two subtrees. -/
  | branch
  /-- An entry with its key. -/
  | leaf
  deriving DecidableEq, Repr, Inhabited

namespace Side

/-- The other side. -/
def opposite : Side → Side
  | left => right
  | right => left

/-- The side on which a key with this bit lies. -/
def ofBit : Bool → Side
  | false => left
  | true => right

/-- The bit of the keys on a side. -/
def bit : Side → Bool
  | left => false
  | right => true

@[simp] theorem opposite_opposite (s : Side) : s.opposite.opposite = s := by cases s <;> rfl

theorem ne_opposite (s : Side) : s ≠ s.opposite := by cases s <;> decide

@[simp] theorem ofBit_bit (s : Side) : ofBit s.bit = s := by cases s <;> rfl

@[simp] theorem bit_ofBit (b : Bool) : (ofBit b).bit = b := by cases b <;> rfl

end Side

namespace Role

/-- The role a mark stands for. -/
def ofBit : Bool → Role
  | false => branch
  | true => leaf

/-- The mark of a role. -/
def bit : Role → Bool
  | branch => false
  | leaf => true

@[simp] theorem ofBit_bit (r : Role) : ofBit r.bit = r := by cases r <;> rfl

end Role

/-! ### Words -/

/-- The word of a link. -/
abbrev Word := UInt32

namespace Word

/-- The word that leads nowhere. -/
def null : Word := 0xFFFFFFFF

/-- The word of a slot and a mark. -/
def pack (slot : Nat) (mark : Bool) : Word := UInt32.ofNat (2 * slot + mark.toNat)

/-- The slot of a word. -/
def slot (w : Word) : Nat := w.toNat / 2

/-- The mark of a word. -/
def mark (w : Word) : Bool := w.toNat % 2 == 1

/-- The word of the root as a parent: the slot after the last one, on the left. -/
def root : Word := pack maxSlots false

theorem toNat_pack {s : Nat} (h : s ≤ maxSlots) (m : Bool) :
    (pack s m).toNat = 2 * s + m.toNat := by
  have hm : m.toNat ≤ 1 := Bool.toNat_le m
  simp only [maxSlots] at h
  simp only [pack, UInt32.toNat_ofNat']
  exact Nat.mod_eq_of_lt (by omega)

@[simp] theorem slot_pack {s : Nat} (h : s ≤ maxSlots) (m : Bool) : slot (pack s m) = s := by
  have hm : m.toNat ≤ 1 := Bool.toNat_le m
  rw [slot, toNat_pack h]
  omega

@[simp] theorem mark_pack {s : Nat} (h : s ≤ maxSlots) (m : Bool) : mark (pack s m) = m := by
  rw [mark, toNat_pack h]
  cases m <;> simp

/-- The word of a slot and a mark leads somewhere. -/
theorem pack_ne_null {s : Nat} (h : s ≤ maxSlots) (m : Bool) : pack s m ≠ null := by
  intro heq
  have hval := congrArg UInt32.toNat heq
  have hm : m.toNat ≤ 1 := Bool.toNat_le m
  have hnull : null.toNat = 4294967295 := by decide
  rw [toNat_pack h, hnull] at hval
  simp only [maxSlots] at h
  omega

/-- A word is put together again from its two parts. -/
theorem pack_slot_mark (w : Word) : pack (slot w) (mark w) = w := by
  have hlt := w.toNat_lt
  apply UInt32.toNat_inj.mp
  have hpart : 2 * (w.toNat / 2) + (w.toNat % 2 == 1).toNat = w.toNat := by
    rcases Nat.mod_two_eq_zero_or_one w.toNat with h | h <;> simp [h] <;> omega
  rw [pack, slot, mark, hpart, UInt32.ofNat_toNat]

end Word

/-! ### Child links -/

/-- What a child link leads to. -/
inductive Child where
  | branch (slot : Slot)
  | leaf (slot : Slot)
  deriving DecidableEq, Repr, Inhabited

namespace Child

/-- The slot that is met. -/
def slot : Child → Slot
  | branch s => s
  | leaf s => s

/-- The role in which the slot is met. -/
def role : Child → Role
  | branch _ => .branch
  | leaf _ => .leaf

/-- A slot met in a given role. -/
def of : Role → Slot → Child
  | .branch, s => branch s
  | .leaf, s => leaf s

@[simp] theorem slot_branch (s : Slot) : (branch s).slot = s := rfl

@[simp] theorem slot_leaf (s : Slot) : (leaf s).slot = s := rfl

@[simp] theorem role_branch (s : Slot) : (branch s).role = .branch := rfl

@[simp] theorem role_leaf (s : Slot) : (leaf s).role = .leaf := rfl

@[simp] theorem of_role_slot (c : Child) : of c.role c.slot = c := by cases c <;> rfl

@[simp] theorem slot_of (r : Role) (s : Slot) : (of r s).slot = s := by cases r <;> rfl

@[simp] theorem role_of (r : Role) (s : Slot) : (of r s).role = r := by cases r <;> rfl

end Child

/-- A link that leads down, to a slot met as a branch or as a leaf, or nowhere. -/
structure ChildLink where
  /-- The word of the link. -/
  word : Word
  /-- The word is null or names a slot. -/
  valid : word = Word.null ∨ word.slot < maxSlots
  deriving DecidableEq

namespace ChildLink

/-- The link that leads nowhere. -/
def null : ChildLink := ⟨Word.null, Or.inl rfl⟩

instance : Inhabited ChildLink := ⟨null⟩

/-- The link to a slot in a role. -/
def of (r : Role) (s : Slot) (h : s < maxSlots) : ChildLink :=
  ⟨Word.pack s r.bit, Or.inr (by rw [Word.slot_pack (Nat.le_of_lt h)]; exact h)⟩

/-- The link to a child, refused for a slot past the last one. -/
def ofChild (c : Child) : Outcome ChildLink :=
  if h : c.slot < maxSlots then .ok (of c.role c.slot h) else .error .slotTooLarge

/-- What a link leads to, if anything. -/
def child? (l : ChildLink) : Option Child :=
  if l.word = Word.null then none
  else some (.of (.ofBit l.word.mark) l.word.slot)

/-- What a link leads to; to follow the null link is a fault. -/
def follow (l : ChildLink) : Outcome Child :=
  match l.child? with
  | some c => .ok c
  | none => .error .nullLink

@[simp] theorem child?_null : null.child? = none := rfl

@[simp] theorem child?_of (r : Role) (s : Slot) (h : s < maxSlots) :
    (of r s h).child? = some (.of r s) := by
  have hle := Nat.le_of_lt h
  simp [child?, of, Word.pack_ne_null hle, Word.mark_pack hle, Word.slot_pack hle]

theorem slot_lt_of_child? {l : ChildLink} {c : Child} (h : l.child? = some c) :
    c.slot < maxSlots := by
  obtain ⟨w, hw⟩ := l
  by_cases hnull : w = Word.null
  · simp [child?, hnull] at h
  · simp only [child?, hnull, if_false, Option.some.injEq] at h
    rw [← h, Child.slot_of]
    exact hw.resolve_left hnull

/-- Two links that lead to the same are the same. -/
theorem ext_child? {l m : ChildLink} (h : l.child? = m.child?) : l = m := by
  obtain ⟨v, hv⟩ := l
  obtain ⟨w, hw⟩ := m
  suffices v = w by subst this; rfl
  by_cases hvn : v = Word.null <;> by_cases hwn : w = Word.null
  · rw [hvn, hwn]
  · simp [child?, hvn, hwn] at h
  · simp [child?, hvn, hwn] at h
  · simp only [child?, hvn, hwn, if_false, Option.some.injEq] at h
    have hslot := congrArg Child.slot h
    have hrole := congrArg (fun c => c.role.bit) h
    have hbit : ∀ b : Bool, (Role.ofBit b).bit = b := by intro b; cases b <;> rfl
    simp only [Child.slot_of] at hslot
    simp only [Child.role_of, hbit] at hrole
    rw [← Word.pack_slot_mark v, ← Word.pack_slot_mark w, hslot, hrole]

end ChildLink

/-! ### Parent links -/

/-- A place a subtree hangs from. -/
inductive Place where
  /-- The top of a tree. -/
  | root
  /-- A side of a branch. -/
  | under (parent : Slot) (side : Side)
  deriving DecidableEq, Repr, Inhabited

namespace Place

/-- The branch a place belongs to. -/
def parent? : Place → Option Slot
  | root => none
  | under p _ => some p

/-- The side of a place; the root counts as a left side. -/
def side : Place → Side
  | root => .left
  | under _ s => s

end Place

/-- A link that leads up, to the place a slot hangs from, or nowhere. -/
structure ParentLink where
  /-- The word of the link. -/
  word : Word
  /-- The word is null, the root, or names a slot. -/
  valid : word = Word.null ∨ word = Word.root ∨ word.slot < maxSlots
  deriving DecidableEq

namespace ParentLink

/-- The link that leads nowhere. -/
def null : ParentLink := ⟨Word.null, Or.inl rfl⟩

/-- The link to the root of a tree. -/
def root : ParentLink := ⟨Word.root, Or.inr (Or.inl rfl)⟩

instance : Inhabited ParentLink := ⟨null⟩

/-- The link to a side of a slot. -/
def of (p : Slot) (side : Side) (h : p < maxSlots) : ParentLink :=
  ⟨Word.pack p side.bit, Or.inr (Or.inr (by rw [Word.slot_pack (Nat.le_of_lt h)]; exact h))⟩

/-- The link to a place, refused for a slot past the last one. -/
def ofPlace : Place → Outcome ParentLink
  | .root => .ok root
  | .under p side => if h : p < maxSlots then .ok (of p side h) else .error .slotTooLarge

/-- The place a link names, if any. -/
def place? (l : ParentLink) : Option Place :=
  if l.word = Word.null then none
  else if l.word.slot = maxSlots then some .root
  else some (.under l.word.slot (.ofBit l.word.mark))

/-- The place a link names; to follow the null link is a fault. -/
def follow (l : ParentLink) : Outcome Place :=
  match l.place? with
  | some p => .ok p
  | none => .error .nullLink

@[simp] theorem place?_null : null.place? = none := rfl

@[simp] theorem place?_root : root.place? = some .root := by decide

@[simp] theorem place?_of (p : Slot) (side : Side) (h : p < maxSlots) :
    (of p side h).place? = some (.under p side) := by
  have hle := Nat.le_of_lt h
  simp [place?, of, Word.pack_ne_null hle, Word.mark_pack hle, Word.slot_pack hle,
    Nat.ne_of_lt h]

/-- Two links that name the same place are the same. -/
theorem ext_place? {l m : ParentLink} (h : l.place? = m.place?) : l = m := by
  obtain ⟨v, hv⟩ := l
  obtain ⟨w, hw⟩ := m
  suffices v = w by subst this; rfl
  have atRoot : ∀ u : Word, u ≠ Word.null → u.slot = maxSlots →
      (u = Word.null ∨ u = Word.root ∨ u.slot < maxSlots) → u = Word.root := by
    intro u hn hs hu
    rcases hu with hu | hu | hu
    · exact absurd hu hn
    · exact hu
    · omega
  by_cases hvn : v = Word.null <;> by_cases hwn : w = Word.null
  · rw [hvn, hwn]
  · by_cases hws : w.slot = maxSlots <;> simp [place?, hvn, hwn, hws] at h
  · by_cases hvs : v.slot = maxSlots <;> simp [place?, hvn, hwn, hvs] at h
  · by_cases hvs : v.slot = maxSlots <;> by_cases hws : w.slot = maxSlots
    · rw [atRoot v hvn hvs hv, atRoot w hwn hws hw]
    · simp [place?, hvn, hwn, hvs, hws] at h
    · simp [place?, hvn, hwn, hvs, hws] at h
    · simp only [place?, hvn, hwn, hvs, hws, if_false, Option.some.injEq, Place.under.injEq] at h
      have hmark := congrArg Side.bit h.2
      simp only [Side.bit_ofBit] at hmark
      rw [← Word.pack_slot_mark v, ← Word.pack_slot_mark w, h.1, hmark]

end ParentLink

end BitTrie
