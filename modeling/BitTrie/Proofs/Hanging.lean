import BitTrie.Insert
import BitTrie.Proofs.Shape
import Mathlib.Data.List.Perm.Subperm

/-!
# Shapes in a store

A shape hangs in a place of a store when the links spell it out: every child link leads to the
slot below it in the right role, and every slot met links back to the place it was met at.  Of a
slot met as a leaf this speaks of its leaf link only, of a slot met as a branch of its other
fields.  So a store may change in many ways that a shape does not notice.

## Main definitions

* `Store.nodeAt`, `Store.keyAt` — a slot's node and key; junk outside the store.
* `Store.up`, `Store.down`, `Store.levelAt` — where a slot hangs, what hangs below it, its bit.
* `Store.Hangs` — a shape hangs in a place.
* `Store.Lines` — a path is spelled out, up to what hangs at its end.
* `Plot.Holds` — a shape hangs at the top of a tree.
* `Plot.shape?`, `Plot.clumps`, `Plot.groups` — the shape of a tree, read off its child links.

## Main results

* `Store.hangs_fill` — a filled shape hangs when its path and what is at the end do.
* `Store.Hangs.congr`, `Store.Lines.congr` — what a shape and a path do not notice.
* `Store.Hangs.outermost_left` — keeping to the left ends at the oldest entry.
* `Plot.Holds.shape?_eq` — the shape that hangs is the one that is read.
-/

namespace BitTrie

namespace Store

/-! ### Slots -/

/-- A slot's node; a slot that is not there reads as one in no tree. -/
def nodeAt (s : Store) (i : Slot) : Node := (s.entries[i]?.map (·.node)).getD .detached

/-- A slot's key; a slot that is not there reads as one without a key. -/
def keyAt (s : Store) (i : Slot) : Key := (s.entries[i]?.map (·.key)).getD #[]

/-- Where a slot hangs in one of its roles. -/
def up (s : Store) (c : Child) : Option Place := ((s.nodeAt c.slot).up c.role).place?

/-- What hangs on one side of a slot. -/
def down (s : Store) (i : Slot) (side : Side) : Option Child := ((s.nodeAt i).child side).child?

/-- The bit of a slot. -/
def levelAt (s : Store) (i : Slot) : Int := (s.nodeAt i).bit.toInt

variable {s s' : Store} {i j : Slot} {place : Place} {t : Shape}

theorem node_eq_ok (h : i < s.size) : s.node i = .ok (s.nodeAt i) := by
  have hi : i < s.entries.size := h
  simp [node, entry, nodeAt, hi, Functor.map, Except.map]

theorem key_eq_ok (h : i < s.size) : s.key i = .ok (s.keyAt i) := by
  have hi : i < s.entries.size := h
  simp [key, entry, keyAt, hi, Functor.map, Except.map]

theorem node_eq_error (h : s.size ≤ i) : s.node i = .error (.noSuchSlot s.size i) := by
  have hi : ¬ i < s.entries.size := Nat.not_lt.mpr h
  simp [node, entry, hi, Functor.map, Except.map]

theorem key_eq_error (h : s.size ≤ i) : s.key i = .error (.noSuchSlot s.size i) := by
  have hi : ¬ i < s.entries.size := Nat.not_lt.mpr h
  simp [key, entry, hi, Functor.map, Except.map]

theorem nodeAt_of_le (h : s.size ≤ i) : s.nodeAt i = .detached := by
  have hi : s.entries.size ≤ i := h
  simp [nodeAt, Array.getElem?_eq_none hi]

theorem keyAt_of_le (h : s.size ≤ i) : s.keyAt i = #[] := by
  have hi : s.entries.size ≤ i := h
  simp [keyAt, Array.getElem?_eq_none hi]

/-- What hangs somewhere is in the store. -/
theorem lt_size_of_up {c : Child} (h : s.up c = some place) : c.slot < s.size := by
  rcases Nat.lt_or_ge c.slot s.size with hlt | hge
  · exact hlt
  · rw [up, nodeAt_of_le hge] at h
    cases c <;> simp [Node.up, Node.detached, Child.role] at h

/-- A slot is in some tree when its leaf hangs somewhere. -/
theorem isResident_eq_ok {b : Bool} :
    s.isResident i = .ok b ↔ i < s.size ∧ (s.up (.leaf i)).isSome = b := by
  rcases Nat.lt_or_ge i s.size with hlt | hge
  · have hnull : ((s.nodeAt i).leafUp != .null) = ((s.nodeAt i).leafUp.place?).isSome := by
      rw [Bool.eq_iff_iff, bne_iff_ne, ne_eq, Option.isSome_iff_ne_none, ne_eq, not_iff_not]
      exact ⟨fun h => by rw [h]; rfl, fun h => ParentLink.ext_place? (h.trans rfl)⟩
    rw [isResident, node_eq_ok hlt]
    simp only [Functor.map, Except.map, hlt, true_and, Except.ok.injEq, hnull]
    rfl
  · rw [isResident, node_eq_error hge]
    simp only [Functor.map, Except.map, reduceCtorEq, false_iff, not_and]
    exact fun hlt => absurd hlt (Nat.not_lt.mpr hge)

theorem lt_maxSlots (h : i < s.size) : i < maxSlots := Nat.lt_of_lt_of_le h s.size_le

theorem nodeAt_modifyNode (s : Store) (i j : Slot) (f : Node → Node) :
    (s.modifyNode i f).nodeAt j = if i = j ∧ i < s.size then f (s.nodeAt j) else s.nodeAt j := by
  by_cases hj : j < s.size
  · have h := node_modifyNode s i j f
    rw [node_eq_ok hj, node_eq_ok (by rw [size_modifyNode]; exact hj)] at h
    by_cases hij : i = j
    · subst hij
      simpa [hj, Functor.map, Except.map] using h
    · simpa [hij, Functor.map, Except.map] using h
  · have hle : s.size ≤ j := Nat.le_of_not_lt hj
    rw [nodeAt_of_le (by rw [size_modifyNode]; exact hle), nodeAt_of_le hle, if_neg]
    rintro ⟨rfl, h⟩
    exact hj h

@[simp] theorem keyAt_modifyNode (s : Store) (i j : Slot) (f : Node → Node) :
    (s.modifyNode i f).keyAt j = s.keyAt j := by
  by_cases hj : j < s.size
  · have h := key_modifyNode s i j f
    rw [key_eq_ok hj, key_eq_ok (by rw [size_modifyNode]; exact hj)] at h
    exact Except.ok.inj h
  · have hle : s.size ≤ j := Nat.le_of_not_lt hj
    rw [keyAt_of_le (by rw [size_modifyNode]; exact hle), keyAt_of_le hle]

/-! ### Hanging -/

/-- A shape hangs in a place. -/
def Hangs (s : Store) : Place → Shape → Prop
  | place, .leaf i => s.up (.leaf i) = some place
  | place, .branch i b l r =>
    s.up (.branch i) = some place ∧ s.levelAt i = b ∧ s.down i .left = some l.root ∧
      s.down i .right = some r.root ∧ s.Hangs (.under i .left) l ∧ s.Hangs (.under i .right) r

/-- A path is spelled out, with `c` at its end. -/
def Lines (s : Store) : Path → Child → Prop
  | [], _ => True
  | f :: fs, c =>
    s.up (.branch f.slot) = some (Path.place fs) ∧ s.levelAt f.slot = f.bit ∧
      s.down f.slot f.side = some c ∧ s.down f.slot f.side.opposite = some f.other.root ∧
      s.Hangs (.under f.slot f.side.opposite) f.other ∧ s.Lines fs (.branch f.slot)

theorem Hangs.up_root (h : s.Hangs place t) : s.up t.root = some place := by
  cases t with
  | leaf i => exact h
  | branch i b l r => exact h.1

theorem Hangs.levelAt_root (h : s.Hangs place t) (hroot : t.root = .branch i) :
    s.levelAt i = t.level := by
  cases t with
  | leaf j => cases hroot
  | branch j b l r =>
    cases hroot
    exact h.2.1

theorem hangs_close {f : Fork} :
    s.Hangs place (f.close t) ↔
      s.up (.branch f.slot) = some place ∧ s.levelAt f.slot = f.bit ∧
        s.down f.slot f.side = some t.root ∧ s.down f.slot f.side.opposite = some f.other.root ∧
        s.Hangs (.under f.slot f.side.opposite) f.other ∧ s.Hangs (.under f.slot f.side) t := by
  unfold Fork.close
  cases f.side <;> simp only [Hangs, Side.opposite] <;> tauto

/-- A filled shape hangs when its path is spelled out and what is at its end hangs there. -/
theorem hangs_fill {path : Path} :
    s.Hangs .root (Path.fill path t) ↔ s.Lines path t.root ∧ s.Hangs (Path.place path) t := by
  induction path generalizing t with
  | nil => simp [Lines]
  | cons f fs ih =>
    rw [Path.fill_cons, ih, hangs_close, Fork.root_close, Lines, Path.place_cons]
    tauto

/-- A shape notices the leaf links of its leaves and the other fields of its branches. -/
theorem Hangs.congr (h : s.Hangs place t)
    (hleaf : ∀ i ∈ t.leaves, s'.up (.leaf i) = s.up (.leaf i))
    (hbranch : ∀ i ∈ t.branches, s'.up (.branch i) = s.up (.branch i) ∧
      s'.levelAt i = s.levelAt i ∧ ∀ side, s'.down i side = s.down i side) :
    s'.Hangs place t := by
  induction t generalizing place with
  | leaf i => exact (hleaf i (List.mem_singleton.mpr rfl)).trans h
  | branch i b l r ihl ihr =>
    obtain ⟨hup, hlevel, hleft, hright, hl, hr⟩ := h
    obtain ⟨hup', hlevel', hdown'⟩ := hbranch i List.mem_cons_self
    refine ⟨hup'.trans hup, hlevel'.trans hlevel, (hdown' _).trans hleft,
      (hdown' _).trans hright, ihl hl ?_ ?_, ihr hr ?_ ?_⟩
    · exact fun j hj => hleaf j (List.mem_append_left _ hj)
    · exact fun j hj => hbranch j (List.mem_cons_of_mem _ (List.mem_append_left _ hj))
    · exact fun j hj => hleaf j (List.mem_append_right _ hj)
    · exact fun j hj => hbranch j (List.mem_cons_of_mem _ (List.mem_append_right _ hj))

/-- A path notices the same of what it passes and of what hangs beside it. -/
theorem Lines.congr {path : Path} {c : Child} (h : s.Lines path c)
    (hleaf : ∀ i ∈ Path.leaves path, s'.up (.leaf i) = s.up (.leaf i))
    (hbranch : ∀ i ∈ Path.branches path, s'.up (.branch i) = s.up (.branch i) ∧
      s'.levelAt i = s.levelAt i ∧ ∀ side, s'.down i side = s.down i side) :
    s'.Lines path c := by
  induction path generalizing c with
  | nil => trivial
  | cons f fs ih =>
    obtain ⟨hup, hlevel, hside, hother, hhangs, hlines⟩ := h
    obtain ⟨hup', hlevel', hdown'⟩ := hbranch f.slot (by simp [Path.branches])
    refine ⟨hup'.trans hup, hlevel'.trans hlevel, (hdown' _).trans hside,
      (hdown' _).trans hother, hhangs.congr ?_ ?_, ih hlines ?_ ?_⟩
    · exact fun i hi => hleaf i (List.mem_append_left _ hi)
    · exact fun i hi => hbranch i (by simp [Path.branches, hi])
    · exact fun i hi => hleaf i (List.mem_append_right _ hi)
    · exact fun i hi => hbranch i (by simp [Path.branches, hi])

/-- A shape is moved by changing where its topmost slot hangs. -/
theorem Hangs.moved {place' : Place} (h : s.Hangs place t) (hnodup : t.branches.Nodup)
    (hroot : s'.up t.root = some place')
    (hleaf : ∀ i ∈ t.leaves, .leaf i ≠ t.root → s'.up (.leaf i) = s.up (.leaf i))
    (hbranch : ∀ i ∈ t.branches, (.branch i ≠ t.root → s'.up (.branch i) = s.up (.branch i)) ∧
      s'.levelAt i = s.levelAt i ∧ ∀ side, s'.down i side = s.down i side) :
    s'.Hangs place' t := by
  cases t with
  | leaf i => exact hroot
  | branch i b l r =>
    obtain ⟨-, hlevel, hleft, hright, hl, hr⟩ := h
    obtain ⟨-, hlevel', hdown'⟩ := hbranch i List.mem_cons_self
    -- the topmost slot does not come again further down as a branch
    have hne : ∀ j ∈ l.branches ++ r.branches, (Child.branch j) ≠ .branch i := by
      rintro j hj heq
      cases heq
      exact (List.nodup_cons.mp hnodup).1 hj
    refine ⟨hroot, hlevel'.trans hlevel, (hdown' _).trans hleft, (hdown' _).trans hright,
      hl.congr ?_ ?_, hr.congr ?_ ?_⟩
    · exact fun j hj => hleaf j (List.mem_append_left _ hj) (by simp)
    · intro j hj
      have hmem := List.mem_append_left r.branches hj
      obtain ⟨hup, hrest⟩ := hbranch j (List.mem_cons_of_mem _ hmem)
      exact ⟨hup (hne j hmem), hrest⟩
    · exact fun j hj => hleaf j (List.mem_append_right _ hj) (by simp)
    · intro j hj
      have hmem := List.mem_append_right l.branches hj
      obtain ⟨hup, hrest⟩ := hbranch j (List.mem_cons_of_mem _ hmem)
      exact ⟨hup (hne j hmem), hrest⟩

/-- The leaves of a shape that hangs hang somewhere. -/
theorem Hangs.up_leaf (h : s.Hangs place t) (hi : i ∈ t.leaves) :
    (s.up (.leaf i)).isSome = true := by
  induction t generalizing place with
  | leaf j =>
    rw [List.mem_singleton.mp hi, show s.up (.leaf j) = some place from h]
    rfl
  | branch j b l r ihl ihr =>
    obtain ⟨-, -, -, -, hl, hr⟩ := h
    rcases List.mem_append.mp hi with hi | hi
    · exact ihl hl hi
    · exact ihr hr hi

/-- Slots of a shape that hangs are in the store. -/
theorem Hangs.lt_size (h : s.Hangs place t) :
    (∀ i ∈ t.leaves, i < s.size) ∧ ∀ i ∈ t.branches, i < s.size := by
  induction t generalizing place with
  | leaf i =>
    refine ⟨?_, fun j hj => absurd hj List.not_mem_nil⟩
    intro j hj
    rw [List.mem_singleton.mp hj]
    exact lt_size_of_up h
  | branch i b l r ihl ihr =>
    obtain ⟨hup, -, -, -, hl, hr⟩ := h
    obtain ⟨hll, hlb⟩ := ihl hl
    obtain ⟨hrl, hrb⟩ := ihr hr
    constructor
    · intro j hj
      rcases List.mem_append.mp hj with hj | hj
      · exact hll j hj
      · exact hrl j hj
    · intro j hj
      rcases List.mem_cons.mp hj with hj | hj
      · rw [hj]
        exact lt_size_of_up hup
      · rcases List.mem_append.mp hj with hj | hj
        · exact hlb j hj
        · exact hrb j hj

/-- Slots that are met once are no more than the store has. -/
theorem length_le_size {slots : List Slot} (hnodup : slots.Nodup) (hlt : ∀ i ∈ slots, i < s.size) :
    slots.length ≤ s.size := by
  have hsub : slots ⊆ List.range s.size := fun i hi => List.mem_range.mpr (hlt i hi)
  calc slots.length ≤ (List.range s.size).length := (List.subperm_of_subset hnodup hsub).length_le
    _ = s.size := List.length_range

/-- A shape that meets no branch twice is no higher than the store has slots. -/
theorem Hangs.height_le (h : s.Hangs place t)
    (hnodup : t.branches.Nodup) : t.height ≤ s.size :=
  Nat.le_trans t.height_le_length_branches (length_le_size hnodup h.lt_size.2)

/-! ### Walking down -/

theorem follow_eq_ok {l : ChildLink} {c : Child} (h : l.child? = some c) : l.follow = .ok c := by
  rw [ChildLink.follow, h]

/-- Keeping to one side ends at the outermost leaf. -/
theorem Hangs.walkDown_eq (h : s.Hangs place t) (side : Side) {l : ChildLink}
    (hl : l.child? = some t.root) {fuel : Nat} (hfuel : t.height < fuel) :
    s.walkDown side fuel l = .ok (t.outermost side) := by
  induction t generalizing place l fuel with
  | leaf i =>
    obtain ⟨fuel, rfl⟩ := Nat.exists_eq_add_one_of_ne_zero (Nat.ne_of_gt (Nat.zero_lt_of_lt hfuel))
    rw [walkDown, follow_eq_ok hl]
    rfl
  | branch i b t u iht ihu =>
    obtain ⟨hup, -, hleft, hright, ht, hu⟩ := h
    obtain ⟨fuel, rfl⟩ := Nat.exists_eq_add_one_of_ne_zero (Nat.ne_of_gt (Nat.zero_lt_of_lt hfuel))
    have hi : i < s.size := lt_size_of_up hup
    rw [walkDown, follow_eq_ok hl]
    simp only [Shape.root_branch, node_eq_ok hi]
    simp only [Shape.height] at hfuel
    cases side with
    | left => exact iht ht hleft (by omega)
    | right => exact ihu hu hright (by omega)

theorem Hangs.outermost_eq (h : s.Hangs place t) (hnodup : t.branches.Nodup) (side : Side)
    {l : ChildLink} (hl : l.child? = some t.root) : s.outermost side l = .ok (t.outermost side) :=
  h.walkDown_eq side hl (Nat.lt_succ_of_le (h.height_le hnodup))

theorem Hangs.outermost_left (h : s.Hangs place t)
    (hnodup : t.branches.Nodup) {l : ChildLink} (hl : l.child? = some t.root) :
    s.outermost .left l = .ok t.oldest := by
  rw [h.outermost_eq hnodup .left hl, t.outermost_left]

/-! ### Reading a shape -/

/-- The shape that hangs from a link, at most `fuel` links down. -/
def shapeFrom (s : Store) : (fuel : Nat) → ChildLink → Option Shape
  | 0, _ => none
  | fuel + 1, l =>
    match l.child? with
    | none => none
    | some (.leaf i) => some (.leaf i)
    | some (.branch i) => do
      let left ← s.shapeFrom fuel (s.nodeAt i).left
      let right ← s.shapeFrom fuel (s.nodeAt i).right
      return .branch i (s.nodeAt i).bit.toInt left right

theorem Hangs.shapeFrom_eq (h : s.Hangs place t) {l : ChildLink}
    (hl : l.child? = some t.root) {fuel : Nat} (hfuel : t.height < fuel) :
    s.shapeFrom fuel l = some t := by
  induction t generalizing place l fuel with
  | leaf i =>
    obtain ⟨fuel, rfl⟩ := Nat.exists_eq_add_one_of_ne_zero (Nat.ne_of_gt (Nat.zero_lt_of_lt hfuel))
    rw [shapeFrom, hl]
    rfl
  | branch i b t u iht ihu =>
    obtain ⟨-, hlevel, hleft, hright, ht, hu⟩ := h
    obtain ⟨fuel, rfl⟩ := Nat.exists_eq_add_one_of_ne_zero (Nat.ne_of_gt (Nat.zero_lt_of_lt hfuel))
    simp only [Shape.height] at hfuel
    have ht' : s.shapeFrom fuel (s.nodeAt i).left = some t := iht ht hleft (by omega)
    have hu' : s.shapeFrom fuel (s.nodeAt i).right = some u := ihu hu hright (by omega)
    rw [shapeFrom, hl]
    simp only [Shape.root_branch, ht', hu']
    rw [← hlevel]
    rfl

end Store

/-! ### Trees -/

namespace Plot

/-- A shape hangs at the top of a tree. -/
def Holds (p : Plot) (t : Shape) : Prop :=
  p.tree.top.child? = some t.root ∧ p.store.Hangs .root t

/-- The shape of a tree that has entries, read off its child links. -/
def shape? (p : Plot) : Option Shape := p.store.shapeFrom (p.store.size + 1) p.tree.top

/-- The subtrees of equal entries of a tree, from left to right. -/
def clumps (p : Plot) : List Shape := (p.shape?.map Shape.clumps).getD []

/-- The groups of equal entries of a tree, from left to right. -/
def groups (p : Plot) : List Group := p.clumps.map Shape.group

/-- The shape that hangs is the one that is read. -/
theorem Holds.shape?_eq {p : Plot} {t : Shape} (h : p.Holds t) (hnodup : t.branches.Nodup) :
    p.shape? = some t :=
  h.2.shapeFrom_eq h.1 (Nat.lt_succ_of_le (h.2.height_le hnodup))

theorem Holds.not_isEmpty {p : Plot} {t : Shape} (h : p.Holds t) :
    ¬ p.tree.isEmpty = true := by
  intro hempty
  have htop : p.tree.top = .null := eq_of_beq hempty
  have hchild := h.1
  rw [htop] at hchild
  cases hchild

end Plot

end BitTrie
