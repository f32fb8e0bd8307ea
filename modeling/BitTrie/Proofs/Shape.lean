import BitTrie.Link
import Mathlib.Data.List.Nodup
import Mathlib.Data.List.Perm.Basic

/-!
# Shapes of trees

The shape of a tree is what its child links spell out: a binary tree with a slot at every leaf,
and a slot and a bit at every branch.  A negative bit is a level over entries with equal keys, so
a largest subtree under a negative bit is one *clump* of equal entries, and a leaf under no
negative bit is a clump of its own.  From left to right, the clumps are the groups of the tree.

A place inside a shape is given by the branches passed on the way to it, the last one first.

## Main definitions

* `Shape`, `Shape.leaves`, `Shape.branches` — shapes, and the slots met in each role.
* `Shape.clumps`, `Group`, `Shape.group` — the subtrees of equal entries, and their entries.
* `Shape.Stratified` — a shape with levels only below every level.
* `Shape.graft` — a shape with a new leaf beside it, under a new branch.
* `Fork`, `Path`, `Path.fill` — a way down, and the shape with a given one at its end.

## Main results

* `Path.leaves_fill_perm`, `Path.branches_fill`, `Path.clumps_fill` — what is met in a filled
  shape.
* `Path.exists_fill_clump` — every clump is at the end of a path over bits.
* `Path.leaves_fill_graft`, `Path.branches_fill_graft` — a graft adds one leaf and one branch.
-/

namespace BitTrie

/-- The shape of a tree. -/
inductive Shape where
  /-- An entry. -/
  | leaf (slot : Slot)
  /-- A decision on a bit, or on a level when the bit is negative. -/
  | branch (slot : Slot) (bit : Int) (left right : Shape)
  deriving DecidableEq, Repr, Inhabited

/-- Entries with equal keys, in the order of insertion. -/
structure Group where
  /-- The first entry. -/
  oldest : Slot
  /-- The entries inserted after it. -/
  later : List Slot
  deriving DecidableEq, Repr, Inhabited

/-- All entries of a group. -/
def Group.members (g : Group) : List Slot := g.oldest :: g.later

/-- The group with one more entry. -/
def Group.push (g : Group) (new : Slot) : Group := ⟨g.oldest, g.later ++ [new]⟩

namespace Shape

/-! ### Reading a shape -/

/-- How the topmost slot is met. -/
def root : Shape → Child
  | leaf i => .leaf i
  | branch i _ _ _ => .branch i

/-- The bit of the topmost branch; a leaf is on level zero. -/
def level : Shape → Int
  | leaf _ => 0
  | branch _ b _ _ => b

/-- The leaves from left to right. -/
def leaves : Shape → List Slot
  | leaf i => [i]
  | branch _ _ l r => l.leaves ++ r.leaves

/-- The branches, each before those below it. -/
def branches : Shape → List Slot
  | leaf _ => []
  | branch i _ l r => i :: (l.branches ++ r.branches)

/-- The leftmost leaf. -/
def oldest : Shape → Slot
  | leaf i => i
  | branch _ _ l _ => l.oldest

/-- The leaf reached by keeping to one side. -/
def outermost (side : Side) : Shape → Slot
  | leaf i => i
  | branch _ _ l r => match side with
    | .left => l.outermost side
    | .right => r.outermost side

/-- The number of branches on the longest way down. -/
def height : Shape → Nat
  | leaf _ => 0
  | branch _ _ l r => max l.height r.height + 1

/-- The largest subtrees of equal entries, from left to right. -/
def clumps : Shape → List Shape
  | leaf i => [leaf i]
  | branch i b l r => if b < 0 then [branch i b l r] else l.clumps ++ r.clumps

/-- Levels only, down to the leaves. -/
def Levelled : Shape → Prop
  | leaf _ => True
  | branch _ b l r => b < 0 ∧ l.Levelled ∧ r.Levelled

/-- Below a level there are levels only. -/
def Stratified (t : Shape) : Prop := ∀ c ∈ t.clumps, c.Levelled

/-- No slot is met twice in the same role. -/
structure Distinct (t : Shape) : Prop where
  leaves : t.leaves.Nodup
  branches : t.branches.Nodup

/-- The entries of a shape as one group. -/
def group (t : Shape) : Group := ⟨t.oldest, t.leaves.tail⟩

@[simp] theorem root_leaf (i : Slot) : (leaf i).root = .leaf i := rfl

@[simp] theorem root_branch (i : Slot) (b : Int) (l r : Shape) :
    (branch i b l r).root = .branch i := rfl

@[simp] theorem leaves_leaf (i : Slot) : (leaf i).leaves = [i] := rfl

@[simp] theorem leaves_branch (i : Slot) (b : Int) (l r : Shape) :
    (branch i b l r).leaves = l.leaves ++ r.leaves := rfl

@[simp] theorem branches_leaf (i : Slot) : (leaf i).branches = [] := rfl

@[simp] theorem branches_branch (i : Slot) (b : Int) (l r : Shape) :
    (branch i b l r).branches = i :: (l.branches ++ r.branches) := rfl

@[simp] theorem oldest_leaf (i : Slot) : (leaf i).oldest = i := rfl

@[simp] theorem oldest_branch (i : Slot) (b : Int) (l r : Shape) :
    (branch i b l r).oldest = l.oldest := rfl

@[simp] theorem clumps_leaf (i : Slot) : (leaf i).clumps = [leaf i] := rfl

theorem clumps_of_neg {i : Slot} {b : Int} {l r : Shape} (h : b < 0) :
    (branch i b l r).clumps = [branch i b l r] := if_pos h

theorem clumps_of_nonneg {i : Slot} {b : Int} {l r : Shape} (h : 0 ≤ b) :
    (branch i b l r).clumps = l.clumps ++ r.clumps := if_neg (Int.not_lt.mpr h)

theorem outermost_left (t : Shape) : t.outermost .left = t.oldest := by
  induction t with
  | leaf i => rfl
  | branch i b l r ihl ihr => exact ihl

/-- The leftmost leaf is the first one. -/
theorem leaves_eq_cons (t : Shape) : t.leaves = t.oldest :: t.leaves.tail := by
  induction t with
  | leaf i => rfl
  | branch i b l r ihl ihr =>
    rw [leaves_branch, oldest_branch, ihl]
    rfl

theorem members_group (t : Shape) : t.group.members = t.leaves := (leaves_eq_cons t).symm

theorem oldest_mem_leaves (t : Shape) : t.oldest ∈ t.leaves := by
  rw [leaves_eq_cons]
  exact List.mem_cons_self

theorem leaves_ne_nil (t : Shape) : t.leaves ≠ [] := by
  rw [leaves_eq_cons]
  exact List.cons_ne_nil _ _

theorem mem_leaves_of_root {t : Shape} {i : Slot} (h : t.root = .leaf i) : i ∈ t.leaves := by
  cases t with
  | leaf j => cases h; exact List.mem_singleton.mpr rfl
  | branch j b l r => cases h

theorem mem_branches_of_root {t : Shape} {i : Slot} (h : t.root = .branch i) :
    i ∈ t.branches := by
  cases t with
  | leaf j => cases h
  | branch j b l r => cases h; exact List.mem_cons_self

/-- A way down is no longer than there are branches. -/
theorem height_le_length_branches (t : Shape) : t.height ≤ t.branches.length := by
  induction t with
  | leaf i => exact Nat.le_refl 0
  | branch i b l r ihl ihr =>
    simp only [height, branches_branch, List.length_cons, List.length_append]
    omega

/-- There is one leaf more than there are branches. -/
theorem length_leaves (t : Shape) : t.leaves.length = t.branches.length + 1 := by
  induction t with
  | leaf i => rfl
  | branch i b l r ihl ihr =>
    simp only [leaves_branch, branches_branch, List.length_cons, List.length_append, ihl, ihr]
    omega

/-! ### Clumps -/

theorem clumps_ne_nil (t : Shape) : t.clumps ≠ [] := by
  induction t with
  | leaf i => exact List.cons_ne_nil _ _
  | branch i b l r ihl ihr =>
    rcases Int.lt_or_le b 0 with hb | hb
    · rw [clumps_of_neg hb]
      exact List.cons_ne_nil _ _
    · rw [clumps_of_nonneg hb]
      exact fun h => ihl (List.append_eq_nil_iff.mp h).1

/-- The leaves of the clumps are the leaves of the shape. -/
theorem flatMap_leaves_clumps (t : Shape) : t.clumps.flatMap leaves = t.leaves := by
  induction t with
  | leaf i => rfl
  | branch i b l r ihl ihr =>
    rcases Int.lt_or_le b 0 with hb | hb
    · rw [clumps_of_neg hb]
      exact List.append_nil _
    · rw [clumps_of_nonneg hb, List.flatMap_append, ihl, ihr, leaves_branch]

theorem mem_leaves_of_mem_clumps {t c : Shape} {i : Slot} (hc : c ∈ t.clumps)
    (hi : i ∈ c.leaves) : i ∈ t.leaves := by
  rw [← flatMap_leaves_clumps]
  exact List.mem_flatMap.mpr ⟨c, hc, hi⟩

theorem stratified_leaf (i : Slot) : (leaf i).Stratified := by
  intro c hc
  rw [List.mem_singleton.mp hc]
  trivial

theorem stratified_branch {i : Slot} {b : Int} {l r : Shape}
    (h : b < 0 → (branch i b l r).Levelled) (hl : l.Stratified) (hr : r.Stratified) :
    (branch i b l r).Stratified := by
  intro c hc
  rcases Int.lt_or_le b 0 with hb | hb
  · rw [clumps_of_neg hb, List.mem_singleton] at hc
    rw [hc]
    exact h hb
  · rw [clumps_of_nonneg hb] at hc
    exact (List.mem_append.mp hc).elim (hl c) (hr c)

/-- A clump is an entry, or begins with a level. -/
theorem eq_leaf_or_level_neg {t c : Shape} (hc : c ∈ t.clumps) :
    (∃ i, c = leaf i) ∨ c.level < 0 := by
  induction t with
  | leaf i => exact Or.inl ⟨i, List.mem_singleton.mp hc⟩
  | branch i b l r ihl ihr =>
    rcases Int.lt_or_le b 0 with hb | hb
    · rw [clumps_of_neg hb, List.mem_singleton] at hc
      rw [hc]
      exact Or.inr hb
    · rw [clumps_of_nonneg hb] at hc
      exact (List.mem_append.mp hc).elim ihl ihr

/-! ### Grafts -/

/-- A shape beside a new leaf on the given side, under a new branch. -/
def graft (old : Shape) (new : Slot) (side : Side) (bit : Int) : Shape :=
  match side with
  | .left => branch new bit (leaf new) old
  | .right => branch new bit old (leaf new)

@[simp] theorem root_graft (old : Shape) (new : Slot) (side : Side) (bit : Int) :
    (old.graft new side bit).root = .branch new := by cases side <;> rfl

theorem leaves_graft (old : Shape) (new : Slot) (side : Side) (bit : Int) :
    (old.graft new side bit).leaves.Perm (new :: old.leaves) := by
  cases side with
  | left => exact List.Perm.refl _
  | right => exact List.perm_append_comm

theorem branches_graft (old : Shape) (new : Slot) (side : Side) (bit : Int) :
    (old.graft new side bit).branches = new :: old.branches := by
  cases side with
  | left => rfl
  | right => simp [graft]

end Shape

/-! ### Paths -/

/-- A branch passed on the way down. -/
structure Fork where
  /-- The slot of the branch. -/
  slot : Slot
  /-- Its bit. -/
  bit : Int
  /-- The side that was taken. -/
  side : Side
  /-- What hangs on the other side. -/
  other : Shape
  deriving DecidableEq, Repr, Inhabited

/-- The branch with a shape on the side that was taken. -/
def Fork.close (f : Fork) (t : Shape) : Shape :=
  match f.side with
  | .left => .branch f.slot f.bit t f.other
  | .right => .branch f.slot f.bit f.other t

theorem Fork.levelled_close {f : Fork} {t : Shape} :
    (f.close t).Levelled ↔ f.bit < 0 ∧ t.Levelled ∧ f.other.Levelled := by
  unfold close
  cases f.side with
  | left => exact Iff.rfl
  | right => exact and_congr_right fun _ => and_comm

@[simp] theorem Fork.root_close (f : Fork) (t : Shape) : (f.close t).root = .branch f.slot := by
  unfold close
  cases f.side <;> rfl

/-- The branches passed on the way to a place, the last one first. -/
abbrev Path := List Fork

namespace Path

/-- The shape with `t` at the end of a path. -/
def fill : Path → Shape → Shape
  | [], t => t
  | f :: fs, t => fill fs (f.close t)

/-- The place at the end of a path. -/
def place : Path → Place
  | [] => .root
  | f :: _ => .under f.slot f.side

/-- What hangs on the left of a path. -/
def leftOf : Path → List Shape
  | [] => []
  | f :: fs => leftOf fs ++ match f.side with
    | .left => []
    | .right => [f.other]

/-- What hangs on the right of a path. -/
def rightOf : Path → List Shape
  | [] => []
  | f :: fs => (match f.side with
    | .left => [f.other]
    | .right => []) ++ rightOf fs

/-- The leaves that hang beside a path. -/
def leaves : Path → List Slot
  | [] => []
  | f :: fs => f.other.leaves ++ leaves fs

/-- The slots of the branches that are passed and of those that hang beside them. -/
def branches : Path → List Slot
  | [] => []
  | f :: fs => f.slot :: f.other.branches ++ branches fs

/-- A path that passes no level over equal entries. -/
def Ordinary (path : Path) : Prop := ∀ f ∈ path, 0 ≤ f.bit

@[simp] theorem fill_nil (t : Shape) : fill [] t = t := rfl

@[simp] theorem fill_cons (f : Fork) (fs : Path) (t : Shape) :
    fill (f :: fs) t = fill fs (f.close t) := rfl

theorem fill_append (inner outer : Path) (t : Shape) :
    fill (inner ++ outer) t = fill outer (fill inner t) := by
  induction inner generalizing t with
  | nil => rfl
  | cons f fs ih => exact ih (f.close t)

@[simp] theorem place_nil : place [] = .root := rfl

@[simp] theorem place_cons (f : Fork) (fs : Path) : place (f :: fs) = .under f.slot f.side := rfl

/-- All branches on a way down among levels are levels. -/
theorem levelled_of_fill {path : Path} {t : Shape} (h : (fill path t).Levelled) :
    t.Levelled ∧ ∀ f ∈ path, f.bit < 0 := by
  induction path generalizing t with
  | nil => exact ⟨h, fun f hf => absurd hf List.not_mem_nil⟩
  | cons f fs ih =>
    obtain ⟨hclose, hfs⟩ := ih h
    obtain ⟨hbit, ht, -⟩ := Fork.levelled_close.mp hclose
    exact ⟨ht, List.forall_mem_cons.mpr ⟨hbit, hfs⟩⟩

/-- What is at the end of a path that is not empty is not met first. -/
theorem root_fill_cons (f : Fork) (fs : Path) (t u : Shape) :
    (fill (f :: fs) t).root = (fill (f :: fs) u).root := by
  induction fs generalizing f t u with
  | nil => simp
  | cons g gs ih => exact ih g (f.close t) (f.close u)

theorem ordinary_cons {f : Fork} {fs : Path} :
    Ordinary (f :: fs) ↔ 0 ≤ f.bit ∧ Ordinary fs := List.forall_mem_cons

/-- Every clump is at the end of a path over bits. -/
theorem exists_fill_clump {t c : Shape} (hc : c ∈ t.clumps) :
    ∃ path, Ordinary path ∧ fill path c = t := by
  induction t with
  | leaf i => exact ⟨[], fun f hf => absurd hf List.not_mem_nil, List.mem_singleton.mp hc⟩
  | branch i b l r ihl ihr =>
    rcases Int.lt_or_le b 0 with hb | hb
    · rw [Shape.clumps_of_neg hb] at hc
      exact ⟨[], fun f hf => absurd hf List.not_mem_nil, List.mem_singleton.mp hc⟩
    -- the path into one side of a branch goes on through the branch
    · have hsnoc : ∀ {path side other}, Ordinary path →
          Ordinary (path ++ [⟨i, b, side, other⟩]) := fun hpath =>
        List.forall_mem_append.mpr ⟨hpath, List.forall_mem_singleton.mpr hb⟩
      rw [Shape.clumps_of_nonneg hb] at hc
      rcases List.mem_append.mp hc with hc | hc
      · obtain ⟨path, hpath, hfill⟩ := ihl hc
        exact ⟨path ++ [⟨i, b, .left, r⟩], hsnoc hpath, by rw [fill_append, hfill]; rfl⟩
      · obtain ⟨path, hpath, hfill⟩ := ihr hc
        exact ⟨path ++ [⟨i, b, .right, l⟩], hsnoc hpath, by rw [fill_append, hfill]; rfl⟩

/-- The leaves met: those at the end of the path, and those beside it. -/
theorem leaves_fill_perm (path : Path) (t : Shape) :
    (fill path t).leaves.Perm (t.leaves ++ leaves path) := by
  induction path generalizing t with
  | nil => simp [leaves]
  | cons f fs ih =>
    rw [fill_cons]
    refine (ih (f.close t)).trans ?_
    rw [leaves, ← List.append_assoc]
    apply List.Perm.append_right _
    unfold Fork.close
    cases f.side with
    | left => exact List.Perm.refl _
    | right => exact List.perm_append_comm

/-- The clumps met from left to right, when no clump is entered. -/
theorem clumps_fill {path : Path} (h : Ordinary path) (t : Shape) :
    (fill path t).clumps =
      (leftOf path).flatMap Shape.clumps ++ t.clumps ++ (rightOf path).flatMap Shape.clumps := by
  induction path generalizing t with
  | nil => simp [leftOf, rightOf]
  | cons f fs ih =>
    obtain ⟨hbit, hfs⟩ := ordinary_cons.mp h
    rw [fill_cons, ih hfs, Fork.close]
    cases hside : f.side <;> simp [leftOf, rightOf, hside, Shape.clumps_of_nonneg hbit]

/-- The branches met: those of the path, and those at its end. -/
theorem branches_fill (path : Path) (t : Shape) :
    (fill path t).branches.Perm (t.branches ++ branches path) := by
  induction path generalizing t with
  | nil => simp [branches]
  | cons f fs ih =>
    rw [fill_cons]
    refine (ih (f.close t)).trans ?_
    rw [branches, ← List.append_assoc]
    apply List.Perm.append_right _
    unfold Fork.close
    cases f.side with
    | left => exact List.perm_middle.symm
    | right =>
      refine List.Perm.trans (List.Perm.cons _ List.perm_append_comm) ?_
      exact List.perm_middle.symm

/-- A graft adds one leaf. -/
theorem leaves_fill_graft (path : Path) (old : Shape) (new : Slot) (side : Side) (bit : Int) :
    (fill path (old.graft new side bit)).leaves.Perm (new :: (fill path old).leaves) := by
  refine (leaves_fill_perm path _).trans ?_
  refine (List.Perm.append_right _ (Shape.leaves_graft old new side bit)).trans ?_
  exact List.Perm.cons _ (leaves_fill_perm path old).symm

/-- A graft adds one branch. -/
theorem branches_fill_graft (path : Path) (old : Shape) (new : Slot) (side : Side) (bit : Int) :
    (fill path (old.graft new side bit)).branches.Perm (new :: (fill path old).branches) := by
  refine (branches_fill path _).trans ?_
  rw [Shape.branches_graft]
  exact List.Perm.cons _ (branches_fill path old).symm

/-- A graft of a slot that is not met keeps all slots distinct. -/
theorem distinct_fill_graft {path : Path} {old : Shape} {new : Slot}
    (h : (fill path old).Distinct) (hleaf : new ∉ (fill path old).leaves)
    (hbranch : new ∉ (fill path old).branches) (side : Side) (bit : Int) :
    (fill path (old.graft new side bit)).Distinct where
  leaves := (leaves_fill_graft path old new side bit).nodup_iff.mpr
    (List.nodup_cons.mpr ⟨hleaf, h.leaves⟩)
  branches := (branches_fill_graft path old new side bit).nodup_iff.mpr
    (List.nodup_cons.mpr ⟨hbranch, h.branches⟩)

end Path

end BitTrie
