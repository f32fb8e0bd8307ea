import BitTrie.Proofs.Hanging

/-!
# Grafting a leaf into a shape

Every insertion into a tree that has entries comes down to one change: a new slot takes the place
of what hung somewhere, as a branch with itself as a leaf on one side and what hung there on the
other.  The edits that do so write the links in different orders, and end in the same state.

## Main definitions

* `Node.IsGraft` — the node of the new slot.
* `Store.Rewired` — the links of the new slot and of what hung in its place.
* `Plot.hung` — a tree with a link put in a place.
* `Grafted` — **the effect of a graft**, link by link.
* `Planted` — the effect of the first insertion.

## Main results

* `Edit.splice_grafted`, `Edit.fillHole_grafted`, `Edit.stack_grafted` — what each edit does.
* `Edit.plant_planted` — what planting the first entry does.
* `Grafted.holds` — a graft into a place makes the shape with the graft in that place.
* `Grafted.nodeAt_eq` — the nodes that a graft leaves alone.
-/

namespace BitTrie

/-! ### Links that can be made -/

theorem ParentLink.ofPlace_under {i : Slot} (h : i < maxSlots) (side : Side) :
    ∃ l, ofPlace (.under i side) = .ok l ∧ l.place? = some (.under i side) :=
  ⟨of i side h, dif_pos h, place?_of i side h⟩

theorem ChildLink.ofChild_eq_ok {c : Child} (h : c.slot < maxSlots) :
    ∃ l, ofChild c = .ok l ∧ l.child? = some c :=
  ⟨of c.role c.slot h, dif_pos h, by rw [child?_of, Child.of_role_slot]⟩

theorem Edit.ofOutcome_of_ok {α : Type} {o : Outcome α} {a : α} (h : o = .ok a) (p : Plot) :
    Edit.ofOutcome o p = .ok a p := Edit.ask_of_ok h

theorem Edit.node_of_lt {p : Plot} {i : Slot} (h : i < p.store.size) :
    Edit.node i p = .ok (p.store.nodeAt i) p := Edit.ask_of_ok (Store.node_eq_ok h)

/-! ### Nodes -/

namespace Node

theorem up_setUp (n : Node) (r r' : Role) (l : ParentLink) :
    (n.setUp r l).up r' = if r' = r then l else n.up r' := by
  cases r <;> cases r' <;> rfl

@[simp] theorem bit_setUp (n : Node) (r : Role) (l : ParentLink) : (n.setUp r l).bit = n.bit := by
  cases r <;> rfl

@[simp] theorem child_setUp (n : Node) (r : Role) (l : ParentLink) (side : Side) :
    (n.setUp r l).child side = n.child side := by
  cases r <;> cases side <;> rfl

@[simp] theorem up_setChild (n : Node) (side : Side) (l : ChildLink) (r : Role) :
    (n.setChild side l).up r = n.up r := by
  cases r <;> cases side <;> rfl

@[simp] theorem bit_setChild (n : Node) (side : Side) (l : ChildLink) :
    (n.setChild side l).bit = n.bit := by
  cases side <;> rfl

theorem child_setChild (n : Node) (side side' : Side) (l : ChildLink) :
    (n.setChild side l).child side' = if side' = side then l else n.child side' := by
  cases side <;> cases side' <;> rfl

/-- The node of a branch that hangs in `place` and has the leaf of its own slot `new` on `side`
and `old` on the other. -/
structure IsGraft (n : Node) (place : Place) (old : Child) (new : Slot) (side : Side)
    (bit : Int) : Prop where
  bit : n.bit.toInt = bit
  own : (n.child side).child? = some (.leaf new)
  old : (n.child side.opposite).child? = some old
  branchUp : n.branchUp.place? = some place
  leafUp : n.leafUp.place? = some (.under new side)

/-- Nodes with the same links and the same bit are the same. -/
theorem ext_links {n m : Node} (hbit : n.bit.toInt = m.bit.toInt)
    (hchild : ∀ side, (n.child side).child? = (m.child side).child?)
    (hup : ∀ role, (n.up role).place? = (m.up role).place?) : n = m := by
  obtain ⟨b, l, r, bu, lu⟩ := n
  obtain ⟨b', l', r', bu', lu'⟩ := m
  have h1 : b = b' := Int32.toInt_inj.mp hbit
  have h2 : l = l' := ChildLink.ext_child? (hchild .left)
  have h3 : r = r' := ChildLink.ext_child? (hchild .right)
  have h4 : bu = bu' := ParentLink.ext_place? (hup .branch)
  have h5 : lu = lu' := ParentLink.ext_place? (hup .leaf)
  rw [h1, h2, h3, h4, h5]

end Node

/-! ### Rewiring -/

namespace Store

/-- The links of `new` are set for it to be a branch over its own leaf and `old`, and `old` links
back to it. -/
structure Rewired (s : Store) (place : Place) (old : Child) (new : Slot) (side : Side) (bit : Int)
    (s' : Store) : Prop where
  size : s'.size = s.size
  key : ∀ i, s'.keyAt i = s.keyAt i
  level : ∀ i, s'.levelAt i = if i = new then bit else s.levelAt i
  up : ∀ c, s'.up c =
    if c = .leaf new then some (.under new side)
    else if c = .branch new then some place
    else if c = old then some (.under new side.opposite)
    else s.up c
  down : ∀ i t, s'.down i t =
    if i = new then some (if t = side then .leaf new else old) else s.down i t

theorem Rewired.of_nodeAt {s s' : Store} {place : Place} {old : Child} {new : Slot} {side : Side}
    {bit : Int} {n : Node} {oldUp : ParentLink} (hne : old.slot ≠ new)
    (hsize : s'.size = s.size) (hkey : ∀ i, s'.keyAt i = s.keyAt i)
    (hn : n.IsGraft place old new side bit)
    (holdUp : oldUp.place? = some (.under new side.opposite))
    (hnode : ∀ i, s'.nodeAt i = if i = new then n
      else if i = old.slot then (s.nodeAt i).setUp old.role oldUp else s.nodeAt i) :
    s.Rewired place old new side bit s' where
  size := hsize
  key := hkey
  level i := by
    rw [Store.levelAt, hnode]
    split
    · exact hn.bit
    · split <;> simp [Store.levelAt]
  up c := by
    rw [Store.up, hnode]
    by_cases hc : c.slot = new
    · cases c with
      | leaf i =>
        obtain rfl : i = new := hc
        simpa [Node.up] using hn.leafUp
      | branch i =>
        obtain rfl : i = new := hc
        simpa [Node.up] using hn.branchUp
    · have hleaf : c ≠ .leaf new := fun h => hc (by rw [h]; rfl)
      have hbranch : c ≠ .branch new := fun h => hc (by rw [h]; rfl)
      rw [if_neg hc, if_neg hleaf, if_neg hbranch]
      by_cases hold : c = old
      · rw [if_pos hold, if_pos (by rw [hold]), hold, Node.up_setUp, if_pos rfl]
        exact holdUp
      · rw [if_neg hold]
        split
        · next hslot =>
          rw [Node.up_setUp, if_neg]
          · rfl
          · intro hrole
            exact hold (by rw [← Child.of_role_slot c, hslot, hrole, Child.of_role_slot])
        · rfl
  down i t := by
    rw [Store.down, hnode]
    split
    · next hi =>
      by_cases ht : t = side
      · rw [if_pos ht, ht]
        exact hn.own
      · have hopposite : t = side.opposite := by
          cases t <;> cases side <;> simp_all [Side.opposite]
        rw [if_neg ht, hopposite]
        exact hn.old
    · split <;> simp [Store.down]

end Store

/-! ### Putting a link in a place -/

namespace Plot

/-- The tree and its store with a link put in a place. -/
def hung (p : Plot) : Place → ChildLink → Plot
  | .root, l => { p with tree := { p.tree with top := l } }
  | .under i side, l => { p with store := p.store.modifyNode i (·.setChild side l) }

/-- A place is at the top of the tree or at a slot of the store. -/
def HasPlace (p : Plot) (place : Place) : Prop :=
  ∀ i side, place = .under i side → i < p.store.size

variable {p : Plot} {place : Place}

/-- What a path leads to is at the top of the tree or at a slot of the store. -/
theorem hasPlace_of_lines {path : Path} {c : Child} (h : p.store.Lines path c) :
    p.HasPlace (Path.place path) := by
  intro i side hplace
  cases path with
  | nil => cases hplace
  | cons f fs =>
    cases hplace
    exact Store.lt_size_of_up h.1

theorem hangAt_eq (h : p.HasPlace place) (l : ChildLink) :
    Edit.hangAt place l p = .ok () (p.hung place l) := by
  cases place with
  | root => rfl
  | under i side => exact Edit.modifyNode_of_lt (h i side rfl) _

@[simp] theorem unique_hung (l : ChildLink) : (p.hung place l).tree.unique = p.tree.unique := by
  cases place <;> rfl

theorem top_hung (l : ChildLink) :
    (p.hung place l).tree.top = if place = .root then l else p.tree.top := by
  cases place <;> rfl

@[simp] theorem size_hung (l : ChildLink) : (p.hung place l).store.size = p.store.size := by
  cases place with
  | root => rfl
  | under i side => exact Store.size_modifyNode _ _ _

@[simp] theorem keyAt_hung (l : ChildLink) (i : Slot) :
    (p.hung place l).store.keyAt i = p.store.keyAt i := by
  cases place with
  | root => rfl
  | under i side => exact Store.keyAt_modifyNode _ _ _ _

/-- Of a node, only the child link of the place is changed. -/
theorem nodeAt_hung (h : p.HasPlace place) (l : ChildLink) (i : Slot) :
    ((p.hung place l).store.nodeAt i).bit = (p.store.nodeAt i).bit ∧
      (∀ role, ((p.hung place l).store.nodeAt i).up role = (p.store.nodeAt i).up role) ∧
      ∀ side, ((p.hung place l).store.nodeAt i).child side =
        if place = .under i side then l else (p.store.nodeAt i).child side := by
  cases place with
  | root => exact ⟨rfl, fun _ => rfl, fun _ => rfl⟩
  | under j s =>
    unfold hung
    simp only [Store.nodeAt_modifyNode, h j s rfl, and_true]
    by_cases hij : j = i
    · subst hij
      simp [Node.child_setChild, eq_comm]
    · simp [hij]

theorem levelAt_hung (h : p.HasPlace place) (l : ChildLink) (i : Slot) :
    (p.hung place l).store.levelAt i = p.store.levelAt i := by
  rw [Store.levelAt, (nodeAt_hung h l i).1]
  rfl

theorem up_hung (h : p.HasPlace place) (l : ChildLink) (c : Child) :
    (p.hung place l).store.up c = p.store.up c := by
  rw [Store.up, (nodeAt_hung h l c.slot).2.1]
  rfl

theorem down_hung (h : p.HasPlace place) (l : ChildLink) (i : Slot) (side : Side) :
    (p.hung place l).store.down i side =
      if place = .under i side then l.child? else p.store.down i side := by
  rw [Store.down, (nodeAt_hung h l i).2.2]
  split <;> rfl

end Plot

/-! ### The effect of a graft -/

/-- The effect of a graft: `new` hangs in `place` as a branch on `bit`, with its own leaf on
`side`, and on the other side `old`, which hung in `place` before.  All other links and bits, and
all keys, are as they were. -/
structure Grafted (p : Plot) (place : Place) (old : Child) (new : Slot) (side : Side) (bit : Int)
    (q : Plot) : Prop where
  unique : q.tree.unique = p.tree.unique
  top : q.tree.top.child? =
    if place = .root then some (.branch new) else p.tree.top.child?
  size : q.store.size = p.store.size
  key : ∀ i, q.store.keyAt i = p.store.keyAt i
  level : ∀ i, q.store.levelAt i = if i = new then bit else p.store.levelAt i
  up : ∀ c, q.store.up c =
    if c = .leaf new then some (.under new side)
    else if c = .branch new then some place
    else if c = old then some (.under new side.opposite)
    else p.store.up c
  down : ∀ i t, q.store.down i t =
    if i = new then some (if t = side then .leaf new else old)
    else if place = .under i t then some (.branch new)
    else p.store.down i t

namespace Grafted

variable {p q : Plot} {place : Place} {old : Child} {new : Slot} {side : Side} {bit : Int}

/-- The links are set first, and the place last. -/
theorem of_rewired {s : Store} (hplace : p.HasPlace place) (hne : ∀ t, place ≠ .under new t)
    (h : p.store.Rewired place old new side bit s) {l : ChildLink}
    (hl : l.child? = some (.branch new)) :
    Grafted p place old new side bit (Plot.hung ⟨p.tree, s⟩ place l) := by
  have hplace' : Plot.HasPlace ⟨p.tree, s⟩ place := by
    intro i t hi
    rw [h.size]
    exact hplace i t hi
  refine ⟨Plot.unique_hung l, ?_, (Plot.size_hung l).trans h.size,
    fun i => (Plot.keyAt_hung l i).trans (h.key i),
    fun i => (Plot.levelAt_hung hplace' l i).trans (h.level i),
    fun c => (Plot.up_hung hplace' l c).trans (h.up c), ?_⟩
  · rw [Plot.top_hung]
    split
    · exact hl
    · rfl
  · intro i t
    rw [Plot.down_hung hplace', h.down, hl]
    by_cases hi : i = new
    · rw [if_neg (by rw [hi]; exact hne t)]
      simp [hi]
    · simp [hi]

/-- The place is set first, and the links after it. -/
theorem of_hung {s : Store} (hplace : p.HasPlace place) {l : ChildLink}
    (hl : l.child? = some (.branch new))
    (h : (p.hung place l).store.Rewired place old new side bit s) :
    Grafted p place old new side bit ⟨(p.hung place l).tree, s⟩ := by
  refine ⟨Plot.unique_hung l, ?_, h.size.trans (Plot.size_hung l),
    fun i => (h.key i).trans (Plot.keyAt_hung l i), ?_, ?_, ?_⟩
  · rw [Plot.top_hung]
    split
    · exact hl
    · rfl
  · intro i
    rw [h.level, Plot.levelAt_hung hplace]
  · intro c
    rw [h.up, Plot.up_hung hplace]
  · intro i t
    rw [h.down, Plot.down_hung hplace, hl]

theorem up_eq (h : Grafted p place old new side bit q) {c : Child} (hnew : c.slot ≠ new)
    (hold : c ≠ old) : q.store.up c = p.store.up c := by
  rw [h.up, if_neg fun hc => hnew (by rw [hc]; rfl), if_neg fun hc => hnew (by rw [hc]; rfl),
    if_neg hold]

theorem level_eq (h : Grafted p place old new side bit q) {i : Slot} (hnew : i ≠ new) :
    q.store.levelAt i = p.store.levelAt i := by
  rw [h.level, if_neg hnew]

theorem down_eq (h : Grafted p place old new side bit q) {i : Slot} {t : Side} (hnew : i ≠ new)
    (hplace : place ≠ .under i t) : q.store.down i t = p.store.down i t := by
  rw [h.down, if_neg hnew, if_neg hplace]

/-- A graft leaves alone the nodes of all slots but the new one, the one that hung in its place,
and the one whose place it is. -/
theorem nodeAt_eq (h : Grafted p place old new side bit q) {i : Slot} (hnew : i ≠ new)
    (hold : i ≠ old.slot) (hplace : ∀ t, place ≠ .under i t) :
    q.store.nodeAt i = p.store.nodeAt i := by
  refine Node.ext_links (h.level_eq hnew) (fun t => h.down_eq hnew (hplace t)) ?_
  intro role
  have hup := h.up_eq (c := Child.of role i) (by simpa using hnew)
    fun hc => hold (by simpa using congrArg Child.slot hc)
  simpa [Store.up] using hup

/-- The path to the place of a graft leads to the new branch. -/
theorem lines {path : Path} (h : Grafted p (Path.place path) old new side bit q)
    (hlines : p.store.Lines path old) (hnodup : (Path.branches path).Nodup)
    (hleaves : ∀ i ∈ Path.leaves path, i ≠ new ∧ .leaf i ≠ old)
    (hbranches : ∀ i ∈ Path.branches path, i ≠ new ∧ .branch i ≠ old) :
    q.store.Lines path (.branch new) := by
  cases path with
  | nil => trivial
  | cons f fs =>
    obtain ⟨hup, hlevel, -, hother, hhangs, hrest⟩ := hlines
    obtain ⟨hnotMem, -⟩ := List.nodup_cons.mp hnodup
    obtain ⟨hnew, hold⟩ := hbranches f.slot List.mem_cons_self
    have hleafUp : ∀ i ∈ Path.leaves (f :: fs), q.store.up (.leaf i) = p.store.up (.leaf i) :=
      fun i hi => h.up_eq (hleaves i hi).1 (hleaves i hi).2
    -- only the last branch of the path gets another child link
    have hkeep : ∀ i ∈ f.other.branches ++ Path.branches fs,
        q.store.up (.branch i) = p.store.up (.branch i) ∧
          q.store.levelAt i = p.store.levelAt i ∧
          ∀ t, q.store.down i t = p.store.down i t := by
      intro i hi
      obtain ⟨hnew, hold⟩ := hbranches i (List.mem_cons_of_mem _ hi)
      refine ⟨h.up_eq hnew hold, h.level_eq hnew, fun t => h.down_eq hnew ?_⟩
      intro heq
      cases heq
      exact hnotMem hi
    have hslot : (Child.branch f.slot).slot ≠ new := hnew
    refine ⟨(h.up_eq hslot hold).trans hup, (h.level_eq hnew).trans hlevel, ?_,
      (h.down_eq hnew ?_).trans hother, hhangs.congr ?_ ?_, hrest.congr ?_ ?_⟩
    · rw [h.down, if_neg hnew, Path.place_cons, if_pos rfl]
    · simpa using f.side.ne_opposite
    · exact fun i hi => hleafUp i (List.mem_append_left _ hi)
    · exact fun i hi => hkeep i (List.mem_append_left _ hi)
    · exact fun i hi => hleafUp i (List.mem_append_right _ hi)
    · exact fun i hi => hkeep i (List.mem_append_right _ hi)

/-- In the place of a graft hangs the new branch, over what hung there before. -/
theorem hangs_graft {u : Shape} (h : Grafted p place u.root new side bit q)
    (hhangs : p.store.Hangs place u) (hnodup : u.branches.Nodup) (hleaves : new ∉ u.leaves)
    (hbranches : new ∉ u.branches) (hplace : ∀ i ∈ u.branches, ∀ t, place ≠ .under i t) :
    q.store.Hangs place (u.graft new side bit) := by
  have hleafNew : Child.leaf new ≠ u.root := fun hr => hleaves (Shape.mem_leaves_of_root hr.symm)
  have hbranchNew : Child.branch new ≠ u.root :=
    fun hr => hbranches (Shape.mem_branches_of_root hr.symm)
  -- what hung here hangs one branch lower, and only its topmost link has changed
  have hmoved : q.store.Hangs (.under new side.opposite) u := by
    refine hhangs.moved hnodup ?_ ?_ ?_
    · rw [h.up, if_neg hleafNew.symm, if_neg hbranchNew.symm, if_pos rfl]
    · intro i hi hne
      exact h.up_eq (fun hi' : i = new => hleaves (hi' ▸ hi)) hne
    · intro i hi
      have hnew : i ≠ new := fun hi' => hbranches (hi' ▸ hi)
      exact ⟨fun hne => h.up_eq hnew hne, h.level_eq hnew,
        fun t => h.down_eq hnew (hplace i hi t)⟩
  have hleaf : q.store.up (.leaf new) = some (.under new side) := by rw [h.up, if_pos rfl]
  have hbranch : q.store.up (.branch new) = some place := by
    rw [h.up, if_neg (by simp), if_pos rfl]
  have hlevel : q.store.levelAt new = bit := by rw [h.level, if_pos rfl]
  have hdown : ∀ t, q.store.down new t = some (if t = side then .leaf new else u.root) :=
    fun t => by rw [h.down, if_pos rfl]
  cases side with
  | left => exact ⟨hbranch, hlevel, hdown .left, hdown .right, hleaf, hmoved⟩
  | right => exact ⟨hbranch, hlevel, hdown .left, hdown .right, hmoved, hleaf⟩

/-- **A graft beside what hangs at the end of a path** makes the shape with the graft there. -/
theorem holds {path : Path} {u : Shape} (h : Grafted p (Path.place path) u.root new side bit q)
    (hp : p.Holds (Path.fill path u)) (hdistinct : (Path.fill path u).Distinct)
    (hleaf : new ∉ (Path.fill path u).leaves) (hbranch : new ∉ (Path.fill path u).branches) :
    q.Holds (Path.fill path (u.graft new side bit)) := by
  obtain ⟨htop, hhangs⟩ := hp
  obtain ⟨hlines, hu⟩ := Store.hangs_fill.mp hhangs
  have hpermL := Path.leaves_fill_perm path u
  have hpermB := Path.branches_fill path u
  obtain ⟨-, -, hdisjL⟩ := List.nodup_append.mp (hpermL.nodup_iff.mp hdistinct.leaves)
  obtain ⟨huB, hpathB, hdisjB⟩ := List.nodup_append.mp (hpermB.nodup_iff.mp hdistinct.branches)
  rw [hpermL.mem_iff, List.mem_append, not_or] at hleaf
  rw [hpermB.mem_iff, List.mem_append, not_or] at hbranch
  refine ⟨?_, Store.hangs_fill.mpr ⟨?_, ?_⟩⟩
  · rw [h.top]
    cases path with
    | nil => simp
    | cons f fs => simpa [htop] using congrArg some (Path.root_fill_cons f fs u _)
  · rw [Shape.root_graft]
    refine h.lines hlines hpathB (fun i hi => ⟨fun hi' => hleaf.2 (hi' ▸ hi), ?_⟩)
      fun i hi => ⟨fun hi' => hbranch.2 (hi' ▸ hi), ?_⟩
    · intro hr
      exact hdisjL i (Shape.mem_leaves_of_root hr.symm) i hi rfl
    · intro hr
      exact hdisjB i (Shape.mem_branches_of_root hr.symm) i hi rfl
  · apply h.hangs_graft hu huB hleaf.1 hbranch.1
    intro i hi t hplace
    cases path with
    | nil => cases hplace
    | cons f fs =>
      cases hplace
      exact hdisjB f.slot hi f.slot List.mem_cons_self rfl

end Grafted

/-! ### The first entry -/

/-- The effect of the first insertion: `new` hangs at the top as a leaf, and nowhere as a branch.
All other links and all bits and keys are as they were. -/
structure Planted (p : Plot) (new : Slot) (q : Plot) : Prop where
  unique : q.tree.unique = p.tree.unique
  top : q.tree.top.child? = some (.leaf new)
  size : q.store.size = p.store.size
  key : ∀ i, q.store.keyAt i = p.store.keyAt i
  level : ∀ i, q.store.levelAt i = p.store.levelAt i
  up : ∀ c, q.store.up c =
    if c = .leaf new then some .root else if c = .branch new then none else p.store.up c
  down : ∀ i t, q.store.down i t = p.store.down i t

theorem Planted.nodeAt_eq {p q : Plot} {new i : Slot} (h : Planted p new q) (hnew : i ≠ new) :
    q.store.nodeAt i = p.store.nodeAt i := by
  refine Node.ext_links (h.level i) (h.down i) ?_
  intro role
  have hup := h.up (Child.of role i)
  rw [if_neg fun hc => hnew (by simpa using congrArg Child.slot hc),
    if_neg fun hc => hnew (by simpa using congrArg Child.slot hc)] at hup
  simpa [Store.up] using hup

/-- **The first entry** of a tree. -/
theorem Edit.plant_planted {p : Plot} {new : Slot} (hnew : new < p.store.size)
    (hempty : p.tree.top = .null) : ∃ q, plant new p = .ok new q ∧ Planted p new q := by
  obtain ⟨leafNew, hleafNew, hleafNew'⟩ := ChildLink.ofChild_eq_ok (c := .leaf new)
    (Store.lt_maxSlots hnew)
  have hisEmpty : p.tree.isEmpty = true := by
    rw [Tree.isEmpty, hempty]
    rfl
  have hask : ask (fun p => .ok p.tree.isEmpty) p = .ok true p :=
    ask_of_ok (congrArg Except.ok hisEmpty)
  have hmodify := modifyNode_of_lt (p := ⟨{ p.tree with top := leafNew }, p.store⟩) hnew
    fun n => { n with leafUp := .root, branchUp := .null }
  refine ⟨⟨{ p.tree with top := leafNew },
    p.store.modifyNode new fun n => { n with leafUp := .root, branchUp := .null }⟩, ?_, ?_⟩
  · rw [plant, bind_of_ok hask]
    simp only [if_true]
    rw [bind_of_ok (ofOutcome_of_ok hleafNew p)]
    exact bind_of_ok hmodify
  · refine ⟨rfl, hleafNew', by simp, fun i => by simp, ?_, ?_, ?_⟩
    · intro i
      rw [Store.levelAt, Store.nodeAt_modifyNode]
      split <;> rfl
    · intro c
      rw [Store.up, Store.nodeAt_modifyNode]
      by_cases hc : new = c.slot
      · rw [if_pos ⟨hc, hnew⟩]
        cases c with
        | leaf i =>
          obtain rfl : new = i := hc
          rw [if_pos rfl]
          exact ParentLink.place?_root
        | branch i =>
          obtain rfl : new = i := hc
          rw [if_neg (by simp), if_pos rfl]
          rfl
      · rw [if_neg fun h => hc h.1, if_neg fun h => hc (by rw [h]; rfl),
          if_neg fun h => hc (by rw [h]; rfl)]
        rfl
    · intro i t
      rw [Store.down, Store.nodeAt_modifyNode]
      split <;> cases t <;> rfl

/-! ### The edits -/

namespace Edit

variable {p : Plot} {new : Slot}

/-- Splicing grafts the new leaf beside what hung in the place. -/
theorem splice_grafted {place : Place} {old : Child} (side : Side) (bit : Int32)
    (hnew : new < p.store.size) (hold : p.store.up old = some place) (hne : old.slot ≠ new)
    (hplace : p.HasPlace place) (hplaceNe : ∀ t, place ≠ .under new t) :
    ∃ q, splice place old new side bit p = .ok () q ∧
      Grafted p place old new side bit.toInt q := by
  have hlt := Store.lt_size_of_up hold
  have hmax := Store.lt_maxSlots hnew
  obtain ⟨newSide, hnewSide, hnewSide'⟩ := ParentLink.ofPlace_under hmax side
  obtain ⟨oldSide, holdSide, holdSide'⟩ := ParentLink.ofPlace_under hmax side.opposite
  obtain ⟨leafNew, hleafNew, hleafNew'⟩ := ChildLink.ofChild_eq_ok (c := .leaf new) hmax
  obtain ⟨branchNew, hbranchNew, hbranchNew'⟩ := ChildLink.ofChild_eq_ok (c := .branch new) hmax
  obtain ⟨childOld, hchildOld, hchildOld'⟩ := ChildLink.ofChild_eq_ok (Store.lt_maxSlots hlt)
  rw [splice, bind_of_ok (node_of_lt hlt), bind_of_ok (ofOutcome_of_ok hnewSide p),
    bind_of_ok (ofOutcome_of_ok holdSide p), bind_of_ok (ofOutcome_of_ok hleafNew p),
    bind_of_ok (ofOutcome_of_ok hbranchNew p), bind_of_ok (ofOutcome_of_ok hchildOld p),
    bind_of_ok (modifyNode_of_lt hnew _), bind_of_ok (modifyNode_of_lt (by simpa using hlt) _),
    bind_of_ok (modifyNode_of_lt (by simpa using hnew) _)]
  rw [Plot.hangAt_eq (fun i t hi => by simpa using hplace i t hi)]
  refine ⟨_, rfl, Grafted.of_rewired hplace hplaceNe ?_ hbranchNew'⟩
  -- the node of `new` is written twice, and that of `old` in between
  have hgraft : Node.IsGraft
      { ((p.store.nodeAt new).setChild side leafNew).setChild side.opposite childOld with
        bit := bit, leafUp := newSide, branchUp := (p.store.nodeAt old.slot).up old.role }
      place old new side bit.toInt := by
    refine ⟨rfl, ?_, ?_, hold, hnewSide'⟩
    · cases side <;> exact hleafNew'
    · cases side <;> exact hchildOld'
  refine Store.Rewired.of_nodeAt hne (by simp) (fun i => by simp) hgraft holdSide' ?_
  intro i
  simp only [Store.nodeAt_modifyNode, Store.size_modifyNode, hnew, hlt, and_true]
  by_cases hi : i = new
  · subst hi
    rw [if_pos rfl, if_neg hne, if_pos rfl, if_pos rfl]
    cases side <;> rfl
  · rw [if_neg (Ne.symm hi), if_neg (Ne.symm hi), if_neg hi]
    simp only [eq_comm]

/-- Filling a hole grafts the new leaf after the last one. -/
theorem fillHole_grafted {last leaf : Slot} (hnew : new < p.store.size)
    (hold : p.store.up (.leaf leaf) = some (.under last .right)) (hlast : last < p.store.size)
    (hne : leaf ≠ new) :
    ∃ q, fillHole last leaf new p = .ok () q ∧
      Grafted p (.under last .right) (.leaf leaf) new .right (-1) q := by
  have hlt : leaf < p.store.size := Store.lt_size_of_up hold
  have hmax := Store.lt_maxSlots hnew
  obtain ⟨leftOfNew, hleft, hleft'⟩ := ParentLink.ofPlace_under hmax .left
  obtain ⟨rightOfNew, hright, hright'⟩ := ParentLink.ofPlace_under hmax .right
  obtain ⟨leafOld, hleafOld, hleafOld'⟩ := ChildLink.ofChild_eq_ok (c := .leaf leaf)
    (Store.lt_maxSlots hlt)
  obtain ⟨leafNew, hleafNew, hleafNew'⟩ := ChildLink.ofChild_eq_ok (c := .leaf new) hmax
  obtain ⟨branchNew, hbranchNew, hbranchNew'⟩ := ChildLink.ofChild_eq_ok (c := .branch new) hmax
  have hplace : p.HasPlace (.under last .right) := by
    intro i t hi
    cases hi
    exact hlast
  have hhung : modifyNode last (·.setChild .right branchNew) p =
      .ok () (p.hung (.under last .right) branchNew) := Plot.hangAt_eq hplace branchNew
  rw [fillHole, bind_of_ok (ofOutcome_of_ok hbranchNew p), bind_of_ok hhung]
  have hlt' : leaf < (p.hung (.under last .right) branchNew).store.size := by simpa using hlt
  rw [bind_of_ok (node_of_lt hlt'), bind_of_ok (ofOutcome_of_ok hleft _),
    bind_of_ok (ofOutcome_of_ok hright _), bind_of_ok (ofOutcome_of_ok hleafOld _),
    bind_of_ok (ofOutcome_of_ok hleafNew _), bind_of_ok (modifyNode_of_lt hlt' _),
    modifyNode_of_lt (by simpa using hnew)]
  refine ⟨_, rfl, Grafted.of_hung hplace hbranchNew' ?_⟩
  have hup : ((p.hung (.under last .right) branchNew).store.nodeAt leaf).leafUp.place? =
      some (.under last .right) := (Plot.up_hung hplace branchNew (.leaf leaf)).trans hold
  have hgraft : Node.IsGraft ⟨-1, leafOld, leafNew, _, rightOfNew⟩ (.under last .right)
      (.leaf leaf) new .right (-1) := ⟨rfl, hleafNew', hleafOld', hup, hright'⟩
  refine Store.Rewired.of_nodeAt hne (by simp) (fun i => by simp) hgraft hleft' ?_
  intro i
  simp only [Store.nodeAt_modifyNode, Store.size_modifyNode, Plot.size_hung, hnew, hlt, and_true,
    Child.slot_leaf, Child.role_leaf, Node.setUp, eq_comm]

/-- Stacking grafts the new leaf beside a full part, one level above it. -/
theorem stack_grafted {full : Slot} {place : Place} (hnew : new < p.store.size)
    (hold : p.store.up (.branch full) = some place) (hplace : p.HasPlace place)
    (hne : full ≠ new) (hlevel : -2147483648 < p.store.levelAt full) :
    ∃ q, stack full new p = .ok () q ∧
      Grafted p place (.branch full) new .right (p.store.levelAt full - 1) q := by
  have hlt : full < p.store.size := Store.lt_size_of_up hold
  have hmax := Store.lt_maxSlots hnew
  obtain ⟨leftOfNew, hleft, hleft'⟩ := ParentLink.ofPlace_under hmax .left
  obtain ⟨rightOfNew, hright, hright'⟩ := ParentLink.ofPlace_under hmax .right
  obtain ⟨branchFull, hbranchFull, hbranchFull'⟩ := ChildLink.ofChild_eq_ok (c := .branch full)
    (Store.lt_maxSlots hlt)
  obtain ⟨leafNew, hleafNew, hleafNew'⟩ := ChildLink.ofChild_eq_ok (c := .leaf new) hmax
  obtain ⟨branchNew, hbranchNew, hbranchNew'⟩ := ChildLink.ofChild_eq_ok (c := .branch new) hmax
  have hup : (p.store.nodeAt full).branchUp.place? = some place := hold
  have hfollow : (p.store.nodeAt full).branchUp.follow = .ok place := by
    rw [ParentLink.follow, hup]
  rw [stack, bind_of_ok (node_of_lt hlt), bind_of_ok (ofOutcome_of_ok hbranchNew p)]
  have hhung : hang (p.store.nodeAt full).branchUp branchNew p =
      .ok () (p.hung place branchNew) := by
    rw [hang, bind_of_ok (ofOutcome_of_ok hfollow p)]
    exact Plot.hangAt_eq hplace branchNew
  have hlt' : full < (p.hung place branchNew).store.size := by simpa using hlt
  rw [bind_of_ok hhung, bind_of_ok (ofOutcome_of_ok hleft _), bind_of_ok (ofOutcome_of_ok hright _),
    bind_of_ok (ofOutcome_of_ok hbranchFull _), bind_of_ok (ofOutcome_of_ok hleafNew _),
    bind_of_ok (modifyNode_of_lt hlt' _),
    bind_of_ok (node_of_lt (by simpa using hlt))]
  -- the bit of `full` is that of the store before any write
  have hbit : ((((p.hung place branchNew).store.modifyNode full
      fun n => { n with branchUp := leftOfNew }).nodeAt full).bit) = (p.store.nodeAt full).bit := by
    rw [Store.nodeAt_modifyNode, if_pos ⟨rfl, hlt'⟩]
    exact (Plot.nodeAt_hung hplace branchNew full).1
  have hmin : (p.store.nodeAt full).bit ≠ Int32.minValue := by
    intro h
    rw [Store.levelAt, h] at hlevel
    exact absurd hlevel (by decide)
  have hsub : ((p.store.nodeAt full).bit - 1).toInt = p.store.levelAt full - 1 := by
    have hmax := (p.store.nodeAt full).bit.toInt_lt
    unfold Store.levelAt at hlevel ⊢
    rw [Int32.toInt_sub, show (1 : Int32).toInt = 1 from rfl]
    exact Int.bmod_eq_of_le (by omega) (by omega)
  rw [hbit, if_neg hmin]
  refine ⟨_, modifyNode_of_lt (by simpa using hnew) _, Grafted.of_hung hplace hbranchNew' ?_⟩
  have hgraft : Node.IsGraft ⟨(p.store.nodeAt full).bit - 1, branchFull, leafNew,
      (p.store.nodeAt full).branchUp, rightOfNew⟩ place (.branch full) new .right
      (p.store.levelAt full - 1) := ⟨hsub, hleafNew', hbranchFull', hup, hright'⟩
  refine Store.Rewired.of_nodeAt hne (by simp) (fun i => by simp) hgraft hleft' ?_
  intro i
  simp only [Store.nodeAt_modifyNode, Store.size_modifyNode, Plot.size_hung, hnew, hlt, and_true,
    Child.slot_branch, Child.role_branch, Node.setUp, eq_comm]

end Edit

end BitTrie
