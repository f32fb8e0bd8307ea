import BitTrie.Proofs.Groups
import Mathlib.Data.List.Basic

/-!
# Walking over equal entries

From an entry the walk goes up inside its subtree of equal entries, as long as it comes from the
far side, then over to the other side and down to the nearest entry.  So it visits the members of
a group in their order.

## Main definitions

* `Path.ahead` — the parts that a walk in one direction has before it, the nearest first.
* `Side.order` — slots in the order in which a walk meets them.
* `Store.Walks` — **what walks over the entries of a group find**.

## Main results

* `Store.stepFrom_eq` — a step leads to the nearest entry of the nearest part.
* `Plot.Holds.step_eq`, `Plot.Holds.chain_eq` — a step, and all steps, among the members.
* `Plot.Holds.walks` — **walks are right** wherever the links spell out a shape.
* `Plot.Bears.walks` — so they are in a sound tree.
-/

namespace BitTrie

/-- What a walk that comes from the side `origin` has before it, the nearest part first. -/
def Path.ahead (origin : Side) : Path → List Shape
  | [] => []
  | f :: fs => if f.side = origin then f.other :: ahead origin fs else ahead origin fs

/-- Slots from left to right, in the order in which a walk that comes from a side meets them. -/
def Side.order : Side → List Slot → List Slot
  | .left, slots => slots
  | .right, slots => slots.reverse

theorem Side.nodup_order {origin : Side} {slots : List Slot} :
    (origin.order slots).Nodup ↔ slots.Nodup := by
  cases origin with
  | left => exact Iff.rfl
  | right => exact List.nodup_reverse

theorem Side.mem_order (origin : Side) {slots : List Slot} {i : Slot} :
    i ∈ origin.order slots ↔ i ∈ slots := by
  cases origin with
  | left => exact Iff.rfl
  | right => exact List.mem_reverse

/-- The first leaf that a walk meets in a shape. -/
theorem Shape.head?_order_leaves (origin : Side) (t : Shape) :
    (origin.order t.leaves).head? = some (t.outermost origin) := by
  induction t with
  | leaf i => cases origin <;> rfl
  | branch i b l r ihl ihr =>
    cases origin with
    | left => exact (List.head?_append).trans (by rw [show l.leaves.head? = _ from ihl]; rfl)
    | right =>
      have hr : r.leaves.reverse.head? = some (r.outermost .right) := ihr
      rw [leaves_branch, Side.order, List.reverse_append, List.head?_append, hr]
      rfl

theorem Fork.order_leaves_close (origin : Side) (f : Fork) (t : Shape) :
    origin.order (f.close t).leaves =
      if f.side = origin then origin.order t.leaves ++ origin.order f.other.leaves
      else origin.order f.other.leaves ++ origin.order t.leaves := by
  unfold close
  cases origin <;> cases f.side <;> simp [Side.order]

/-- Behind the leaves at the end of a path a walk meets those ahead of it. -/
theorem Path.order_leaves_fill (origin : Side) (path : Path) (t : Shape) :
    ∃ before, origin.order (path.fill t).leaves = before ++ (origin.order t.leaves ++
      (path.ahead origin).flatMap fun u => origin.order u.leaves) := by
  induction path generalizing t with
  | nil => exact ⟨[], (List.append_nil _).symm⟩
  | cons f fs ih =>
    obtain ⟨before, hbefore⟩ := ih (f.close t)
    rw [fill_cons, hbefore, Fork.order_leaves_close, ahead]
    split
    · exact ⟨before, by rw [List.flatMap_cons, List.append_assoc]⟩
    · exact ⟨before ++ origin.order f.other.leaves, by simp only [List.append_assoc]⟩

theorem Path.length_le (path : Path) : path.length ≤ path.branches.length := by
  induction path with
  | nil => exact Nat.le_refl 0
  | cons f fs ih =>
    simp only [branches, List.length_cons, List.length_append, List.cons_append]
    omega

/-- Every leaf is at the end of a path. -/
theorem Shape.exists_path {t : Shape} {i : Slot} (hi : i ∈ t.leaves) :
    ∃ path : Path, path.fill (.leaf i) = t := by
  induction t with
  | leaf j => exact ⟨[], by rw [List.mem_singleton.mp hi]; rfl⟩
  | branch j b l r ihl ihr =>
    rcases List.mem_append.mp hi with hi | hi
    · obtain ⟨path, hpath⟩ := ihl hi
      exact ⟨path ++ [⟨j, b, .left, r⟩], by rw [Path.fill_append, hpath]; rfl⟩
    · obtain ⟨path, hpath⟩ := ihr hi
      exact ⟨path ++ [⟨j, b, .right, l⟩], by rw [Path.fill_append, hpath]; rfl⟩

namespace Store

variable {s : Store} {inner outer : Path} {c : Child} {up : ParentLink} {fuel : Nat}

/-- **A step** from the end of `inner`, which passes levels only, leads to the nearest entry of
the nearest part ahead; where there is none, the end of the subtree of equal entries is met. -/
theorem stepFrom_eq (origin : Side) (hlines : s.Lines (inner ++ outer) c)
    (hnodup : (Path.branches (inner ++ outer)).Nodup) (hinner : ∀ f ∈ inner, f.bit < 0)
    (houter : outer.Ordinary) (hup : up.place? = some (Path.place (inner ++ outer)))
    (hfuel : inner.length < fuel) :
    s.stepFrom origin fuel up = .ok ((inner.ahead origin).head?.map (Shape.outermost origin)) := by
  -- induction on the path inside the subtree of equal entries, from its end upward
  induction inner generalizing c up fuel with
  | nil =>
    obtain ⟨fuel, rfl⟩ := Nat.exists_eq_add_one_of_ne_zero (Nat.ne_of_gt (Nat.zero_lt_of_lt hfuel))
    cases outer with
    | nil =>
      have hfollow : up.follow = .ok .root := by rw [ParentLink.follow, hup]; rfl
      rw [stepFrom, hfollow]
      rfl
    | cons f fs =>
      obtain ⟨hupf, hlevel, -⟩ := hlines
      have hi : f.slot < s.size := lt_size_of_up hupf
      have hfollow : up.follow = .ok (.under f.slot f.side) := by rw [ParentLink.follow, hup]; rfl
      -- the first branch on a bit ends the walk
      have hover : (s.nodeAt f.slot).overEqualKeys = false := by
        have hbit := (Path.ordinary_cons.mp houter).1
        exact decide_eq_false (by rw [← levelAt]; omega)
      rw [stepFrom, hfollow]
      simp only [bind, Except.bind, node_eq_ok hi, hover]
      rfl
  | cons f fs ih =>
    obtain ⟨fuel, rfl⟩ := Nat.exists_eq_add_one_of_ne_zero (Nat.ne_of_gt (Nat.zero_lt_of_lt hfuel))
    obtain ⟨hupf, hlevel, -, hother, hhangs, hrest⟩ := hlines
    have hi : f.slot < s.size := lt_size_of_up hupf
    have hfollow : up.follow = .ok (.under f.slot f.side) := by rw [ParentLink.follow, hup]; rfl
    have hover : (s.nodeAt f.slot).overEqualKeys = true := by
      have hbit := hinner f List.mem_cons_self
      exact decide_eq_true (by rw [← levelAt]; omega)
    obtain ⟨-, hB⟩ := List.nodup_cons.mp hnodup
    obtain ⟨hBother, hBfs, -⟩ := List.nodup_append.mp hB
    rw [stepFrom, hfollow]
    simp only [bind, Except.bind, node_eq_ok hi, hover, Bool.not_true,
      Bool.false_eq_true, if_false]
    by_cases hside : f.side = origin
    · subst hside
      have houtermost : s.outermost f.side ((s.nodeAt f.slot).child f.side.opposite) =
          .ok (f.other.outermost f.side) := hhangs.outermost_eq hBother f.side hother
      rw [if_pos rfl, houtermost, Path.ahead, if_pos rfl]
      rfl
    · rw [if_neg hside, Path.ahead, if_neg hside]
      rw [List.length_cons] at hfuel
      exact ih hrest hBfs (fun g hg => hinner g (List.mem_cons_of_mem _ hg)) hupf (by omega)

/-- A step from an entry. -/
theorem step_eq {i : Slot} (origin : Side)
    (hhangs : s.Hangs .root ((inner ++ outer).fill (.leaf i)))
    (hnodup : ((inner ++ outer).fill (.leaf i)).branches.Nodup)
    (hinner : ∀ f ∈ inner, f.bit < 0) (houter : outer.Ordinary) :
    s.step origin i = .ok ((inner.ahead origin).head?.map (Shape.outermost origin)) := by
  obtain ⟨hlines, hleaf⟩ := hangs_fill.mp hhangs
  have hi : i < s.size := lt_size_of_up hleaf
  have hbranches : (Path.branches (inner ++ outer)).Nodup :=
    (Path.branches_fill (inner ++ outer) (.leaf i)).nodup_iff.mp hnodup
  have hup : (s.nodeAt i).leafUp.place? = some (Path.place (inner ++ outer)) := hleaf
  have hnull : ¬ (s.nodeAt i).leafUp = .null := by
    intro hnull
    rw [hnull] at hup
    cases hup
  have hlen : inner.length ≤ s.size := by
    have hle := length_le_size hbranches fun j hj => hhangs.lt_size.2 j
      ((Path.branches_fill (inner ++ outer) (.leaf i)).mem_iff.mpr hj)
    have hpath := Path.length_le (inner ++ outer)
    rw [List.length_append] at hpath
    omega
  rw [step, node_eq_ok hi]
  simp only [bind, Except.bind, if_neg hnull]
  exact stepFrom_eq origin hlines hbranches hinner houter hup (by omega)

end Store

/-! ### The members of a group -/

/-- What walks over the entries of a group find: from any of its members, each in its turn. -/
structure Store.Walks (s : Store) (g : Group) : Prop where
  /-- No entry is met twice. -/
  nodup : g.members.Nodup
  /-- The next entry of a member is the member after it. -/
  next : ∀ before i after, g.members = before ++ i :: after → s.nextEqual i = .ok after.head?
  /-- The previous entry of a member is the member before it. -/
  prev : ∀ before i after, g.members = before ++ i :: after → s.prevEqual i = .ok before.getLast?
  /-- Going on from a member meets all members after it, and comes to an end. -/
  onward : ∀ before i after, g.members = before ++ i :: after →
    s.equalEntries i = .ok (i :: after)
  /-- Going back from a member meets all members before it, and comes to an end. -/
  back : ∀ before i after, g.members = before ++ i :: after → ∀ limit, before.length ≤ limit →
    s.chain .right limit i = .ok (i :: before.reverse)

section

variable {p : Plot} {t c : Shape} {i : Slot} {before after : List Slot}

/-- **The next entry of a walk** in either direction is the next member of the group. -/
theorem Plot.Holds.step_eq (h : p.Holds t) (hdistinct : t.Distinct) (hlevels : t.Stratified)
    (hc : c ∈ t.clumps) (origin : Side)
    (hleaves : origin.order c.leaves = before ++ i :: after) :
    p.store.step origin i = .ok after.head? := by
  have hi : i ∈ c.leaves := by
    rw [← Side.mem_order origin, hleaves]
    exact List.mem_append_right _ List.mem_cons_self
  have hlevelled := hlevels c hc
  obtain ⟨path, hpath, rfl⟩ := Path.exists_fill_clump hc
  obtain ⟨inner, rfl⟩ := Shape.exists_path hi
  rw [← Path.fill_append] at h hdistinct
  have hnodup : (origin.order (inner.fill (.leaf i)).leaves).Nodup := by
    rw [Path.fill_append] at hdistinct
    exact Side.nodup_order.mpr (List.nodup_append.mp
      ((Path.leaves_fill_perm path _).nodup_iff.mp hdistinct.leaves)).1
  -- what comes after the entry is what a walk has before it
  have hafter : after = (inner.ahead origin).flatMap fun u => origin.order u.leaves := by
    obtain ⟨before', hfill⟩ := Path.order_leaves_fill origin inner (.leaf i)
    have hleaf : origin.order (Shape.leaf i).leaves = [i] := by cases origin <;> rfl
    rw [hleaf, List.singleton_append] at hfill
    have hnotMem := hnodup
    rw [hfill, List.nodup_middle, List.nodup_cons, List.mem_append, not_or] at hnotMem
    rw [hfill] at hleaves
    exact ((List.append_cons_inj_of_notMem hnotMem.1.1 hnotMem.1.2).mp hleaves).2.2.symm
  rw [Store.step_eq origin h.2 hdistinct.branches (Path.levelled_of_fill hlevelled).2 hpath,
    hafter]
  cases inner.ahead origin with
  | nil => rfl
  | cons u us =>
    rw [List.head?_cons, Option.map_some, List.flatMap_cons, List.head?_append,
      u.head?_order_leaves origin]
    rfl

/-- Going on from a member of a group meets all that come after it. -/
theorem Plot.Holds.chain_eq (h : p.Holds t) (hdistinct : t.Distinct) (hlevels : t.Stratified)
    (hc : c ∈ t.clumps) (origin : Side)
    (hleaves : origin.order c.leaves = before ++ i :: after) {limit : Nat}
    (hlimit : after.length ≤ limit) :
    p.store.chain origin limit i = .ok (i :: after) := by
  induction after generalizing before i limit with
  | nil =>
    cases limit with
    | zero => rfl
    | succ limit =>
      rw [Store.chain_succ, h.step_eq hdistinct hlevels hc origin hleaves]
      rfl
  | cons j after ih =>
    obtain ⟨limit, rfl⟩ := Nat.exists_eq_add_one_of_ne_zero
      (Nat.ne_of_gt (Nat.lt_of_lt_of_le (Nat.succ_pos _) hlimit))
    have hleaves' : origin.order c.leaves = (before ++ [i]) ++ j :: after := by
      rw [hleaves, List.append_assoc, List.singleton_append]
    have hrest : p.store.chain origin limit j = .ok (j :: after) :=
      ih hleaves' (by rw [List.length_cons] at hlimit; omega)
    rw [Store.chain_succ, h.step_eq hdistinct hlevels hc origin hleaves]
    simp only [bind, Except.bind, List.head?_cons, hrest]
    rfl

/-- **Walks over equal entries** are right where the links spell out a shape that meets no slot
twice and has levels only below its levels, whatever those levels are. -/
theorem Plot.Holds.walks (h : p.Holds t) (hdistinct : t.Distinct) (hlevels : t.Stratified)
    {g : Group} (hg : g ∈ t.groups) : p.store.Walks g := by
  obtain ⟨c, hc, rfl⟩ := List.mem_map.mp hg
  have hnodup : c.leaves.Nodup := by
    obtain ⟨path, -, rfl⟩ := Path.exists_fill_clump hc
    exact (List.nodup_append.mp
      ((Path.leaves_fill_perm path c).nodup_iff.mp hdistinct.leaves)).1
  have hsize : c.leaves.length ≤ p.store.size :=
    Store.length_le_size hnodup fun i hi => h.2.lt_size.1 i (Shape.mem_leaves_of_mem_clumps hc hi)
  rw [← Shape.members_group] at hnodup hsize
  -- a walk back meets the members from right to left
  have hback : ∀ before i after, c.group.members = before ++ i :: after →
      Side.right.order c.leaves = after.reverse ++ i :: before.reverse := by
    intro before i after hmembers
    rw [Side.order, ← Shape.members_group, hmembers, List.reverse_append, List.reverse_cons,
      List.append_assoc]
    rfl
  refine ⟨hnodup, ?_, ?_, ?_, ?_⟩
  · intro before i after hmembers
    exact h.step_eq hdistinct hlevels hc .left (c.members_group ▸ hmembers)
  · intro before i after hmembers
    rw [Store.prevEqual, h.step_eq hdistinct hlevels hc .right (hback _ _ _ hmembers),
      List.head?_reverse]
  · intro before i after hmembers
    have hlength : before.length + (after.length + 1) ≤ p.store.size := by
      rwa [hmembers, List.length_append, List.length_cons] at hsize
    have hchain : p.store.chain .left (p.store.size + 1) i = .ok (i :: after) :=
      h.chain_eq hdistinct hlevels hc .left (c.members_group ▸ hmembers) (by omega)
    have hlen : (i :: after).length ≤ p.store.size := by
      rw [List.length_cons]
      omega
    rw [Store.equalEntries, hchain]
    simp only [bind, Except.bind, if_pos hlen]
    rfl
  · intro before i after hmembers limit hlimit
    exact h.chain_eq hdistinct hlevels hc .right (hback _ _ _ hmembers)
      (by rw [List.length_reverse]; exact hlimit)

end

/-- Walks in a sound tree are right. -/
theorem Plot.Bears.walks {p : Plot} {o : Option Shape} (h : p.Bears o) {g : Group}
    (hg : g ∈ p.groups) : p.store.Walks g := by
  rw [h.groups_eq] at hg
  cases o with
  | none => exact absurd hg List.not_mem_nil
  | some t => exact h.1.walks h.2.distinct h.2.sorted.stratified hg

/-- **Going on from the oldest entry** of a group meets all its members, in their order. -/
theorem Plot.Bears.equalEntries_eq {p : Plot} {o : Option Shape} (h : p.Bears o) {g : Group}
    (hg : g ∈ p.groups) : p.store.equalEntries g.oldest = .ok g.members :=
  (h.walks hg).onward [] g.oldest g.later rfl

end BitTrie
