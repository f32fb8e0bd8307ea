import BitTrie.Proofs.Insertion
import Mathlib.Data.List.Pairwise

/-!
# Insertion, group by group

From outside a tree is a list of groups, in ascending order of their oldest entries' keys.  An
insertion looks for the leftmost group whose oldest entry agrees with the new key; the new entry is
turned down or joins that group, or stands alone in its place in the order.

## Main definitions

* `Shape.groups` — the groups of a shape.
* `Entered` — **what an insertion does to the groups**.

## Main results

* `Plot.Bears.groups_eq` — the groups that are read off the links of a sound tree.
* `Plot.Bears.ascending` — they ascend.
* `Inserts.entered` — what an insertion does to them.
-/

namespace BitTrie

/-- The groups of a shape, from left to right. -/
def Shape.groups (t : Shape) : List Group := t.clumps.map group

/-- How a list of groups changes when `new` is entered over `len` bytes, and which entry that
gives. -/
inductive Entered (key : Slot → Key) (unique : Bool) (new : Slot) (len : Nat) :
    List Group → Slot → List Group → Prop where
  /-- The oldest entry of the leftmost group that agrees stands for the new one as well. -/
  | turnedDown {before after : List Group} {g : Group} (hunique : unique = true)
    (hagrees : (key g.oldest).Alike (key new) len)
    (hbefore : ∀ h ∈ before, ¬ (key h.oldest).Alike (key new) len) :
    Entered key unique new len (before ++ g :: after) g.oldest (before ++ g :: after)
  /-- The new entry is the last of the leftmost group that agrees. -/
  | joined {before after : List Group} {g : Group} (hunique : unique = false)
    (hagrees : (key g.oldest).Alike (key new) len)
    (hbefore : ∀ h ∈ before, ¬ (key h.oldest).Alike (key new) len) :
    Entered key unique new len (before ++ g :: after) new (before ++ g.push new :: after)
  /-- No group agrees, and the new entry is one of its own, in its place in the order. -/
  | alone {before after : List Group}
    (hnone : ∀ h ∈ before ++ after, ¬ (key h.oldest).Alike (key new) len)
    (hbefore : ∀ h ∈ before, (key h.oldest).Precedes (key new))
    (hafter : ∀ h ∈ after, (key new).Precedes (key h.oldest)) :
    Entered key unique new len (before ++ after) new (before ++ ⟨new, []⟩ :: after)

/-- A group after an insertion was there before, or has the new entry as its last. -/
theorem Entered.cases_of_mem {key : Slot → Key} {unique : Bool} {new r : Slot} {len : Nat}
    {gs gs' : List Group} (h : Entered key unique new len gs r gs') {g' : Group} (hg' : g' ∈ gs') :
    g' ∈ gs ∨ (r = new ∧ (g' = ⟨new, []⟩ ∨
      ∃ g ∈ gs, (key g.oldest).Alike (key new) len ∧ g' = g.push new)) := by
  cases h with
  | turnedDown hunique hagrees hbefore => exact Or.inl hg'
  | @joined before after g hunique hagrees hbefore =>
    rcases List.mem_append.mp hg' with hg' | hg'
    · exact Or.inl (List.mem_append_left _ hg')
    · rcases List.mem_cons.mp hg' with rfl | hg'
      · exact Or.inr ⟨rfl, Or.inr ⟨g, List.mem_append_right _ List.mem_cons_self, hagrees, rfl⟩⟩
      · exact Or.inl (List.mem_append_right _ (List.mem_cons_of_mem _ hg'))
  | @alone before after hnone hbefore hafter =>
    rcases List.mem_append.mp hg' with hg' | hg'
    · exact Or.inl (List.mem_append_left _ hg')
    · rcases List.mem_cons.mp hg' with rfl | hg'
      · exact Or.inr ⟨rfl, Or.inl rfl⟩
      · exact Or.inl (List.mem_append_right _ hg')

section

variable {p q : Plot} {o o' : Option Shape} {new r len : Nat}

theorem Shape.oldest_group (t : Shape) : t.group.oldest = t.oldest := rfl

theorem Plot.Bears.shape?_eq (h : p.Bears o) : p.shape? = o := by
  cases o with
  | none =>
    have htop : p.tree.top = .null := h
    rw [shape?, htop]
    rfl
  | some t => exact h.1.shape?_eq h.2.distinct.branches

/-- The groups that are read off links that spell out a shape. -/
theorem Plot.Holds.groups_eq {t : Shape} (h : p.Holds t) (hnodup : t.branches.Nodup) :
    p.groups = t.groups := by
  rw [groups, clumps, h.shape?_eq hnodup]
  rfl

/-- The groups that are read off the links of a sound tree. -/
theorem Plot.Bears.groups_eq (h : p.Bears o) : p.groups = (o.map Shape.groups).getD [] := by
  rw [groups, clumps, h.shape?_eq]
  cases o <;> rfl

/-- The groups of a parted shape ascend. -/
theorem Shape.Parted.ascending {key : Slot → Key} {t : Shape} (h : t.Parted key) :
    t.groups.Pairwise fun g g' => (key g.oldest).Precedes (key g'.oldest) := by
  have hpair := h.pairwise
  rw [firsts, List.pairwise_map] at hpair
  exact List.pairwise_map.mpr hpair

/-- **The groups of a sound tree ascend.** -/
theorem Plot.Bears.ascending (h : p.Bears o) : p.groups.Pairwise fun g g' =>
    (p.store.keyAt g.oldest).Precedes (p.store.keyAt g'.oldest) := by
  rw [h.groups_eq]
  cases o with
  | none => exact List.Pairwise.nil
  | some t => exact h.2.sorted.parted.ascending

/-- Of two members of a list the earlier is related to the later. -/
theorem or_eq_or_of_pairwise {α : Type} {R : α → α → Prop} {l : List α} (h : l.Pairwise R)
    {x y : α} (hx : x ∈ l) (hy : y ∈ l) : R x y ∨ x = y ∨ R y x := by
  have hsymm : Std.Symm fun x y => R x y ∨ R y x := ⟨fun _ _ => Or.symm⟩
  have heither : l.Pairwise fun x y => R x y ∨ R y x := h.imp Or.inl
  by_cases hxy : x = y
  · exact Or.inr (Or.inl hxy)
  · rcases heither.forall hx hy hxy with hlt | hlt
    · exact Or.inl hlt
    · exact Or.inr (Or.inr hlt)

/-- Agreement with a key over its first bytes, byte by byte and bit by bit. -/
theorem Key.sameBits_truncate_iff {a k : Key} :
    (k.truncate len).SameBits a (8 * len) ↔ a.Alike k len := by
  have htrunc := Key.sameBits_truncate k len
  rw [Key.alike_iff_sameBits]
  exact ⟨fun h => (htrunc.symm.trans h).symm, fun h => htrunc.trans h.symm⟩

/-- No group on the left of the one that is met agrees. -/
theorem Meets.not_alike {key : Slot → Key} {k : Key} {path : Path} {c : Shape}
    (h : Meets key (k.truncate len) (8 * len) path c) (hsorted : (path.fill c).Sorted key) :
    ∀ g ∈ (path.leftOf.flatMap Shape.clumps).map Shape.group,
      ¬ (key g.oldest).Alike k len := by
  intro g hg
  obtain ⟨c', hc', rfl⟩ := List.mem_map.mp hg
  rw [Shape.oldest_group, ← Key.sameBits_truncate_iff]
  refine h.leftmost hsorted ?_ hc'
  intro q hq
  rw [Key.bitAt_truncate, if_neg (Nat.not_lt.mpr hq)]

/-- The groups of a shape around a subtree of equal entries. -/
theorem Path.groups_fill {path : Path} {c : Shape} {n : Nat} (hpath : path.Ordinary)
    (hc : c.Tied n) : (path.fill c).groups =
      (path.leftOf.flatMap Shape.clumps).map Shape.group ++
        c.group :: (path.rightOf.flatMap Shape.clumps).map Shape.group := by
  rw [Shape.groups, Path.clumps_fill hpath, hc.clumps_eq, List.map_append, List.map_append,
    List.append_assoc]
  rfl

/-- A graft into equal entries makes their group longer. -/
theorem Shape.Seam.group_graft {c u : Shape} {inner : Path} (h : c.Seam inner u) (new : Slot) :
    (inner.fill (u.graft new .right (u.level - 1))).group = c.group.push new := by
  rw [group, h.oldest_graft, h.leaves_graft, leaves_eq_cons c]
  rfl

/-- The groups around a graft on a bit. -/
theorem Shape.exists_groups_graft {path : Path} {u : Shape} (hpath : path.Ordinary)
    (new : Slot) (side : Side) {d : Int} (hd : 0 ≤ d) : ∃ before after : List Group,
      (path.fill u).groups = before ++ after ∧
        (path.fill (u.graft new side d)).groups = before ++ ⟨new, []⟩ :: after := by
  rw [groups, groups, Path.clumps_fill hpath, Path.clumps_fill hpath]
  cases side with
  | left =>
    refine ⟨(path.leftOf.flatMap clumps).map group,
      (u.clumps ++ path.rightOf.flatMap clumps).map group, ?_, ?_⟩
    · rw [← List.map_append, List.append_assoc]
    · rw [graft, clumps_of_nonneg hd]
      simp only [List.map_append, List.append_assoc, clumps_leaf, List.map_cons, List.cons_append,
        List.nil_append]
      rfl
  | right =>
    refine ⟨(path.leftOf.flatMap clumps ++ u.clumps).map group,
      (path.rightOf.flatMap clumps).map group, ?_, ?_⟩
    · rw [← List.map_append]
    · rw [graft, clumps_of_nonneg hd]
      simp only [List.map_append, List.append_assoc, clumps_leaf, List.map_cons, List.cons_append,
        List.nil_append]
      rfl

/-- **What an insertion does to the groups** of a sound tree. -/
theorem Inserts.entered (h : Inserts p new len o r o' q) (hp : p.Bears o) (hq : q.Bears o') :
    Entered p.store.keyAt p.tree.unique new len p.groups r q.groups := by
  have hascending := hq.ascending
  rw [hp.groups_eq]
  rw [hq.groups_eq] at hascending ⊢
  have hkey := h.keyAt
  cases h with
  | first h =>
    have hnil : ∀ g : Group, g ∉ ([] : List Group) := fun _ => List.not_mem_nil
    exact Entered.alone (fun g hg => absurd hg (hnil g)) (fun g hg => absurd hg (hnil g))
      fun g hg => absurd hg (hnil g)
  | @turnedDown path i hunique hmeets =>
    have hagrees := Key.sameBits_truncate_iff.mp hmeets.agrees
    have hbefore := hmeets.not_alike hp.2.sorted
    simp only [Option.map_some, Option.getD_some, Path.groups_fill hmeets.ordinary (.leaf r)]
    exact .turnedDown (g := (Shape.leaf r).group) hunique hagrees hbefore
  | @joined path inner c u q hunique hmeets hseam h =>
    obtain ⟨n, hc⟩ := hmeets.tied
    obtain ⟨n', hc'⟩ := hseam.tied_graft hc new
    have hagrees := Key.sameBits_truncate_iff.mp hmeets.agrees
    have hbefore := hmeets.not_alike hp.2.sorted
    simp only [Option.map_some, Option.getD_some, Path.groups_fill hmeets.ordinary hc,
      Path.groups_fill hmeets.ordinary hc', hseam.group_graft]
    exact .joined (g := c.group) hunique hagrees hbefore
  | @alone path u d q hdiverges h =>
    obtain ⟨before, after, hold, hnew⟩ := Shape.exists_groups_graft (u := u)
      hdiverges.ordinary new (.ofBit ((p.store.keyAt new).bitAt d)) (Int.natCast_nonneg d)
    simp only [Option.map_some, Option.getD_some] at hascending ⊢
    rw [hnew] at hascending ⊢
    rw [hold]
    -- the order of the new group is that of the shape it stands in
    obtain ⟨-, hafter, hbefore⟩ := List.pairwise_append.mp hascending
    refine .alone ?_ ?_ ?_
    · intro g hg
      rw [← hold] at hg
      obtain ⟨c, hc, rfl⟩ := List.mem_map.mp hg
      rw [Shape.oldest_group, ← Key.sameBits_truncate_iff]
      exact hdiverges.none_agrees hp.2.sorted hc
    · intro g hg
      have hlt := hbefore g hg _ List.mem_cons_self
      rwa [hkey, hkey] at hlt
    · intro g hg
      have hlt := (List.pairwise_cons.mp hafter).1 g hg
      rwa [hkey, hkey] at hlt

end

end BitTrie
