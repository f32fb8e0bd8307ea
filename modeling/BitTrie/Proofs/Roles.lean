import BitTrie.Proofs.Damage

/-!
# The two roles of a record

Every record that is inserted brings one leaf, and every record but the first brings one branch, in
the place that its branch link names.  The branch is put above the leaf, and whatever is put between
them or above them later does not part the two: the leaf stays below the branch of its own slot.
That is why the key of the branch can stand for all keys below.  A decision on a bit is always owned
by the oldest entry of a group, and a level by one of the other entries of the group it stands over.

## Main definitions

* `Plot.DualRoles` — **which records own which branches**, and where they hang.

## Main results

* `Shape.Sorted.oldest_of_nonneg`, `Shape.Sorted.later_of_neg` — who owns a bit and who a level.
* `Inserts.branches_perm`, `Forest.branches_calls` — the branches are the records after the first.
* `Forest.Stands.level_calls` — a record that is in a tree keeps its bit.
* `Forest.calls_roles` — **the two roles after any run**.
-/

namespace BitTrie

/-! ### Who owns a branch -/

section

variable {key : Slot → Key} {s : Store} {place : Place} {t : Shape} {i : Slot} {k : Nat}

/-- The branches of equal entries are owned by the entries after the first. -/
theorem Shape.Tied.mem_tail (h : t.Tied k) (hi : i ∈ t.branches) : i ∈ t.leaves.tail := by
  have htail : ∀ l r : Shape, (l.leaves ++ r.leaves).tail = l.leaves.tail ++ r.leaves :=
    fun l r => List.tail_append_of_ne_nil l.leaves_ne_nil
  induction t generalizing k with
  | leaf j => exact absurd hi List.not_mem_nil
  | branch j b l r ihl ihr =>
    rw [leaves_branch, htail]
    cases h with
    | branch hlevel hown hl hr hle =>
      rcases List.mem_cons.mp hi with rfl | hi
      · exact List.mem_append_right _ hown
      · rcases List.mem_append.mp hi with hi | hi
        · exact List.mem_append_left _ (ihl hl.tied hi)
        · exact List.mem_append_right _ (List.mem_of_mem_tail (ihr hr hi))

/-- And they are levels. -/
theorem Store.Hangs.level_neg (h : s.Hangs place t) (ht : t.Levelled) (hi : i ∈ t.branches) :
    s.levelAt i < 0 := by
  induction t generalizing place with
  | leaf j => exact absurd hi List.not_mem_nil
  | branch j b l r ihl ihr =>
    obtain ⟨-, hlevel, -, -, hl, hr⟩ := h
    obtain ⟨hb, hll, hlr⟩ := ht
    rcases List.mem_cons.mp hi with rfl | hi
    · rw [hlevel]
      exact hb
    · exact (List.mem_append.mp hi).elim (ihl hl hll) (ihr hr hlr)

/-- **A decision on a bit** is owned by the oldest entry of a group. -/
theorem Shape.Sorted.oldest_of_nonneg (h : t.Sorted key) (hhangs : s.Hangs place t)
    (hi : i ∈ t.branches) (hb : 0 ≤ s.levelAt i) : ∃ c ∈ t.clumps, c.oldest = i := by
  induction h generalizing place with
  | tied h => exact absurd (hhangs.level_neg h.levelled hi) (Int.not_lt.mpr hb)
  | @branch j b l r hparts hown hl hr ihl ihr =>
    obtain ⟨-, -, -, -, hhl, hhr⟩ := hhangs
    rw [clumps_of_nonneg hparts.nonneg]
    rcases List.mem_cons.mp hi with rfl | hi
    · rw [firsts, firsts, ← List.map_append] at hown
      exact List.mem_map.mp hown
    · rcases List.mem_append.mp hi with hi | hi
      · obtain ⟨c, hc, holdest⟩ := ihl hhl hi
        exact ⟨c, List.mem_append_left _ hc, holdest⟩
      · obtain ⟨c, hc, holdest⟩ := ihr hhr hi
        exact ⟨c, List.mem_append_right _ hc, holdest⟩

/-- **A level** is owned by one of the other entries of the group it stands over. -/
theorem Shape.Sorted.later_of_neg (h : t.Sorted key) (hhangs : s.Hangs place t)
    (hi : i ∈ t.branches) (hb : s.levelAt i < 0) :
    ∃ c ∈ t.clumps, i ∈ c.branches ∧ i ∈ c.group.later := by
  induction h generalizing place with
  | @tied t k h =>
    rw [h.clumps_eq]
    exact ⟨t, List.mem_singleton.mpr rfl, hi, h.mem_tail hi⟩
  | @branch j b l r hparts hown hl hr ihl ihr =>
    obtain ⟨-, hlevel, -, -, hhl, hhr⟩ := hhangs
    rw [clumps_of_nonneg hparts.nonneg]
    rcases List.mem_cons.mp hi with rfl | hi
    · rw [hlevel] at hb
      exact absurd hparts.nonneg (Int.not_le.mpr hb)
    · rcases List.mem_append.mp hi with hi | hi
      · obtain ⟨c, hc, hbranch, hlater⟩ := ihl hhl hi
        exact ⟨c, List.mem_append_left _ hc, hbranch, hlater⟩
      · obtain ⟨c, hc, hbranch, hlater⟩ := ihr hhr hi
        exact ⟨c, List.mem_append_right _ hc, hbranch, hlater⟩

/-- The entry of a branch's own slot is below it. -/
theorem Shape.Sorted.own_of_fill {path : Path} {b : Int} {l r : Shape}
    (h : (path.fill (.branch i b l r)).Sorted key) : i ∈ l.leaves ++ r.leaves := by
  rcases h.ordinary_or_tied with hpath | ⟨k, hk⟩
  · exact (h.of_fill hpath).own
  · exact (Shape.Sorted.tied hk : (Shape.branch i b l r).Sorted key).own

end

/-! ### The branches of a tree -/

section

variable {p q : Plot} {o o' : Option Shape} {new r i len : Nat} {slots : List Slot}

/-- **An insertion brings a branch**, unless it is the first one. -/
theorem Inserts.branches_perm (h : Inserts p new len o r o' q) (hp : p.Bears o)
    (hfree : p.store.isResident new = .ok false) (hentries : p.entries.Perm slots)
    (hbranches : p.branches.Perm slots.tail) :
    q.branches.Perm (slots ++ if r = new then [new] else []).tail := by
  have hnot := hp.not_mem_of_free hfree
  rw [(h.bears hp hfree).branches_eq]
  rw [hp.branches_eq] at hbranches
  rw [hp.entries_eq] at hentries hnot
  -- a graft adds its branch to those of a tree that has entries
  have hgraft : ∀ t t' : Shape, o = some t → t'.branches.Perm (new :: t.branches) →
      t'.branches.Perm (slots ++ [new]).tail := by
    rintro t t' rfl ht'
    have hne : slots ≠ [] := by
      rintro rfl
      exact t.leaves_ne_nil hentries.eq_nil
    rw [List.tail_append_of_ne_nil hne]
    exact ht'.trans ((hbranches.cons new).trans (List.perm_append_singleton _ _).symm)
  cases h with
  | first h =>
    obtain rfl : slots = [] := List.nil_perm.mp hentries
    rw [if_pos rfl]
    exact List.Perm.refl []
  | turnedDown hunique hmeets =>
    have hne : r ≠ new := fun heq => hnot (heq ▸
      (Path.leaves_fill_perm _ _).mem_iff.mpr (List.mem_append_left _ (List.mem_singleton.mpr rfl)))
    rw [if_neg hne, List.append_nil]
    exact hbranches
  | @joined path inner c u q hunique hmeets hseam h =>
    rw [if_pos rfl, ← Path.fill_append]
    refine hgraft _ _ rfl ?_
    have hperm := Path.branches_fill_graft (inner ++ path) u new .right (u.level - 1)
    rwa [Path.fill_append _ _ u, hseam.fill_eq] at hperm
  | @alone path u d q hdiverges h =>
    rw [if_pos rfl]
    exact hgraft _ _ rfl (Path.branches_fill_graft path u new _ _)

/-- An insertion leaves the bits of all other records alone. -/
theorem Inserts.levelAt_eq (h : Inserts p new len o r o' q) (hi : i ≠ new) :
    q.store.levelAt i = p.store.levelAt i := by
  cases h with
  | first h => exact h.level i
  | turnedDown hunique hmeets => rfl
  | joined hunique hmeets hseam h => rw [h.level, if_neg hi]
  | alone hdiverges h => rw [h.level, if_neg hi]

/-- A graft leaves no record without a place that it had as a leaf. -/
theorem Grafted.isSome_up {place : Place} {old : Child} {side : Side} {bit : Int}
    (h : Grafted p place old new side bit q) (hup : (p.store.up (.leaf i)).isSome = true) :
    (q.store.up (.leaf i)).isSome = true := by
  rw [h.up, if_neg (show ¬ Child.leaf i = .branch new from nofun)]
  split_ifs
  · rfl
  · rfl
  · exact hup

/-- An insertion leaves the records that hang as leaves hanging so. -/
theorem Inserts.isSome_up (h : Inserts p new len o r o' q)
    (hup : (p.store.up (.leaf i)).isSome = true) : (q.store.up (.leaf i)).isSome = true := by
  cases h with
  | first h =>
    rw [h.up, if_neg (show ¬ Child.leaf i = .branch new from nofun)]
    split_ifs
    · rfl
    · exact hup
  | turnedDown hunique hmeets => exact hup
  | joined hunique hmeets hseam h => exact h.isSome_up hup
  | alone hdiverges h => exact h.isSome_up hup

end

/-- The branches of a tree depend on its shape only. -/
theorem Plot.branches_congr {p p' : Plot} (hshape : p'.shape? = p.shape?) :
    p'.branches = p.branches := by rw [branches, branches, hshape]

/-! ### Runs -/

namespace Forest

variable {f f' : Forest} {shapes shapes' : Nat → Option Shape} {c : Call} {out : Outcome Slot}
  {t i : Nat} {p : Plot}

/-- The branches of a tree are the records that the run hung in it after the first one. -/
theorem branches_calls (uniques : List Bool) (cs : List Call)
    (hp : ((fresh uniques).calls cs).plot t = .ok p) :
    p.branches.Perm (((fresh uniques).history t cs).map (·.1)).tail := by
  refine (calls_entries_induction (Q := fun p h => p.branches.Perm (h.map (·.1)).tail)
    ?_ ?_ ?_ uniques hp).2
  · intro p hp
    rw [hp.branches_eq]
    exact List.Perm.refl []
  · intro p p' h hshape _ hQ
    rw [Plot.branches_congr hshape]
    exact hQ
  · intro p new len o r o' q h hp hfree hentries hins hQ
    have hbranches := hins.branches_perm hp hfree hentries hQ
    rw [List.map_append]
    by_cases hr : r = new
    · rw [if_pos hr] at hbranches ⊢
      exact hbranches
    · rw [if_neg hr] at hbranches ⊢
      exact hbranches

/-- A call leaves the bits of records that are in a tree alone, and leaves them there. -/
theorem Happens.levelAt (h : f.Happens shapes c out f' shapes')
    (hi : (f.store.up (.leaf i)).isSome = true) :
    f'.store.levelAt i = f.store.levelAt i ∧ (f'.store.up (.leaf i)).isSome = true := by
  cases h with
  | refused h => exact ⟨rfl, hi⟩
  | added hadd =>
    rw [Store.levelAt, Store.levelAt, Store.up, Child.slot_leaf, Store.nodeAt_of_add hadd]
    exact ⟨rfl, hi⟩
  | @inserted _ n new len r tree o q hc ht hfree hlen hins =>
    have hne : i ≠ new := by
      rintro rfl
      rw [(Store.isResident_eq_ok.mp hfree).2] at hi
      cases hi
    exact ⟨hins.levelAt_eq hne, hins.isSome_up hi⟩

/-- **A record that is in a tree keeps its bit.** -/
theorem Stands.level_calls (hf : f.Stands shapes) (hi : (f.store.up (.leaf i)).isSome = true)
    (cs : List Call) : (f.calls cs).store.levelAt i = f.store.levelAt i := by
  induction cs generalizing f shapes with
  | nil => rfl
  | cons c cs ih =>
    obtain ⟨shapes', hhappens⟩ := hf.happens c
    obtain ⟨hlevel, hi'⟩ := hhappens.levelAt hi
    rw [calls, ih (hhappens.stands hf) hi', hlevel]

/-- An entry of a tree hangs as a branch of that tree, if it does at all. -/
theorem Stands.mem_branches_of_up (hf : f.Stands shapes) (ha : f.Anchored shapes)
    (hp : f.plot t = .ok p) (hi : i ∈ p.entries)
    (hup : (p.store.up (.branch i)).isSome = true) : i ∈ p.branches := by
  have hbears := hf.bears_plot hp
  rw [hbears.branches_eq]
  obtain ⟨u, hu, hiu⟩ := hbears.mem_entries hi
  rw [(plot_eq_ok.mp hp).2] at hup
  obtain ⟨n, v, hv, hiv⟩ := ha i hup
  obtain ⟨tree, ht⟩ := hf.exists_tree hv
  have hown := hf.bears n tree ht
  rw [hv] at hown
  obtain rfl : n = t := by
    by_contra hne
    exact hf.apart n t v u hne hv hu (hown.2.own hiv) hiu
  rw [hv]
  exact hiv

end Forest

/-! ### Both roles -/

/-- Which records own which branches of a tree of the shape `t`, and where they hang: the record
`first` was hung in it first, and then the records `rest`. -/
structure Plot.DualRoles (p : Plot) (t : Shape) (first : Slot) (rest : List Slot) : Prop where
  /-- Every entry hangs as a leaf once. -/
  leaves : t.leaves.Nodup ∧ t.leaves.Perm (first :: rest)
  /-- Every entry after the first hangs as a branch once. -/
  branches : t.branches.Nodup ∧ t.branches.Perm rest
  /-- The first entry hangs nowhere as a branch. -/
  unbranched : first ∉ t.branches ∧ (p.store.nodeAt first).branchUp = .null
  /-- An entry hangs as a leaf where its leaf link says. -/
  leafPlace : ∀ (path : Path) i, path.fill (.leaf i) = t →
    (p.store.nodeAt i).leafUp.place? = some path.place
  /-- An entry hangs as a branch where its branch link says, on its bit. -/
  branchPlace : ∀ (path : Path) i b l r, path.fill (.branch i b l r) = t →
    (p.store.nodeAt i).branchUp.place? = some path.place ∧ (p.store.nodeAt i).bit.toInt = b
  /-- It is below its branch as a leaf. -/
  owner : ∀ (path : Path) i b l r, path.fill (.branch i b l r) = t → i ∈ l.leaves ++ r.leaves
  /-- The owner of a branch on a bit is the oldest entry of its group. -/
  ordinary : ∀ (path : Path) i b l r, path.fill (.branch i b l r) = t → 0 ≤ b →
    ∃ c ∈ t.clumps, c.oldest = i
  /-- The owner of a level is another entry of the group it stands over. -/
  level : ∀ (path : Path) i b l r, path.fill (.branch i b l r) = t → b < 0 →
    ∃ c ∈ t.clumps, i ∈ c.branches ∧ i ∈ c.group.later

/-- A sound tree whose branches are the entries after the first one. -/
theorem Plot.Bears.dualRoles {p : Plot} {t : Shape} {first : Slot} {rest : List Slot}
    (h : p.Bears (some t)) (hleaves : t.leaves.Perm (first :: rest))
    (hbranches : t.branches.Perm rest) (hup : p.store.up (.branch first) = none) :
    p.DualRoles t first rest := by
  obtain ⟨⟨htop, hhangs⟩, hsound⟩ := h
  have hat : ∀ (path : Path) i b l r, path.fill (.branch i b l r) = t →
      p.store.Hangs path.place (.branch i b l r) ∧ i ∈ t.branches := by
    rintro path i b l r rfl
    exact ⟨(Store.hangs_fill.mp hhangs).2,
      (Path.branches_fill path _).mem_iff.mpr (List.mem_append_left _ List.mem_cons_self)⟩
  constructor
  case leaves => exact ⟨hsound.distinct.leaves, hleaves⟩
  case branches => exact ⟨hsound.distinct.branches, hbranches⟩
  case unbranched =>
    have hnodup := hleaves.nodup_iff.mp hsound.distinct.leaves
    have hnot : first ∉ t.branches := fun hmem =>
      (List.nodup_cons.mp hnodup).1 (hbranches.mem_iff.mp hmem)
    exact ⟨hnot, ParentLink.ext_place? (hup.trans ParentLink.place?_null.symm)⟩
  case leafPlace =>
    rintro path i rfl
    exact (Store.hangs_fill.mp hhangs).2
  case branchPlace =>
    intro path i b l r hfill
    obtain ⟨hup, hlevel, -⟩ := (hat path i b l r hfill).1
    exact ⟨hup, hlevel⟩
  case owner =>
    rintro path i b l r rfl
    exact hsound.sorted.own_of_fill
  case ordinary =>
    intro path i b l r hfill hb
    obtain ⟨⟨-, hlevel, -⟩, hi⟩ := hat path i b l r hfill
    exact hsound.sorted.oldest_of_nonneg hhangs hi (hlevel ▸ hb)
  case level =>
    intro path i b l r hfill hb
    obtain ⟨⟨-, hlevel, -⟩, hi⟩ := hat path i b l r hfill
    exact hsound.sorted.later_of_neg hhangs hi (hlevel ▸ hb)

namespace Forest

/-- **The two roles after any run.**  In every tree that has entries, the records that the run hung
in it each hang as a leaf once; all but the first hang as a branch once, above their own leaf; the
oldest entries of the groups own the branches on bits, and the others the levels over their groups;
and whatever calls come after, all of them keep their bits. -/
theorem calls_roles (uniques : List Bool) (cs : List Call) (n : Nat) (p : Plot)
    (hp : ((fresh uniques).calls cs).plot n = .ok p) (hempty : p.tree.isEmpty = false) :
    ∃ t first rest, p.Holds t ∧ ((fresh uniques).history n cs).map (·.1) = first :: rest ∧
      p.DualRoles t first rest ∧ ∀ cs' i, i ∈ first :: rest →
        (((fresh uniques).calls cs).calls cs').store.levelAt i = p.store.levelAt i := by
  obtain ⟨shapes, hf, ha⟩ := anchored_calls uniques cs
  have hbears := hf.bears_plot hp
  have hentries := entries_calls uniques cs hp
  have hbranches := branches_calls uniques cs hp
  have hkept : ∀ i ∈ p.entries, ∀ cs', (((fresh uniques).calls cs).calls cs').store.levelAt i =
      p.store.levelAt i := by
    intro i hi cs'
    rw [(plot_eq_ok.mp hp).2]
    exact hf.level_calls (hf.isSome_up_iff.mpr ⟨n, p, hp, hi⟩) cs'
  cases hshape : shapes n with
  | none =>
    rw [hshape] at hbears
    have htop : p.tree.top = .null := hbears
    rw [Tree.isEmpty, htop] at hempty
    cases hempty
  | some t =>
    rw [hshape] at hbears
    cases hslots : ((fresh uniques).history n cs).map (·.1) with
    | nil =>
      rw [hslots, hbears.entries_eq] at hentries
      exact absurd hentries.eq_nil t.leaves_ne_nil
    | cons first rest =>
      rw [hslots] at hentries hbranches
      have hnodup := List.nodup_cons.mp (hentries.nodup_iff.mp hbears.nodup_entries)
      -- if the first entry hung as a branch, it would be one of the others
      have hup : p.store.up (.branch first) = none := by
        by_contra hsome
        have hmem := hf.mem_branches_of_up ha hp
          (hentries.mem_iff.mpr List.mem_cons_self) (Option.isSome_iff_ne_none.mpr hsome)
        exact hnodup.1 (hbranches.mem_iff.mp hmem)
      refine ⟨t, first, rest, hbears.1, rfl, ?_, ?_⟩
      · rw [hbears.entries_eq] at hentries
        rw [hbears.branches_eq] at hbranches
        exact hbears.dualRoles hentries hbranches hup
      · intro cs' i hi
        exact hkept i (hentries.mem_iff.mpr hi) cs'

/-- The entries `ab`, `a`, `aa` and `a`, in two groups of two. -/
theorem calls_roles_mixed : ∃ p t, ((fresh [false]).calls [.add #[97, 98], .add #[97],
    .add #[97, 97], .add #[97], .insert 0 0 2, .insert 0 1 1, .insert 0 2 2,
    .insert 0 3 1]).plot 0 = .ok p ∧ p.groups = [⟨2, [3]⟩, ⟨0, [1]⟩] ∧
      p.DualRoles t 0 [1, 2, 3] := by
  have hp := plot_of_lt (t := 0) (f := (fresh [false]).calls [.add #[97, 98], .add #[97],
    .add #[97, 97], .add #[97], .insert 0 0 2, .insert 0 1 1, .insert 0 2 2, .insert 0 3 1])
    (by decide +kernel)
  obtain ⟨t, first, rest, -, hslots, hroles, -⟩ :=
    calls_roles [false] _ 0 _ hp (by decide +kernel)
  have hhistory : ((fresh [false]).history 0 [.add #[97, 98], .add #[97], .add #[97, 97],
      .add #[97], .insert 0 0 2, .insert 0 1 1, .insert 0 2 2, .insert 0 3 1]).map (·.1) =
        [0, 1, 2, 3] := by decide +kernel
  obtain ⟨rfl, rfl⟩ := List.cons.inj (hslots.symm.trans hhistory)
  exact ⟨_, t, hp, by decide +kernel, hroles⟩

end Forest

end BitTrie
