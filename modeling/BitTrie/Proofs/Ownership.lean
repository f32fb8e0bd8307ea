import BitTrie.Proofs.Chains
import BitTrie.Proofs.Mirrored
import BitTrie.Proofs.Visits

/-!
# What an audit says of the owners of branches

An audit does not look for the entry of a branch's own slot below the branch.  It climbs from the
entry by the links back, and these have been compared with the links down only where something was
met.  Where the entry is met in the tree, the climb is the way down read backwards, so that the
entry is below the branch; where it is not, its link back may name any place below the branch, and
the audit passes all the same.

## Main results

* `Plot.auditFrom_owns` — an audit that passes has climbed to every branch.
* `Store.Lines.climbTo_ne` — a climb from a place does not come to a branch that is not passed on
  the way there.
* `Plot.audit_owned` — in a tree without a flaw, **an entry that is met is below the branch it
  owns**.
* `Plot.audit_not_owned` — a tree without a flaw in which the owner of a branch is not met.
-/

namespace BitTrie

/-! ### The climb -/

section

variable {s : Store} {i : Slot}

/-- A climb from a place does not come to a branch that is not passed on the way there. -/
theorem Store.Lines.climbTo_ne {path : Path} {c : Child} (h : s.Lines path c)
    (hpath : ∀ f ∈ path, f.slot ≠ i) {up : ParentLink} (hup : up.place? = some path.place)
    (fuel : Nat) : s.climbTo i fuel up ≠ .ok true := by
  induction path generalizing c up fuel with
  | nil =>
    cases fuel with
    | zero => simp [climbTo]
    | succ fuel =>
      rw [climbTo, hup]
      simp
  | cons f fs ih =>
    obtain ⟨hupf, -, -, -, -, hlines⟩ := h
    cases fuel with
    | zero => simp [climbTo]
    | succ fuel =>
      have hne : ¬ f.slot = i := hpath f List.mem_cons_self
      have hlt : f.slot < s.size := lt_size_of_up hupf
      rw [climbTo, hup]
      simp only [Path.place_cons, hne, if_false, node_eq_ok hlt]
      exact ih hlines (fun g hg => hpath g (List.mem_cons_of_mem _ hg)) hupf fuel

/-- An entry that is met, and from which a climb comes to its branch, is below the branch. -/
theorem Store.Hangs.own_of_climb {t : Shape} {path : Path} {b : Int} {l r : Shape}
    (h : s.Hangs .root t) (hfill : path.fill (.branch i b l r) = t) (hi : i ∈ t.leaves)
    (hclimb : s.ownsLeaf i (s.nodeAt i) = .ok true) : i ∈ l.leaves ++ r.leaves := by
  obtain ⟨way, hway⟩ := Shape.exists_path hi
  obtain ⟨hlines, hleaf⟩ := hangs_fill.mp (hway.symm ▸ h)
  -- the way to the entry passes the branch
  have hpassed : ∃ f ∈ way, f.slot = i := by
    by_contra hnot
    push Not at hnot
    exact hlines.climbTo_ne hnot hleaf _ hclimb
  obtain ⟨f, hf, rfl⟩ := hpassed
  obtain ⟨inner, outer, rfl⟩ := List.append_of_mem hf
  -- and there is only one branch in its slot
  rw [Path.fill_append, Path.fill_cons] at hway
  obtain ⟨-, hhere⟩ := hangs_fill.mp (hway.symm ▸ h)
  obtain ⟨-, hbranch⟩ := hangs_fill.mp (hfill.symm ▸ h)
  have heq := hbranch.eq_of_root hhere (Fork.root_close f _) fun j _ => ⟨rfl, fun _ => rfl⟩
  have hmem := (Path.leaves_fill_perm (inner ++ [f]) (.leaf f.slot)).mem_iff.mpr
    (List.mem_append_left _ (List.mem_singleton.mpr rfl))
  rw [Path.fill_append, Path.fill_cons, Path.fill_nil, heq] at hmem
  exact hmem

end

/-! ### What has been asked -/

section

variable {p : Plot} {n : Nat} {t : Shape}

/-- An answer to one question after another answers the first. -/
theorem Inspection.bind_eq_pure {α β : Type} {x : Inspection α} {k : α → Inspection β} {b : β}
    (h : x >>= k = pure b) : ∃ a, x = pure a ∧ k a = pure b := by
  match x, h with
  | .ok (.ok a), h => exact ⟨a, rfl, h⟩

/-- An audit that passes has advanced at the first place, and has passed what comes after it. -/
theorem Plot.advances_of_auditFrom {fuel : Nat} {v : Visit} {rest : List Visit} {survey : Survey}
    (haudit : p.auditFrom fuel (v :: rest) survey = pure n) : ∃ fuel' below after,
      p.Advances v survey (below, after) ∧ p.auditFrom fuel' (below ++ rest) after = pure n := by
  cases fuel with
  | zero => cases haudit
  | succ fuel =>
    rw [auditFrom_cons] at haudit
    obtain ⟨⟨below, after⟩, hvisit, hrest⟩ := Inspection.bind_eq_pure haudit
    exact ⟨fuel, below, after, (p.inspect_ends v survey).answer hvisit, hrest⟩

/-- A visit to a branch that advances has climbed to it, and goes on with its two sides. -/
theorem Plot.Advances.of_branch {v : Visit} {survey after : Survey} {below : List Visit}
    {i : Slot} (h : p.Advances v survey (below, after)) (hlink : v.link.child? = some (.branch i)) :
    p.store.ownsLeaf i (p.store.nodeAt i) = .ok true ∧ below =
      [⟨(p.store.nodeAt i).left, ⟨i, .left, (p.store.nodeAt i).bit⟩ :: v.turns⟩,
        ⟨(p.store.nodeAt i).right, ⟨i, .right, (p.store.nodeAt i).bit⟩ :: v.turns⟩] := by
  cases h with
  | entry hanswered =>
    have hleaf := (answered?_eq_some.mp hanswered).1
    rw [hlink] at hleaf
    cases hleaf
  | branch hanswered hlt hnew hequal horder hown =>
    have hbranch := (answered?_eq_some.mp hanswered).1
    rw [hlink] at hbranch
    cases hbranch
    exact ⟨hown, rfl⟩

/-- A visit to an entry that advances has nothing below it. -/
theorem Plot.Advances.of_leaf {v : Visit} {survey after : Survey} {below : List Visit}
    {i : Slot} (h : p.Advances v survey (below, after)) (hlink : v.link.child? = some (.leaf i)) :
    below = [] := by
  cases h with
  | entry => rfl
  | branch hanswered =>
    have hbranch := (answered?_eq_some.mp hanswered).1
    rw [hlink] at hbranch
    cases hbranch

/-- **An audit that passes** has climbed to every branch of a part, and has passed the rest. -/
theorem Plot.auditFrom_owns {fuel : Nat} {v : Visit} {rest : List Visit} {survey : Survey}
    {place : Place} (hhangs : p.store.Hangs place t) (hlink : v.link.child? = some t.root)
    (haudit : p.auditFrom fuel (v :: rest) survey = pure n) :
    (∀ i ∈ t.branches, p.store.ownsLeaf i (p.store.nodeAt i) = .ok true) ∧
      ∃ fuel' survey', p.auditFrom fuel' rest survey' = pure n := by
  induction t generalizing place fuel v rest survey with
  | leaf j =>
    obtain ⟨fuel, below, after, hadvances, hrest⟩ := advances_of_auditFrom haudit
    obtain rfl := hadvances.of_leaf hlink
    exact ⟨fun i hi => absurd hi List.not_mem_nil, fuel, after, hrest⟩
  | branch j b l r ihl ihr =>
    obtain ⟨-, -, hleft, hright, hl, hr⟩ := hhangs
    have hleft' : (p.store.nodeAt j).left.child? = some l.root := hleft
    have hright' : (p.store.nodeAt j).right.child? = some r.root := hright
    obtain ⟨fuel, below, after, hadvances, hrest⟩ := advances_of_auditFrom haudit
    obtain ⟨hown, rfl⟩ := hadvances.of_branch hlink
    -- the two sides are next, one after the other
    obtain ⟨hbranchesl, fuel', survey', hrest⟩ := ihl hl hleft' hrest
    obtain ⟨hbranchesr, hrest⟩ := ihr hr hright' hrest
    refine ⟨fun i hi => ?_, hrest⟩
    rcases List.mem_cons.mp hi with rfl | hi
    · exact hown
    · exact (List.mem_append.mp hi).elim (hbranchesl i) (hbranchesr i)

/-- A tree without a flaw has been climbed to each of its branches. -/
theorem Plot.Holds.owns (h : p.Holds t) (haudit : p.audit = .ok (.ok n)) :
    ∀ i ∈ t.branches, p.store.ownsLeaf i (p.store.nodeAt i) = .ok true := by
  rw [audit, if_neg h.not_isEmpty] at haudit
  exact (auditFrom_owns h.2 h.1 haudit).1

end

/-- **In a tree without a flaw** the links back lead from the entry of every branch's own slot up to
the branch.  The entry is below the branch exactly when it is met in the tree at all. -/
theorem Plot.audit_owned (p : Plot) (n : Nat) (t : Shape) (haudit : p.audit = .ok (.ok n))
    (hholds : p.Holds t) (path : Path) (i : Slot) (b : Int) (l r : Shape)
    (hfill : path.fill (.branch i b l r) = t) :
    p.store.ownsLeaf i (p.store.nodeAt i) = .ok true ∧
      (i ∈ l.leaves ++ r.leaves ↔ i ∈ t.leaves) := by
  have hi : i ∈ t.branches := by
    rw [← hfill]
    exact (Path.branches_fill path _).mem_iff.mpr (List.mem_append_left _ List.mem_cons_self)
  have hclimb := hholds.owns haudit i hi
  refine ⟨hclimb, fun hbelow => ?_, fun hmet => hholds.2.own_of_climb hfill hmet hclimb⟩
  rw [← hfill]
  exact (Path.leaves_fill_perm path _).mem_iff.mpr (List.mem_append_left _ hbelow)

/-- The entry `c` is below the branch it owns. -/
theorem Plot.audit_owned_bc : ∃ p, ((Forest.fresh [true]).calls [.add #[98], .add #[99],
    .insert 0 0 1, .insert 0 1 1]).plot 0 = .ok p ∧ p.Holds (.branch 1 7 (.leaf 0) (.leaf 1)) ∧
      p.store.ownsLeaf 1 (p.store.nodeAt 1) = .ok true ∧ (1 ∈ [0] ++ [1] ↔ 1 ∈ [0, 1]) := by
  refine ⟨_, rfl, ?_⟩
  refine ⟨⟨rfl, rfl, rfl, rfl, rfl, rfl, rfl⟩, ?_⟩
  refine audit_owned _ 2 (.branch 1 7 (.leaf 0) (.leaf 1)) ?_ ?_ [] 1 7 (.leaf 0) (.leaf 1) rfl
  · decide +kernel
  · exact ⟨rfl, rfl, rfl, rfl, rfl, rfl, rfl⟩

/-- A branch over `b` and `c` whose owner is not met anywhere, in a tree without a flaw. -/
theorem Plot.audit_not_owned : stray.audit = .ok (.ok 2) ∧
    stray.Holds (.branch 0 7 (.leaf 1) (.leaf 2)) ∧
      0 ∉ (Shape.leaf 1).leaves ++ (Shape.leaf 2).leaves :=
  ⟨by decide +kernel, ⟨rfl, rfl, rfl, rfl, rfl, rfl, rfl⟩, by decide⟩

end BitTrie
