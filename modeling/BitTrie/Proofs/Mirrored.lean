import BitTrie.Proofs.History

/-!
# Links and the links back

Where a shape hangs, every link down is answered by the link back, and the shape can be read off
either of them.  After any run the same holds of the store as a whole: whatever names a place of a
branch in its link back is what hangs there.

## Main definitions

* `Shape.Has` — a slot is met in a role.
* `Plot.branches` — the slots that serve as branches of a tree.
* `Forest.Anchored` — every slot that hangs as a branch is one of some tree.

## Main results

* `Store.Hangs.eq_of_root` — the links down determine a shape.
* `Store.Hangs.up_eq` — a shape determines the links back.
* `Forest.Happens.anchored`, `Forest.anchored_calls` — branches that hang are in trees, after any
  run.
* `Forest.Stands.down_of_up` — **what names a place hangs there**.
-/

namespace BitTrie

/-! ### What is met in a shape -/

/-- A slot is met in a role. -/
def Shape.Has (t : Shape) : Child → Prop
  | .leaf i => i ∈ t.leaves
  | .branch i => i ∈ t.branches

theorem Shape.has_branch {i : Slot} {b : Int} {l r : Shape} {c : Child} :
    (branch i b l r).Has c ↔ c = .branch i ∨ l.Has c ∨ r.Has c := by
  cases c with
  | leaf j => simp [Has]
  | branch j => simp [Has]

/-- The slots that serve as branches of a tree. -/
def Plot.branches (p : Plot) : List Slot := (p.shape?.map Shape.branches).getD []

theorem Plot.Bears.branches_eq {p : Plot} {o : Option Shape} (h : p.Bears o) :
    p.branches = (o.map Shape.branches).getD [] := by
  rw [branches, h.shape?_eq]

namespace Store

variable {s s' : Store} {place place' : Place} {t t' : Shape} {i : Slot} {c : Child}

/-- On both sides of a branch of a shape hangs something that links back to there. -/
theorem Hangs.up_down (h : s.Hangs place t) (hi : i ∈ t.branches) (side : Side) :
    ∃ c, s.down i side = some c ∧ s.up c = some (.under i side) := by
  induction t generalizing place with
  | leaf j => exact absurd hi List.not_mem_nil
  | branch j b l r ihl ihr =>
    obtain ⟨-, -, hleft, hright, hl, hr⟩ := h
    rcases List.mem_cons.mp hi with rfl | hi
    · cases side with
      | left => exact ⟨l.root, hleft, hl.up_root⟩
      | right => exact ⟨r.root, hright, hr.up_root⟩
    · rcases List.mem_append.mp hi with hi | hi
      · exact ihl hl hi
      · exact ihr hr hi

/-- What a shape meets is its root, or hangs where it links back to. -/
theorem Hangs.down_up (h : s.Hangs place t) (hc : t.Has c) :
    c = t.root ∨ ∃ i side, s.up c = some (.under i side) ∧ s.down i side = some c := by
  induction t generalizing place with
  | leaf j =>
    cases c with
    | leaf k => exact Or.inl (congrArg Child.leaf (List.mem_singleton.mp hc))
    | branch k => exact absurd hc List.not_mem_nil
  | branch j b l r ihl ihr =>
    obtain ⟨-, -, hleft, hright, hl, hr⟩ := h
    rcases Shape.has_branch.mp hc with rfl | hc | hc
    · exact Or.inl rfl
    · rcases ihl hl hc with rfl | hc
      · exact Or.inr ⟨j, .left, hl.up_root, hleft⟩
      · exact Or.inr hc
    · rcases ihr hr hc with rfl | hc
      · exact Or.inr ⟨j, .right, hr.up_root, hright⟩
      · exact Or.inr hc

/-- **The links down determine a shape**: two stores with the same links down and the same bits
have the same shape below the same slot. -/
theorem Hangs.eq_of_root (h : s.Hangs place t) (h' : s'.Hangs place' t')
    (hroot : t'.root = t.root)
    (hsame : ∀ i ∈ t.branches,
      s'.levelAt i = s.levelAt i ∧ ∀ side, s'.down i side = s.down i side) : t' = t := by
  induction t generalizing place place' t' with
  | leaf j =>
    cases t' with
    | leaf k => exact congrArg Shape.leaf (Child.leaf.inj hroot)
    | branch k b l r => cases hroot
  | branch j b l r ihl ihr =>
    cases t' with
    | leaf k => cases hroot
    | branch k b' l' r' =>
      obtain rfl := Child.branch.inj hroot
      obtain ⟨-, hlevel, hleft, hright, hl, hr⟩ := h
      obtain ⟨-, hlevel', hleft', hright', hl', hr'⟩ := h'
      obtain ⟨hlevels, hdowns⟩ := hsame k List.mem_cons_self
      rw [hdowns, hleft] at hleft'
      rw [hdowns, hright] at hright'
      rw [ihl hl hl' (Option.some.inj hleft').symm fun i hi =>
          hsame i (List.mem_cons_of_mem _ (List.mem_append_left _ hi)),
        ihr hr hr' (Option.some.inj hright').symm fun i hi =>
          hsame i (List.mem_cons_of_mem _ (List.mem_append_right _ hi)),
        ← hlevel, ← hlevel', hlevels]

/-- A branch is met in another store when the links down to it are the same there. -/
theorem Hangs.mem_branches_of_root (h : s.Hangs place t) (h' : s'.Hangs place' t')
    (hroot : t'.root = t.root) (hi : i ∈ t.branches)
    (hsame : ∀ j, j ≠ i → ∀ side, s'.down j side = s.down j side) : i ∈ t'.branches := by
  induction t generalizing place place' t' with
  | leaf j => exact absurd hi List.not_mem_nil
  | branch j b l r ihl ihr =>
    cases t' with
    | leaf k => cases hroot
    | branch k b' l' r' =>
      obtain rfl := Child.branch.inj hroot
      by_cases hk : i = k
      · rw [hk]
        exact List.mem_cons_self
      obtain ⟨-, -, hleft, hright, hl, hr⟩ := h
      obtain ⟨-, -, hleft', hright', hl', hr'⟩ := h'
      rw [hsame k (Ne.symm hk)] at hleft' hright'
      refine List.mem_cons_of_mem _ (List.mem_append.mpr ?_)
      rcases List.mem_append.mp ((List.mem_cons.mp hi).resolve_left hk) with hi | hi
      · exact Or.inl (ihl hl hl' (Option.some.inj (hleft'.symm.trans hleft)) hi)
      · exact Or.inr (ihr hr hr' (Option.some.inj (hright'.symm.trans hright)) hi)

/-- **A shape determines the links back** of what it meets. -/
theorem Hangs.up_eq (h : s.Hangs place t) (h' : s'.Hangs place t) (hc : t.Has c) :
    s'.up c = s.up c := by
  induction t generalizing place with
  | leaf j =>
    cases c with
    | leaf k =>
      rw [List.mem_singleton.mp hc]
      exact h'.up_root.trans h.up_root.symm
    | branch k => exact absurd hc List.not_mem_nil
  | branch j b l r ihl ihr =>
    obtain ⟨hup, -, -, -, hl, hr⟩ := h
    obtain ⟨hup', -, -, -, hl', hr'⟩ := h'
    rcases Shape.has_branch.mp hc with rfl | hc | hc
    · exact hup'.trans hup.symm
    · exact ihl hl hl' hc
    · exact ihr hr hr' hc

end Store

/-! ### Branches that hang -/

section

variable {p q : Plot} {new r i len : Nat} {o o' : Option Shape}

/-- A branch that hangs after a graft is of the tree, or hung before. -/
theorem Grafted.of_up_branch {path : Path} {u : Shape} {side : Side} {bit : Int}
    (h : Grafted p path.place u.root new side bit q)
    (hi : (q.store.up (.branch i)).isSome = true) :
    i ∈ (path.fill (u.graft new side bit)).branches ∨
      (p.store.up (.branch i)).isSome = true := by
  rw [h.up, if_neg (by simp)] at hi
  rw [(Path.branches_fill_graft path u new side bit).mem_iff, List.mem_cons]
  split at hi
  · next hnew => exact Or.inl (Or.inl (Child.branch.inj hnew))
  · split at hi
    · next hold =>
      refine Or.inl (Or.inr ((Path.branches_fill path u).mem_iff.mpr (List.mem_append_left _ ?_)))
      exact Shape.mem_branches_of_root hold.symm
    · exact Or.inr hi

/-- A branch that hangs after an insertion is of the tree, or hung before. -/
theorem Inserts.of_up_branch (h : Inserts p new len o r o' q)
    (hi : (q.store.up (.branch i)).isSome = true) :
    (∃ t', o' = some t' ∧ i ∈ t'.branches) ∨ (p.store.up (.branch i)).isSome = true := by
  cases h with
  | first h =>
    rw [h.up, if_neg (by simp)] at hi
    split at hi
    · cases hi
    · exact Or.inr hi
  | turnedDown hunique hmeets => exact Or.inr hi
  | @joined path inner c u q hunique hmeets hseam h =>
    rw [← Path.fill_append]
    exact (h.of_up_branch hi).imp_left fun hmem => ⟨_, rfl, hmem⟩
  | alone hdiverges h => exact (h.of_up_branch hi).imp_left fun hmem => ⟨_, rfl, hmem⟩

/-- An insertion keeps all branches. -/
theorem Inserts.mem_branches_of_mem (h : Inserts p new len o r o' q) {t : Shape}
    (ht : o = some t) (hi : i ∈ t.branches) : ∃ t', o' = some t' ∧ i ∈ t'.branches := by
  cases h with
  | first h => cases ht
  | turnedDown hunique hmeets => exact ⟨t, ht, hi⟩
  | @joined path inner c u q hunique hmeets hseam h =>
    cases ht
    rw [← Path.fill_append]
    refine ⟨_, rfl, (Path.branches_fill_graft (inner ++ path) u new _ _).mem_iff.mpr ?_⟩
    rw [Path.fill_append, hseam.fill_eq]
    exact List.mem_cons_of_mem _ hi
  | @alone path u d q hdiverges h =>
    cases ht
    exact ⟨_, rfl, (Path.branches_fill_graft path u new _ _).mem_iff.mpr
      (List.mem_cons_of_mem _ hi)⟩

end

namespace Forest

variable {f f' : Forest} {shapes shapes' : Nat → Option Shape} {c : Call} {out : Outcome Slot}

/-- Every slot that hangs as a branch is one of some tree. -/
def Anchored (f : Forest) (shapes : Nat → Option Shape) : Prop :=
  ∀ i, (f.store.up (.branch i)).isSome = true → ∃ n t, shapes n = some t ∧ i ∈ t.branches

/-- A call leaves no branch behind that hangs outside the trees. -/
theorem Happens.anchored (h : f.Happens shapes c out f' shapes') (hf : f.Anchored shapes) :
    f'.Anchored shapes' := by
  intro i hi
  cases h with
  | refused h => exact hf i hi
  | added hadd =>
    rw [Store.up, Store.nodeAt_of_add hadd] at hi
    exact hf i hi
  | @inserted _ n new len r tree o q hc ht hfree hlen hins =>
    rcases hins.of_up_branch hi with ⟨t', ho, hmem⟩ | hup
    · exact ⟨n, t', by rw [Function.update_self, ho], hmem⟩
    obtain ⟨m, t, hm, hmem⟩ := hf i hup
    by_cases hmn : m = n
    · subst hmn
      obtain ⟨t', ho, hmem'⟩ := hins.mem_branches_of_mem hm hmem
      exact ⟨m, t', by rw [Function.update_self, ho], hmem'⟩
    · exact ⟨m, t, by rw [Function.update_of_ne hmn, hm], hmem⟩

/-- After any run, every slot that hangs as a branch is one of some tree. -/
theorem anchored_calls (uniques : List Bool) (cs : List Call) :
    ∃ shapes, ((fresh uniques).calls cs).Stands shapes ∧
      ((fresh uniques).calls cs).Anchored shapes := by
  have hfresh : (fresh uniques).Anchored fun _ => none := by
    intro i hi
    rw [Store.up, Store.nodeAt_of_le (Nat.zero_le _)] at hi
    cases hi
  suffices hall : ∀ f shapes, Stands f shapes → f.Anchored shapes →
      ∃ shapes', (f.calls cs).Stands shapes' ∧ (f.calls cs).Anchored shapes' from
    hall _ _ (stands_fresh uniques) hfresh
  induction cs with
  | nil => exact fun f shapes hf ha => ⟨shapes, hf, ha⟩
  | cons c cs ih =>
    intro f shapes hf ha
    obtain ⟨shapes', hhappens⟩ := hf.happens c
    exact ih _ shapes' (hhappens.stands hf) (hhappens.anchored ha)

/-- **What names a place hangs there**, in the whole store. -/
theorem Stands.down_of_up (hf : f.Stands shapes) (ha : f.Anchored shapes) {c : Child} {i : Slot}
    {side : Side} (hup : f.store.up c = some (.under i side)) : f.store.down i side = some c := by
  have hsome : (f.store.up c).isSome = true := by rw [hup]; rfl
  obtain ⟨n, t, hn, hhas⟩ : ∃ n t, shapes n = some t ∧ t.Has c := by
    cases c with
    | leaf j => exact hf.resident j hsome
    | branch j => exact ha j hsome
  obtain ⟨tree, ht⟩ := hf.exists_tree hn
  have hbears := hf.bears n tree ht
  rw [hn] at hbears
  have hhangs := hbears.1.2
  rcases hhangs.down_up hhas with rfl | ⟨j, side', hup', hdown⟩
  · rw [hhangs.up_root] at hup
    cases hup
  · rw [hup'] at hup
    cases hup
    exact hdown

end Forest

end BitTrie
