import BitTrie.Proofs.Chains
import BitTrie.Proofs.History

/-!
# Walks in the course of a run

The members of a group are in the order in which the run has hung them, wherever the branches over
them have been moved to since.  So the next entry of a member is the one that was hung after it in
the same group, the previous entry the one before it, and the two walks undo each other.  From a
record that is in no tree there is nowhere to go.

## Main definitions

* `Forest.Walks` — **what walks from the records of a forest find**, given the order in which the
  records of each tree were hung.

## Main results

* `Forest.members_sublist` — the members of a group are in the order of the run.
* `Store.Walks.next_iff`, `Store.Walks.prev_iff` — neighbours in a group.
* `Forest.calls_walks` — **walks after any run**.
-/

namespace BitTrie

/-! ### Neighbours -/

namespace Store.Walks

variable {s : Store} {g : Group} {a b : Slot}

/-- The next entry of a member is the member that stands right behind it. -/
theorem next_iff (h : s.Walks g) (ha : a ∈ g.members) :
    s.nextEqual a = .ok (some b) ↔ ∃ before after, g.members = before ++ a :: b :: after := by
  constructor
  · intro hnext
    obtain ⟨before, after, hmembers⟩ := List.append_of_mem ha
    rw [h.next before a after hmembers, Except.ok.injEq] at hnext
    obtain ⟨after', rfl⟩ := List.head?_eq_some_iff.mp hnext
    exact ⟨before, after', hmembers⟩
  · rintro ⟨before, after, hmembers⟩
    rw [h.next before a (b :: after) hmembers]
    rfl

/-- The previous entry of a member is the member that stands right before it. -/
theorem prev_iff (h : s.Walks g) (hb : b ∈ g.members) :
    s.prevEqual b = .ok (some a) ↔ ∃ before after, g.members = before ++ a :: b :: after := by
  constructor
  · intro hprev
    obtain ⟨before, after, hmembers⟩ := List.append_of_mem hb
    rw [h.prev before b after hmembers, Except.ok.injEq] at hprev
    obtain ⟨before', rfl⟩ := List.getLast?_eq_some_iff.mp hprev
    exact ⟨before', after, by rw [hmembers, List.append_assoc]; rfl⟩
  · rintro ⟨before, after, hmembers⟩
    rw [List.append_cons] at hmembers
    rw [h.prev (before ++ [a]) b after hmembers, List.getLast?_concat]

end Store.Walks

/-- From a record that is in no tree there is nowhere to go. -/
theorem Store.step_of_free {s : Store} {i : Slot} (h : s.isResident i = .ok false)
    (origin : Side) : s.step origin i = .ok none := by
  obtain ⟨hi, hup⟩ := isResident_eq_ok.mp h
  have hnull : (s.nodeAt i).leafUp = .null := by
    rw [Store.up, Option.isSome_eq_false_iff, Option.isNone_iff_eq_none] at hup
    exact ParentLink.ext_place? (hup.trans ParentLink.place?_null.symm)
  rw [step, node_eq_ok hi]
  simp only [bind, Except.bind, if_pos hnull]
  rfl

/-! ### Runs -/

/-- What walks from the records of a forest find, when those of the tree `t` were hung in the order
`order t`. -/
structure Forest.Walks (f : Forest) (order : Nat → List Slot) : Prop where
  /-- Every record that was hung in a tree is a member of one of its groups, once. -/
  members : ∀ t p, f.plot t = .ok p →
    (order t).Nodup ∧ (p.groups.flatMap Group.members).Perm (order t)
  /-- Every group has its members in the order in which they were hung, and so they are walked. -/
  groups : ∀ t p, f.plot t = .ok p → ∀ g ∈ p.groups,
    g.members.Sublist (order t) ∧ f.store.Walks g
  /-- Every resident record is a member of a group. -/
  resident : ∀ i, f.store.isResident i = .ok true →
    ∃ t p, f.plot t = .ok p ∧ ∃ g ∈ p.groups, i ∈ g.members
  /-- One step on and one step back undo each other. -/
  inverse : ∀ a b, f.store.nextEqual a = .ok (some b) ↔ f.store.prevEqual b = .ok (some a)
  /-- There is nowhere to go from any other record. -/
  free : ∀ i, f.store.isResident i = .ok false →
    f.store.nextEqual i = .ok none ∧ f.store.prevEqual i = .ok none

namespace Forest

variable {f : Forest} {shapes : Nat → Option Shape} {t i : Nat} {p : Plot}

/-- **The members of a group are in the order of the run**, whatever it has entered between them. -/
theorem members_sublist (uniques : List Bool) (cs : List Call)
    (hp : ((fresh uniques).calls cs).plot t = .ok p) :
    ∀ g ∈ p.groups, g.members.Sublist (((fresh uniques).history t cs).map (·.1)) := by
  refine calls_tree_induction
    (Q := fun p h => ∀ g ∈ p.groups, g.members.Sublist (h.map (·.1))) ?_ ?_ ?_ uniques hp
  · intro p hp
    rw [hp.groups_eq]
    exact fun g hg => absurd hg List.not_mem_nil
  · intro p p' h _ hshape _ hQ
    rw [Plot.groups_congr hshape]
    exact hQ
  · intro p new len o r o' q h _ hp hfree hins hQ g' hg'
    rw [List.map_append]
    -- a new member is the last of its group, as it is the last of the run
    rcases (hins.entered hp (hins.bears hp hfree)).cases_of_mem hg' with
      hg | ⟨rfl, rfl | ⟨g, hg, -, rfl⟩⟩
    · exact (hQ g' hg).trans (List.sublist_append_left _ _)
    · rw [if_pos rfl]
      exact List.sublist_append_right _ _
    · rw [if_pos rfl]
      exact (hQ g hg).append (List.Sublist.refl [r])

theorem Stands.walks_of_plot (hf : f.Stands shapes) (hp : f.plot t = .ok p) {g : Group}
    (hg : g ∈ p.groups) : f.store.Walks g :=
  (plot_eq_ok.mp hp).2 ▸ (hf.bears_plot hp).walks hg

theorem Stands.exists_group (hf : f.Stands shapes) (hi : f.store.isResident i = .ok true) :
    ∃ t p, f.plot t = .ok p ∧ ∃ g ∈ p.groups, i ∈ g.members := by
  obtain ⟨t, p, hp, hip⟩ := hf.isSome_up_iff.mp (Store.isResident_eq_ok.mp hi).2
  rw [← p.flatMap_members_groups] at hip
  exact ⟨t, p, hp, List.mem_flatMap.mp hip⟩

/-- A record from which a walk goes anywhere is a member of a group. -/
theorem Stands.walks_of_step (hf : f.Stands shapes) {origin : Side} {j : Slot}
    (hstep : f.store.step origin i = .ok (some j)) : ∃ g, i ∈ g.members ∧ f.store.Walks g := by
  have hlt : i < f.store.size := by
    refine Nat.lt_of_not_le fun hge => ?_
    rw [Store.step, Store.node_eq_error hge] at hstep
    cases hstep
  cases hup : (f.store.up (.leaf i)).isSome with
  | true =>
    obtain ⟨t, p, hp, g, hg, hig⟩ := hf.exists_group (Store.isResident_eq_ok.mpr ⟨hlt, hup⟩)
    exact ⟨g, hig, hf.walks_of_plot hp hg⟩
  | false =>
    rw [Store.step_of_free (Store.isResident_eq_ok.mpr ⟨hlt, hup⟩)] at hstep
    cases hstep

/-- **One step on and one step back undo each other.** -/
theorem Stands.next_iff_prev (hf : f.Stands shapes) (a b : Slot) :
    f.store.nextEqual a = .ok (some b) ↔ f.store.prevEqual b = .ok (some a) := by
  constructor
  · intro hnext
    obtain ⟨g, ha, hg⟩ := hf.walks_of_step hnext
    obtain ⟨before, after, hmembers⟩ := (hg.next_iff ha).mp hnext
    have hb : b ∈ g.members := by
      rw [hmembers]
      exact List.mem_append_right _ (List.mem_cons_of_mem _ List.mem_cons_self)
    exact (hg.prev_iff hb).mpr ⟨before, after, hmembers⟩
  · intro hprev
    obtain ⟨g, hb, hg⟩ := hf.walks_of_step hprev
    obtain ⟨before, after, hmembers⟩ := (hg.prev_iff hb).mp hprev
    have ha : a ∈ g.members := by
      rw [hmembers]
      exact List.mem_append_right _ List.mem_cons_self
    exact (hg.next_iff ha).mpr ⟨before, after, hmembers⟩

/-- What walks find in a tree of the forest. -/
theorem Walks.of_mem_groups {order : Nat → List Slot} {g : Group} (h : f.Walks order)
    (hp : f.plot t = .ok p) (hg : g ∈ p.groups) : p.store.Walks g := by
  rw [(plot_eq_ok.mp hp).2]
  exact (h.groups t p hp g hg).2

/-- **Walks after any run.**  From every member of every group, on and back, they meet the other
members one by one in the order in which the run has hung them, and end at the last and at the
first; a step on and a step back undo each other; and from a record that is in no tree there is
nowhere to go. -/
theorem calls_walks (uniques : List Bool) (cs : List Call) :
    ((fresh uniques).calls cs).Walks fun t => ((fresh uniques).history t cs).map (·.1) := by
  obtain ⟨shapes, hf⟩ := stands_calls uniques cs
  refine ⟨?_, ?_, fun i hi => hf.exists_group hi, hf.next_iff_prev, ?_⟩
  · intro t p hp
    have hentries := entries_calls uniques cs hp
    rw [p.flatMap_members_groups]
    exact ⟨hentries.nodup_iff.mp (hf.bears_plot hp).nodup_entries, hentries⟩
  · intro t p hp g hg
    exact ⟨members_sublist uniques cs hp g hg, hf.walks_of_plot hp hg⟩
  · intro i hi
    exact ⟨Store.step_of_free hi .left, Store.step_of_free hi .right⟩

/-- Three entries `a`, the last of them hung after a branch was put in above the first two.  Walks
from the one in the middle meet the others. -/
theorem calls_walks_middle :
    ∃ p, ((fresh [false]).calls [.add #[97], .add #[97], .add #[97], .add #[98], .insert 0 0 1,
      .insert 0 1 1, .insert 0 3 1, .insert 0 2 1]).plot 0 = .ok p ∧
      p.groups = [⟨0, [1, 2]⟩, ⟨3, []⟩] ∧ p.tree.top.child? = some (.branch 3) ∧
      p.store.nextEqual 1 = .ok (some 2) ∧ p.store.prevEqual 1 = .ok (some 0) ∧
      p.store.equalEntries 1 = .ok [1, 2] ∧ p.store.chain .right 1 1 = .ok [1, 0] := by
  obtain ⟨p, hp, hgroups, htop⟩ : ∃ p, ((fresh [false]).calls [.add #[97], .add #[97],
      .add #[97], .add #[98], .insert 0 0 1, .insert 0 1 1, .insert 0 3 1,
      .insert 0 2 1]).plot 0 = .ok p ∧ p.groups = [⟨0, [1, 2]⟩, ⟨3, []⟩] ∧
      p.tree.top.child? = some (.branch 3) :=
    ⟨_, plot_of_lt (by decide +kernel), by decide +kernel, by decide +kernel⟩
  have hwalks := (calls_walks [false] _).of_mem_groups hp (hgroups ▸ List.mem_cons_self)
  exact ⟨p, hp, hgroups, htop, hwalks.next [0] 1 [2] rfl, hwalks.prev [0] 1 [2] rfl,
    hwalks.onward [0] 1 [2] rfl, hwalks.back [0] 1 [2] rfl 1 (Nat.le_refl 1)⟩

end Forest

end BitTrie
