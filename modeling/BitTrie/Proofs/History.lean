import BitTrie.Proofs.Growth

/-!
# One tree in the course of a run

A tree notices nothing of a call but the insertions into it.  So what depends on its shape and on
the keys of its entries, and is kept by every insertion into it, holds after every run, whatever
else the run does to the store and to the other trees.

## Main definitions

* `Forest.Notices` — what a call does to one of the trees.
* `Plot.entries` — the entries of a tree.

## Main results

* `Forest.Happens.notices` — what a call does to one of the trees.
* `Forest.Stands.calls_tree`, `Forest.calls_tree_induction`, `Forest.calls_entries_induction` —
  what every insertion into a tree keeps.
* `Forest.entries_calls` — the entries of a tree are the records that were hung in it.
* `Forest.alike_of_mem_later` — why a later member of a group is in it.
* `Forest.calls_insert_entered` — **insertion after any run, group by group**.
-/

namespace BitTrie

namespace Forest

variable {f f' : Forest} {shapes shapes' : Nat → Option Shape} {c : Call} {out : Outcome Slot}
  {t : Nat} {p : Plot}

theorem plot_eq_ok : f.plot t = .ok p ↔ f.trees[t]? = some p.tree ∧ p.store = f.store := by
  obtain ⟨tree, s⟩ := p
  unfold plot
  cases f.trees[t]? with
  | none => simp
  | some tree' => simp [eq_comm]

theorem plot_of_lt (h : t < f.trees.size) : f.plot t = .ok ⟨f.trees[t], f.store⟩ :=
  plot_eq_ok.mpr ⟨Array.getElem?_eq_getElem h, rfl⟩

/-- What an edit does to a forest, when it ends with an answer. -/
theorem edit_of_plot {α : Type} {e : Edit α} {a : α} {q : Plot} (hp : f.plot t = .ok p)
    (he : e p = .ok a q) :
    f.edit t e = (.ok a, ⟨f.trees.setIfInBounds t q.tree, q.store⟩) ∧
      Forest.plot ⟨f.trees.setIfInBounds t q.tree, q.store⟩ t = .ok q := by
  obtain ⟨ht, hs⟩ := plot_eq_ok.mp hp
  refine ⟨edit_of_ok ht (by rw [← hs]; exact he), plot_eq_ok.mpr ⟨?_, rfl⟩⟩
  exact Array.getElem?_setIfInBounds_self_of_lt (Array.getElem?_eq_some_iff.mp ht).1

/-- A tree of a forest that stands is sound. -/
theorem Stands.bears_plot (h : f.Stands shapes) (hp : f.plot t = .ok p) : p.Bears (shapes t) := by
  obtain ⟨ht, hs⟩ := plot_eq_ok.mp hp
  have hbears := h.bears t p.tree ht
  rwa [← hs] at hbears

/-- No call makes a tree. -/
theorem Happens.exists_plot {p' : Plot} (h : f.Happens shapes c out f' shapes')
    (hp' : f'.plot t = .ok p') : ∃ p, f.plot t = .ok p := by
  have hlt := (Array.getElem?_eq_some_iff.mp (plot_eq_ok.mp hp').1).1
  rw [h.size_trees] at hlt
  exact ⟨_, plot_of_lt hlt⟩

/-- No run takes a tree away. -/
theorem Stands.exists_plot_calls (h : f.Stands shapes) (hp : f.plot t = .ok p) (cs : List Call) :
    ∃ q, (f.calls cs).plot t = .ok q := by
  have hlt : t < (f.calls cs).trees.size := by
    refine calls_induction (P := fun f _ => t < f.trees.size) (t := t) (h := []) ?_ h
      (Array.getElem?_eq_some_iff.mp (plot_eq_ok.mp hp).1).1
    intro f shapes c _ _ hf hlt
    obtain ⟨shapes', hhappens⟩ := hf.happens c
    rw [hhappens.size_trees]
    exact hlt
  exact ⟨_, plot_of_lt hlt⟩

/-- What a call does to one of the trees, with the outcome `out`. -/
inductive Notices (f : Forest) (t : Nat) (p : Plot) (o : Option Shape) :
    Call → Outcome Slot → Plot → Option Shape → Prop where
  /-- Nothing that the tree notices. -/
  | nothing {c : Call} {out : Outcome Slot} {p' : Plot} (haccepts : f.accepts t c = none)
    (hother : f.refusal c = none → ∀ new len, c.insertion? f.store ≠ some (t, new, len))
    (hunique : p'.tree.unique = p.tree.unique)
    (hkey : ∀ i, i < p.store.size → p'.store.keyAt i = p.store.keyAt i) :
    Notices f t p o c out p' o
  /-- An insertion. -/
  | insertion {c : Call} {new len r : Nat} {p' : Plot} {o' : Option Shape}
    (hc : c.insertion? f.store = some (t, new, len))
    (haccepts : f.accepts t c = if r = new then some (new, len) else none)
    (hfree : p.store.isResident new = .ok false) (h : Inserts p new len o r o' p') :
    Notices f t p o c (.ok r) p' o'

/-- **What a call does to one of the trees**: nothing that the tree notices, or an insertion. -/
theorem Happens.notices (h : f.Happens shapes c out f' shapes')
    (hout : (f.call c).1 = out) (hp : f.plot t = .ok p) :
    ∃ p', f'.plot t = .ok p' ∧ f.Notices t p (shapes t) c out p' (shapes' t) := by
  obtain ⟨ht, hs⟩ := plot_eq_ok.mp hp
  cases h with
  | refused href =>
    refine ⟨p, hp, .nothing ?_ ?_ rfl fun i _ => rfl⟩
    · rw [accepts, hout]
      cases c.insertion? f.store <;> rfl
    · intro h
      rw [href] at h
      cases h
  | @added key i s hadd =>
    refine ⟨⟨p.tree, s⟩, plot_eq_ok.mpr ⟨ht, rfl⟩,
      .nothing rfl (fun _ new len h => by cases h) rfl ?_⟩
    intro j hj
    rw [Store.keyAt_of_add hadd, ← hs, if_neg (Nat.ne_of_lt hj)]
  | @inserted _ n new len r tree o q hc htn hfree hlen hins =>
    by_cases hn : n = t
    · subst hn
      obtain rfl : p.tree = tree := Option.some.inj (ht.symm.trans htn)
      rw [← hs] at hins hfree
      have hnlt : n < f.trees.size := (Array.getElem?_eq_some_iff.mp ht).1
      refine ⟨q, plot_eq_ok.mpr ⟨Array.getElem?_setIfInBounds_self_of_lt hnlt, rfl⟩,
        .insertion hc ?_ hfree ?_⟩
      · rw [accepts, hc, hout]
        simp only [true_and]
      · rw [Function.update_self]
        exact hins
    · refine ⟨⟨p.tree, q.store⟩, plot_eq_ok.mpr ⟨?_, rfl⟩, ?_⟩
      · rw [Array.getElem?_setIfInBounds_ne hn]
        exact ht
      · rw [Function.update_of_ne (Ne.symm hn)]
        refine .nothing ?_ ?_ rfl ?_
        · rw [accepts, hc, hout]
          simp only [hn, false_and, if_false]
        · intro _ new' len' h
          rw [hc] at h
          exact hn (Prod.mk.inj (Option.some.inj h)).1
        · intro i _
          rw [hs]
          exact hins.keyAt i

/-- A tree that is there after a call was there before, and this is what the call did to it. -/
theorem Happens.exists_notices {p' : Plot} (h : f.Happens shapes c out f' shapes')
    (hout : (f.call c).1 = out) (hp' : f'.plot t = .ok p') :
    ∃ p, f.plot t = .ok p ∧ f.Notices t p (shapes t) c out p' (shapes' t) := by
  obtain ⟨p, hp⟩ := h.exists_plot hp'
  obtain ⟨p'', hp'', hnotices⟩ := h.notices hout hp
  obtain rfl : p'' = p' := Except.ok.inj (hp''.symm.trans hp')
  exact ⟨p, hp, hnotices⟩

/-- A call that hangs a record in a tree is an insertion of a record that was in none. -/
theorem Happens.of_accepts (h : f.Happens shapes c out f' shapes') (hout : (f.call c).1 = out)
    {e : Slot × Nat} (he : e ∈ (f.accepts t c).toList) :
    ∃ n new len, c.insertion? f.store = some (n, new, len) ∧ n = t ∧
      f.store.isResident new = .ok false ∧ len ≤ maxKeyLength ∧ e = (new, len) := by
  rw [Option.mem_toList, accepts, hout] at he
  cases h with
  | refused h => cases hc : c.insertion? f.store <;> simp [hc] at he
  | added hadd => cases he
  | @inserted _ n new len r tree o q hc ht hfree hlen hins =>
    rw [hc] at he
    simp only at he
    split at he
    · next hr => exact ⟨n, new, len, hc, hr.1, hfree, hlen, (Option.some.inj he).symm⟩
    · cases he

end Forest

/-- A call that inserts by a string takes the string and its terminator. -/
theorem Call.len_of_insertion {c : Call} {s : Store} {t new len : Nat}
    (hstring : ∀ new len, c ≠ .insert t new len) (hc : c.insertion? s = some (t, new, len)) :
    len = (s.keyAt new).stringLength + 1 := by
  cases c with
  | add key => cases hc
  | insert n new' len' => cases hc; exact absurd rfl (hstring _ _)
  | insertString n new' => cases hc; rfl

/-- The entries of a tree, from left to right. -/
def Plot.entries (p : Plot) : List Slot := (p.shape?.map Shape.leaves).getD []

theorem Plot.Bears.entries_eq {p : Plot} {o : Option Shape} (h : p.Bears o) :
    p.entries = (o.map Shape.leaves).getD [] := by
  rw [entries, h.shape?_eq]

theorem Plot.Holds.entries_eq {p : Plot} {t : Shape} (h : p.Holds t)
    (hnodup : t.branches.Nodup) : p.entries = t.leaves := by
  rw [entries, h.shape?_eq hnodup]
  rfl

/-- The entries of a tree depend on its shape only. -/
theorem Plot.entries_congr {p p' : Plot} (hshape : p'.shape? = p.shape?) :
    p'.entries = p.entries := by rw [entries, entries, hshape]

theorem Plot.groups_congr {p p' : Plot} (hshape : p'.shape? = p.shape?) :
    p'.groups = p.groups := by rw [groups, groups, clumps, clumps, hshape]

/-- An entry of a tree is a leaf of its shape. -/
theorem Plot.Bears.mem_entries {p : Plot} {o : Option Shape} (h : p.Bears o) {i : Slot}
    (hi : i ∈ p.entries) : ∃ t, o = some t ∧ i ∈ t.leaves := by
  rw [h.entries_eq] at hi
  cases o with
  | none => exact absurd hi List.not_mem_nil
  | some t => exact ⟨t, rfl, hi⟩

/-- The entries of a tree are in its store. -/
theorem Plot.Bears.lt_size {p : Plot} {o : Option Shape} (h : p.Bears o) {i : Slot}
    (hi : i ∈ p.entries) : i < p.store.size := by
  obtain ⟨t, rfl, hit⟩ := h.mem_entries hi
  exact h.1.2.lt_size.1 i hit

theorem Plot.Bears.nodup_entries {p : Plot} {o : Option Shape} (h : p.Bears o) :
    p.entries.Nodup := by
  rw [h.entries_eq]
  cases o with
  | none => exact List.nodup_nil
  | some t => exact h.2.distinct.leaves

/-- And they are resident. -/
theorem Plot.Bears.isResident {p : Plot} {o : Option Shape} (h : p.Bears o) {i : Slot}
    (hi : i ∈ p.entries) : p.store.isResident i = .ok true := by
  obtain ⟨t, rfl, hit⟩ := h.mem_entries hi
  exact Store.isResident_eq_ok.mpr ⟨h.1.2.lt_size.1 i hit, h.1.2.up_leaf hit⟩

theorem Plot.Bears.not_mem_of_free {p : Plot} {o : Option Shape} (h : p.Bears o) {new : Slot}
    (hfree : p.store.isResident new = .ok false) : new ∉ p.entries := by
  intro hnew
  obtain ⟨t, rfl, hmem⟩ := h.mem_entries hnew
  exact h.1.2.not_mem_of_free hfree hmem

/-- An insertion makes the new record an entry, if it gives it. -/
theorem Inserts.entries_perm {p q : Plot} {o o' : Option Shape} {new len r : Nat}
    (h : Inserts p new len o r o' q) (hp : p.Bears o)
    (hfree : p.store.isResident new = .ok false) :
    q.entries.Perm (p.entries ++ if r = new then [new] else []) := by
  have hnot := hp.not_mem_of_free hfree
  rw [(h.bears hp hfree).entries_eq]
  rw [hp.entries_eq] at hnot ⊢
  rcases h.leaves with ⟨rfl, t', rfl, hperm⟩ | ⟨rfl, rfl, t, rfl, hr⟩
  · rw [if_pos rfl]
    exact hperm.trans (List.perm_append_singleton _ _).symm
  · have hne : r ≠ new := fun heq => hnot (heq ▸ hr)
    rw [if_neg hne, List.append_nil]

/-- The entries of a tree are the members of its groups. -/
theorem Plot.flatMap_members_groups (p : Plot) : p.groups.flatMap Group.members = p.entries := by
  rw [groups, clumps, entries]
  cases p.shape? with
  | none => rfl
  | some t =>
    simp only [Option.map_some, Option.getD_some, List.flatMap_map, Shape.members_group]
    exact t.flatMap_leaves_clumps

theorem Plot.mem_entries_of_mem_members {p : Plot} {g : Group} (hg : g ∈ p.groups) {m : Slot}
    (hm : m ∈ g.members) : m ∈ p.entries := by
  rw [← p.flatMap_members_groups]
  exact List.mem_flatMap.mpr ⟨g, hg, hm⟩

theorem Plot.oldest_mem_entries {p : Plot} {g : Group} (hg : g ∈ p.groups) :
    g.oldest ∈ p.entries := mem_entries_of_mem_members hg List.mem_cons_self

namespace Forest

/-- A record is in some tree when it is an entry of one. -/
theorem Stands.isSome_up_iff {f : Forest} {shapes : Nat → Option Shape} (h : f.Stands shapes)
    {i : Slot} :
    (f.store.up (.leaf i)).isSome = true ↔ ∃ t p, f.plot t = .ok p ∧ i ∈ p.entries := by
  constructor
  · intro hi
    obtain ⟨n, t, hn, hit⟩ := h.resident i hi
    obtain ⟨tree, ht⟩ := h.exists_tree hn
    refine ⟨n, ⟨tree, f.store⟩, plot_eq_ok.mpr ⟨ht, rfl⟩, ?_⟩
    rw [(h.bears n tree ht).entries_eq, hn]
    exact hit
  · rintro ⟨t, p, hp, hi⟩
    have hbears := h.bears_plot hp
    obtain ⟨u, hshape, hiu⟩ := hbears.mem_entries hi
    rw [hshape] at hbears
    rw [← (plot_eq_ok.mp hp).2]
    exact hbears.1.2.up_leaf hiu

/-- What every insertion into a tree keeps holds of the tree after every run from a forest that
stands. -/
theorem Stands.calls_tree {Q : Plot → List (Slot × Nat) → Prop} {f : Forest}
    {shapes : Nat → Option Shape} {t : Nat} {p : Plot} {cs : List Call} {h : List (Slot × Nat)}
    (hcongr : ∀ p p' h, p'.tree.unique = p.tree.unique → p'.shape? = p.shape? →
      (∀ i ∈ p.entries, p'.store.keyAt i = p.store.keyAt i) → Q p h → Q p' h)
    (hinsert : ∀ p new len o r o' q h,
      (∃ c ∈ cs, c.insertion? p.store = some (t, new, len)) → p.Bears o →
        p.store.isResident new = .ok false → Inserts p new len o r o' q → Q p h →
          Q q (h ++ if r = new then [(new, len)] else []))
    (hf : f.Stands shapes) (hQ : ∀ p, f.plot t = .ok p → Q p h)
    (hp : (f.calls cs).plot t = .ok p) : Q p (h ++ f.history t cs) := by
  -- the property of the tree is a property of the forest that says nothing of other trees
  refine calls_induction (P := fun f h => ∀ p, f.plot t = .ok p → Q p h) ?_ hf hQ p hp
  intro f shapes c h hc hf hQ p' hp'
  obtain ⟨shapes', hhappens⟩ := hf.happens c
  obtain ⟨p, hplot, hnotices⟩ := hhappens.exists_notices rfl hp'
  have hbears := hf.bears_plot hplot
  have hbears' := (hhappens.stands hf).bears_plot hp'
  have hQp := hQ p hplot
  generalize shapes t = o at hbears hnotices
  generalize shapes' t = o' at hbears' hnotices
  generalize (f.call c).1 = out at hnotices
  cases hnotices with
  | nothing haccepts hother hunique hkey =>
    rw [haccepts, Option.toList_none, List.append_nil]
    refine hcongr p p' h hunique ?_ (fun i hi => hkey i (hbears.lt_size hi)) hQp
    rw [hbears'.shape?_eq, hbears.shape?_eq]
  | @insertion new len r _ _ hinsertion haccepts hfree hins =>
    rw [haccepts]
    rw [← (plot_eq_ok.mp hplot).2] at hinsertion
    have hq := hinsert p new len o r o' p' h ⟨c, hc, hinsertion⟩ hbears hfree hins hQp
    split at hq
    · next hr => rw [if_pos hr]; exact hq
    · next hr => rw [if_neg hr]; exact hq

/-- **What every insertion into a tree keeps holds of the tree after every run**, if it depends on
nothing but the shape of the tree and the keys of its entries. -/
theorem calls_tree_induction {Q : Plot → List (Slot × Nat) → Prop} {t : Nat} {p : Plot}
    {cs : List Call} (hfresh : ∀ p, p.Bears none → Q p [])
    (hcongr : ∀ p p' h, p'.tree.unique = p.tree.unique → p'.shape? = p.shape? →
      (∀ i ∈ p.entries, p'.store.keyAt i = p.store.keyAt i) → Q p h → Q p' h)
    (hinsert : ∀ p new len o r o' q h,
      (∃ c ∈ cs, c.insertion? p.store = some (t, new, len)) → p.Bears o →
        p.store.isResident new = .ok false → Inserts p new len o r o' q → Q p h →
          Q q (h ++ if r = new then [(new, len)] else []))
    (uniques : List Bool) (hp : ((fresh uniques).calls cs).plot t = .ok p) :
    Q p ((fresh uniques).history t cs) :=
  (stands_fresh uniques).calls_tree hcongr hinsert
    (fun p hp => hfresh p ((stands_fresh uniques).bears_plot hp)) hp

/-- The entries of a tree are the records that the run hung in it, and **what every insertion keeps
that may count on that** holds after every run. -/
theorem calls_entries_induction {Q : Plot → List (Slot × Nat) → Prop} {t : Nat} {p : Plot}
    {cs : List Call} (hfresh : ∀ p, p.Bears none → Q p [])
    (hcongr : ∀ p p' h, p'.shape? = p.shape? →
      (∀ i ∈ p.entries, p'.store.keyAt i = p.store.keyAt i) → Q p h → Q p' h)
    (hinsert : ∀ p new len o r o' q h, p.Bears o → p.store.isResident new = .ok false →
      p.entries.Perm (h.map (·.1)) → Inserts p new len o r o' q → Q p h →
        Q q (h ++ if r = new then [(new, len)] else []))
    (uniques : List Bool) (hp : ((fresh uniques).calls cs).plot t = .ok p) :
    p.entries.Perm (((fresh uniques).history t cs).map (·.1)) ∧
      Q p ((fresh uniques).history t cs) := by
  refine calls_tree_induction (Q := fun p h => p.entries.Perm (h.map (·.1)) ∧ Q p h)
    ?_ ?_ ?_ uniques hp
  · intro p hp
    rw [hp.entries_eq]
    exact ⟨List.Perm.refl _, hfresh p hp⟩
  · intro p p' h _ hshape hkey hQ
    rw [Plot.entries_congr hshape]
    exact ⟨hQ.1, hcongr p p' h hshape hkey hQ.2⟩
  · intro p new len o r o' q h _ hp hfree hins hQ
    refine ⟨?_, hinsert p new len o r o' q h hp hfree hQ.1 hins hQ.2⟩
    rw [List.map_append]
    refine (hins.entries_perm hp hfree).trans (hQ.1.append ?_)
    split <;> exact List.Perm.refl _

/-- The entries of a tree are the records that the run hung in it. -/
theorem entries_calls (uniques : List Bool) (cs : List Call) {t : Nat} {p : Plot}
    (hp : ((fresh uniques).calls cs).plot t = .ok p) :
    p.entries.Perm (((fresh uniques).history t cs).map (·.1)) :=
  (calls_entries_induction (Q := fun _ _ => True) (fun _ _ => trivial) (fun _ _ _ _ _ _ => trivial)
    (fun _ _ _ _ _ _ _ _ _ _ _ _ _ => trivial) uniques hp).1

/-- No record hangs over more bytes than a key can have. -/
theorem history_le (uniques : List Bool) (cs : List Call) {t : Nat} :
    ∀ e ∈ (fresh uniques).history t cs, e.2 ≤ maxKeyLength := by
  suffices hkept : ∀ e ∈ [] ++ (fresh uniques).history t cs, e.2 ≤ maxKeyLength from hkept
  refine calls_induction (P := fun _ h => ∀ e ∈ h, e.2 ≤ maxKeyLength) ?_ (stands_fresh uniques) ?_
  · intro f shapes c h _ hf hP e he
    obtain ⟨shapes', hhappens⟩ := hf.happens c
    rcases List.mem_append.mp he with he | he
    · exact hP e he
    · obtain ⟨n, new, len, -, -, -, hlen, rfl⟩ := hhappens.of_accepts rfl he
      exact hlen
  · exact fun e he => absurd he List.not_mem_nil

/-- Where a tree is only inserted into by strings, all its records hang over their strings and
terminators. -/
theorem history_of_strings (uniques : List Bool) (cs : List Call) {t : Nat}
    (hstrings : ∀ new len, Call.insert t new len ∉ cs) :
    ∀ e ∈ (fresh uniques).history t cs,
      e.2 = (((fresh uniques).calls cs).store.keyAt e.1).stringLength + 1 := by
  suffices hkept : ∀ e ∈ [] ++ (fresh uniques).history t cs,
      e.1 < ((fresh uniques).calls cs).store.size ∧
        e.2 = (((fresh uniques).calls cs).store.keyAt e.1).stringLength + 1 from
    fun e he => (hkept e he).2
  refine calls_induction (P := fun f h => ∀ e ∈ h,
    e.1 < f.store.size ∧ e.2 = (f.store.keyAt e.1).stringLength + 1) ?_ (stands_fresh uniques) ?_
  · intro f shapes c h hc hf hP e he
    obtain ⟨shapes', hhappens⟩ := hf.happens c
    obtain ⟨hsize, hkey⟩ := hhappens.keyAt
    suffices h : e.1 < f.store.size ∧ e.2 = (f.store.keyAt e.1).stringLength + 1 by
      rw [hkey _ h.1]
      exact ⟨Nat.lt_of_lt_of_le h.1 hsize, h.2⟩
    rcases List.mem_append.mp he with he | he
    · exact hP e he
    · obtain ⟨n, new, len, hinsertion, rfl, hfree, -, rfl⟩ := hhappens.of_accepts rfl he
      exact ⟨(Store.isResident_eq_ok.mp hfree).1,
        Call.len_of_insertion (fun new len heq => hstrings new len (heq ▸ hc)) hinsertion⟩
  · exact fun e he => absurd he List.not_mem_nil

/-- Every later member of a group was inserted over bytes in which it agrees with the oldest. -/
theorem alike_of_mem_later (uniques : List Bool) (cs : List Call) {t : Nat} {p : Plot}
    (hp : ((fresh uniques).calls cs).plot t = .ok p) :
    ∀ g ∈ p.groups, ∀ m ∈ g.later, ∃ len, (m, len) ∈ (fresh uniques).history t cs ∧
      (p.store.keyAt g.oldest).Alike (p.store.keyAt m) len := by
  refine calls_tree_induction (Q := fun p h => ∀ g ∈ p.groups, ∀ m ∈ g.later, ∃ len,
    (m, len) ∈ h ∧ (p.store.keyAt g.oldest).Alike (p.store.keyAt m) len) ?_ ?_ ?_ uniques hp
  · intro p hp
    rw [hp.groups_eq]
    exact fun g hg => absurd hg List.not_mem_nil
  · intro p p' h _ hshape hkey hQ g hg m hm
    rw [Plot.groups_congr hshape] at hg
    rw [hkey _ (Plot.oldest_mem_entries hg),
      hkey _ (Plot.mem_entries_of_mem_members hg (List.mem_cons_of_mem _ hm))]
    exact hQ g hg m hm
  · intro p new len o r o' q h _ hp hfree hins hQ
    -- groups that were there keep their members, and their witnesses are kept in the history
    have hkept : ∀ g ∈ p.groups, ∀ m ∈ g.later, ∃ len',
        (m, len') ∈ h ++ (if r = new then [(new, len)] else []) ∧
          (q.store.keyAt g.oldest).Alike (q.store.keyAt m) len' := by
      intro g hg m hm
      obtain ⟨len', hmem, halike⟩ := hQ g hg m hm
      rw [hins.keyAt, hins.keyAt]
      exact ⟨len', List.mem_append_left _ hmem, halike⟩
    intro g' hg' m hm
    rcases (hins.entered hp (hins.bears hp hfree)).cases_of_mem hg' with
      hg' | ⟨rfl, rfl | ⟨g, hg, hagrees, rfl⟩⟩
    · exact hkept g' hg' m hm
    · exact absurd hm List.not_mem_nil
    · rcases List.mem_append.mp hm with hm | hm
      · exact hkept g hg m hm
      · rw [List.mem_singleton.mp hm, hins.keyAt, hins.keyAt, if_pos rfl]
        exact ⟨len, List.mem_append_right _ (List.mem_singleton.mpr rfl), hagrees⟩

/-! ### Groups -/

/-- **Insertion, group by group.**  After any run the groups of every tree ascend by the keys of
their oldest entries, and inserting any record that is in no tree turns it down, joins it to the
leftmost group that agrees, or makes it a group of its own in its place in the order. -/
theorem calls_insert_entered (uniques : List Bool) (cs : List Call) (t : Nat) (p : Plot)
    (hp : ((fresh uniques).calls cs).plot t = .ok p) :
    (p.groups.Pairwise fun g g' =>
      (p.store.keyAt g.oldest).Precedes (p.store.keyAt g'.oldest)) ∧
    ∀ new len, p.store.isResident new = .ok false → len ≤ maxKeyLength → ∃ r f' p',
      ((fresh uniques).calls cs).call (.insert t new len) = (.ok r, f') ∧ f'.plot t = .ok p' ∧
        Entered p.store.keyAt p.tree.unique new len p.groups r p'.groups := by
  obtain ⟨shapes, hf⟩ := stands_calls uniques cs
  have hbears := hf.bears_plot hp
  obtain ⟨ht, hs⟩ := plot_eq_ok.mp hp
  refine ⟨hbears.ascending, ?_⟩
  intro new len hfree hlen
  obtain ⟨r, q, o, hinsert, hinserts⟩ := Edit.insert_inserts hlen hbears hfree
  have hcall := edit_of_ok (f := (fresh uniques).calls cs) (p := q) ht (by
    rw [← hs]
    exact hinsert)
  refine ⟨r, _, q, hcall, plot_eq_ok.mpr ⟨?_, rfl⟩, ?_⟩
  · exact Array.getElem?_setIfInBounds_self_of_lt (Array.getElem?_eq_some_iff.mp ht).1
  · exact hinserts.entered hbears (hinserts.bears hbears hfree)

/-- In a tree with the entries `b` and `ab`, a record `abc` over two bytes joins the second. -/
theorem calls_insert_entered_abc :
    ∃ p, ((fresh [false]).calls [.add #[98], .add #[97, 98], .insert 0 0 1, .insert 0 1 2,
      .add #[97, 98, 99]]).plot 0 = .ok p ∧ p.groups = [⟨1, []⟩, ⟨0, []⟩] ∧
        ∃ r f' p', ((fresh [false]).calls [.add #[98], .add #[97, 98], .insert 0 0 1,
          .insert 0 1 2, .add #[97, 98, 99]]).call (.insert 0 2 2) = (.ok r, f') ∧
            f'.plot 0 = .ok p' ∧ Entered p.store.keyAt p.tree.unique 2 2 p.groups r p'.groups := by
  refine ⟨_, rfl, by decide +kernel, ?_⟩
  exact (calls_insert_entered [false] _ 0 _ rfl).2 2 2 (by decide +kernel) (by decide)

end Forest

end BitTrie
