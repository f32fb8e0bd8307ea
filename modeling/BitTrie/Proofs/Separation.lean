import BitTrie.Proofs.Auditing
import BitTrie.Proofs.Mirrored
import BitTrie.Proofs.PureInsertion
import BitTrie.Proofs.StringMap

/-!
# Trees that share a store

All trees of a forest use the slots of one store, and every root is the same link back.  Still
none of them notices the others: a record is an entry of at most one tree, no slot is a branch of
two, and an insertion writes to slots of its own tree only.  So a tree gives the answers, and
reads like the tree, of the run in which the insertions into the others are left out.

## Main definitions

* `Forest.Separate` — a forest whose trees have no slot in common.
* `Call.concerns`, `Forest.answers` — the calls that concern a tree, and what they give.
* `Forest.Orderly` — a run that inserts into a tree only records that are in none.
* `Plot.LooksLike` — two trees that answer alike whatever they are asked.
* `Forest.Follows` — a run beside the run of one of its trees alone.

## Main results

* `Forest.Stands.separate` — trees of a forest have no slot in common.
* `Plot.Bears.looksLike` — trees of one shape over the same keys answer alike.
* `Forest.Follows.skip`, `Forest.Follows.call` — a call of the whole run, and of both runs.
* `Forest.calls_separate` — **trees over one store never disturb each other**.
-/

namespace BitTrie

/-! ### Slots of one tree -/

/-- A forest whose trees have no slot in common, and in which insertions do not leave their
tree. -/
structure Forest.Separate (f : Forest) : Prop where
  /-- A record is in a tree when it is an entry of one, and then it is an entry of no other. -/
  resident : ∀ i, i < f.store.size →
    (f.store.isResident i = .ok true ∧ ∃! t, ∃ p, f.plot t = .ok p ∧ i ∈ p.entries) ∨
      (f.store.isResident i = .ok false ∧ ∀ t p, f.plot t = .ok p → i ∉ p.entries)
  /-- No record is an entry of a tree twice. -/
  nodup : ∀ t p, f.plot t = .ok p → p.entries.Nodup
  /-- No slot is a branch of two trees. -/
  branches : ∀ m n p q, m ≠ n → f.plot m = .ok p → f.plot n = .ok q →
    p.branches.Disjoint q.branches
  /-- An insertion into one tree changes no slot and no root of another. -/
  untouched : ∀ c m n new len p, c.insertion? f.store = some (n, new, len) → m ≠ n →
    f.plot m = .ok p → ∃ p', (f.call c).2.plot m = .ok p' ∧ p'.tree = p.tree ∧
      ∀ i, i ∈ p.entries ∨ i ∈ p.branches → p'.store.nodeAt i = p.store.nodeAt i

/-- Every branch of a tree is one of its entries. -/
theorem Plot.Bears.branches_subset {p : Plot} {o : Option Shape} (h : p.Bears o) :
    p.branches ⊆ p.entries := by
  rw [h.branches_eq, h.entries_eq]
  cases o with
  | none => exact List.nil_subset _
  | some t => exact h.2.own

namespace Forest

variable {f f' : Forest} {shapes shapes' : Nat → Option Shape} {c : Call} {out : Outcome Slot}
  {m n new len : Nat} {p q : Plot}

/-- A record is an entry of one tree at most. -/
theorem Stands.tree_unique (h : f.Stands shapes) (hp : f.plot m = .ok p) (hq : f.plot n = .ok q)
    {i : Slot} (hip : i ∈ p.entries) (hiq : i ∈ q.entries) : m = n := by
  obtain ⟨t, ht, hit⟩ := (h.bears_plot hp).mem_entries hip
  obtain ⟨u, hu, hiu⟩ := (h.bears_plot hq).mem_entries hiq
  by_contra hne
  exact h.apart m n t u hne ht hu hit hiu

/-- An insertion into one tree changes no slot and no root of another. -/
theorem Happens.untouched (h : f.Happens shapes c out f' shapes') (hf : f.Stands shapes)
    (hc : c.insertion? f.store = some (n, new, len)) (hmn : m ≠ n) (hp : f.plot m = .ok p) :
    ∃ p', f'.plot m = .ok p' ∧ p'.tree = p.tree ∧
      ∀ i, i ∈ p.entries ∨ i ∈ p.branches → p'.store.nodeAt i = p.store.nodeAt i := by
  cases h with
  | refused h => exact ⟨p, hp, rfl, fun _ _ => rfl⟩
  | added hadd => cases hc
  | @inserted _ n' new' len' r tree o q hc' ht hfree hlen hins =>
    obtain ⟨rfl, -⟩ := Prod.mk.inj (Option.some.inj (hc.symm.trans hc'))
    obtain ⟨htree, hs⟩ := plot_eq_ok.mp hp
    have hbears := hf.bears_plot hp
    refine ⟨⟨p.tree, q.store⟩, plot_eq_ok.mpr ⟨?_, rfl⟩, rfl, ?_⟩
    · rw [Array.getElem?_setIfInBounds_ne (Ne.symm hmn)]
      exact htree
    · intro i hi
      have hi' : i ∈ p.entries := hi.elim id fun hi => hbears.branches_subset hi
      obtain ⟨u, hu, hiu⟩ := hbears.mem_entries hi'
      obtain ⟨hne, hnot⟩ := hf.not_mem_of_ne hfree hmn hu hiu
      rw [hs]
      exact hins.nodeAt_eq (hf.bears n tree ht) hne hnot

/-- **Trees of a forest have no slot in common.** -/
theorem Stands.separate (h : f.Stands shapes) : f.Separate := by
  refine ⟨?_, fun t p hp => (h.bears_plot hp).nodup_entries, ?_, ?_⟩
  · intro i hi
    cases hup : (f.store.up (.leaf i)).isSome with
    | true =>
      obtain ⟨t, p, hp, hip⟩ := h.isSome_up_iff.mp hup
      refine Or.inl ⟨Store.isResident_eq_ok.mpr ⟨hi, hup⟩, t, ⟨p, hp, hip⟩, ?_⟩
      rintro n ⟨q, hq, hiq⟩
      exact h.tree_unique hq hp hiq hip
    | false =>
      refine Or.inr ⟨Store.isResident_eq_ok.mpr ⟨hi, hup⟩, fun t p hp hip => ?_⟩
      rw [h.isSome_up_iff.mpr ⟨t, p, hp, hip⟩] at hup
      cases hup
  · intro m n p q hmn hp hq i hip hiq
    exact hmn (h.tree_unique hp hq ((h.bears_plot hp).branches_subset hip)
      ((h.bears_plot hq).branches_subset hiq))
  · intro c m n new len p hc hmn hp
    obtain ⟨shapes', hhappens⟩ := h.happens c
    exact hhappens.untouched h hc hmn hp

end Forest

/-! ### Trees of one shape -/

/-- Two trees that answer alike whatever they are asked. -/
structure Plot.LooksLike (p q : Plot) : Prop where
  finds : ∀ query len, q.find query len = p.find query len
  findsString : ∀ query, q.findString query = p.findString query
  findsStringOf : ∀ query len, q.findStringOf query len = p.findStringOf query len
  first : q.first = p.first
  audit : q.audit = p.audit
  entries : q.entries = p.entries
  next : ∀ i ∈ p.entries, q.store.nextEqual i = p.store.nextEqual i
  prev : ∀ i ∈ p.entries, q.store.prevEqual i = p.store.prevEqual i

section

variable {p q : Plot} {o : Option Shape}

/-- A step from an entry depends on nothing but the shape of its tree. -/
theorem Plot.Bears.step_congr (hp : p.Bears o) (hq : q.Bears o) (origin : Side) {i : Slot}
    (hi : i ∈ p.entries) : q.store.step origin i = p.store.step origin i := by
  obtain ⟨t, rfl, hit⟩ := hp.mem_entries hi
  obtain ⟨hholds, hsound⟩ := hp
  rw [← t.flatMap_leaves_clumps] at hit
  obtain ⟨c, hc, hic⟩ := List.mem_flatMap.mp hit
  obtain ⟨before, after, hleaves⟩ := List.append_of_mem ((Side.mem_order origin).mpr hic)
  have hlevels := hsound.sorted.stratified
  rw [hq.1.step_eq hsound.distinct hlevels hc origin hleaves,
    hholds.step_eq hsound.distinct hlevels hc origin hleaves]

/-- **Trees of one shape over the same keys answer alike.** -/
theorem Plot.Bears.looksLike (hp : p.Bears o) (hq : q.Bears o)
    (hsize : q.store.size = p.store.size) (hkey : ∀ i, q.store.keyAt i = p.store.keyAt i) :
    p.LooksLike q := by
  have hshape : q.shape? = p.shape? := hq.shape?_eq.trans hp.shape?_eq.symm
  have hclumps : q.clumps = p.clumps := by rw [clumps, clumps, hshape]
  have hgroups : q.groups = p.groups := groups_congr hshape
  have hentries : q.entries = p.entries := entries_congr hshape
  have hkeys : q.store.keyAt = p.store.keyAt := funext hkey
  have hfind : ∀ query len, q.find query len = p.find query len := fun query len => by
    rw [hq.find_eq, hp.find_eq, hgroups, hkeys]
  have hread : q.store.key = p.store.key := by
    funext i
    rcases Nat.lt_or_ge i p.store.size with hi | hi
    · rw [Store.key_eq_ok hi, Store.key_eq_ok (hsize ▸ hi), hkey]
    · rw [Store.key_eq_error hi, Store.key_eq_error (hsize ▸ hi), hsize]
  refine ⟨hfind, fun query => hfind _ _, ?_, ?_, ?_, hentries, ?_, ?_⟩
  · intro query len
    rw [findStringOf, findStringOf, hfind, hread]
  · rw [hq.first_eq, hp.first_eq, hgroups]
  · rw [hq.audit_eq, hp.audit_eq, hclumps, hentries, hkeys]
  · exact fun i hi => hp.step_congr hq .left hi
  · exact fun i hi => hp.step_congr hq .right hi

end

/-! ### The run of one tree alone -/

/-- Whether a call concerns one of the trees: it adds a record, or inserts one into the tree. -/
def Call.concerns (t : Nat) : Call → Bool
  | add _ => true
  | insert n _ _ => decide (n = t)
  | insertString n _ => decide (n = t)

theorem Call.concerns_of_insertion {c : Call} {s : Store} {t n new len : Nat}
    (hc : c.insertion? s = some (n, new, len)) : c.concerns t = decide (n = t) := by
  cases c with
  | add key => cases hc
  | insert n' new' len' => cases hc; rfl
  | insertString n' new' => cases hc; rfl

namespace Forest

/-- What the calls of a run that concern a tree give. -/
def answers (f : Forest) (t : Nat) : List Call → List (Outcome Slot)
  | [] => []
  | c :: cs => (if c.concerns t then [(f.call c).1] else []) ++ (f.call c).2.answers t cs

/-- A run that inserts into a tree only records that are in no tree at that time. -/
def Orderly (f : Forest) (t : Nat) : List Call → Prop
  | [] => True
  | c :: cs =>
    (∀ e ∈ c.insertion? f.store, e.1 = t → f.store.isResident e.2.1 ≠ .ok true) ∧
      (f.call c).2.Orderly t cs

instance decidableOrderly (f : Forest) (t : Nat) (cs : List Call) : Decidable (f.Orderly t cs) :=
  match cs with
  | [] => isTrue trivial
  | c :: cs => @instDecidableAnd _ _ inferInstance (decidableOrderly (f.call c).2 t cs)

/-- The forest `g` is what `f` would be, had no tree but `t` ever been inserted into. -/
structure Follows (t : Nat) (f : Forest) (shapes : Nat → Option Shape) (g : Forest)
    (shapes' : Nat → Option Shape) : Prop where
  whole : f.Stands shapes
  alone : g.Stands shapes'
  size : g.store.size = f.store.size
  keyAt : ∀ i, g.store.keyAt i = f.store.keyAt i
  trees : g.trees.size = f.trees.size
  unique : ∀ a b, f.trees[t]? = some a → g.trees[t]? = some b → b.unique = a.unique
  shape : shapes' t = shapes t
  others : ∀ n, n ≠ t → shapes' n = none

namespace Follows

variable {t : Nat} {f f' g g' : Forest} {fs fs' gs gs' : Nat → Option Shape} {c : Call}
  {out out' : Outcome Slot}

/-- A call that does not concern the tree is one of the whole run only. -/
theorem skip (h : Follows t f fs g gs) (hc : c.concerns t = false)
    (hhappens : f.Happens fs c out f' fs') : Follows t f' fs' g gs := by
  have hstands := hhappens.stands h.whole
  cases hhappens with
  | refused href => exact h
  | added hadd => cases hc
  | @inserted _ n new len r tree o q hinsertion ht hfree hlen hins =>
    rw [Call.concerns_of_insertion hinsertion, decide_eq_false_iff_not] at hc
    refine ⟨hstands, h.alone, h.size.trans hins.size.symm, fun i => ?_, ?_, ?_, ?_, h.others⟩
    · exact (h.keyAt i).trans (hins.keyAt i).symm
    · exact h.trees.trans Array.size_setIfInBounds.symm
    · rw [Array.getElem?_setIfInBounds_ne hc]
      exact h.unique
    · rw [Function.update_of_ne (Ne.symm hc)]
      exact h.shape

theorem insertion?_eq (h : Follows t f fs g gs) : c.insertion? g.store = c.insertion? f.store := by
  cases c with
  | add key => rfl
  | insert n new len => rfl
  | insertString n new => rw [Call.insertion?, Call.insertion?, h.keyAt]

/-- A record that is in no tree of the whole run is in none of the other. -/
theorem isSome_up_eq (h : Follows t f fs g gs) {i : Slot} (hi : i < f.store.size)
    (hfree : f.store.isResident i ≠ .ok true) :
    (g.store.up (.leaf i)).isSome = (f.store.up (.leaf i)).isSome := by
  have hup : (f.store.up (.leaf i)).isSome = false := by
    cases hup : (f.store.up (.leaf i)).isSome with
    | true => exact absurd (Store.isResident_eq_ok.mpr ⟨hi, hup⟩) hfree
    | false => rfl
  rw [hup]
  by_contra hne
  obtain ⟨n, u, hn, hiu⟩ := h.alone.resident i (Bool.eq_true_of_not_eq_false hne)
  -- what hangs without the other trees hangs in the one tree, and so it does with them
  have hnt : n = t := by
    by_contra hnt
    rw [h.others n hnt] at hn
    cases hn
  rw [hnt, h.shape] at hn
  obtain ⟨tree, ht⟩ := h.whole.exists_tree hn
  have hbears := h.whole.bears t tree ht
  rw [hn] at hbears
  rw [hbears.1.2.up_leaf hiu] at hup
  cases hup

/-- A call that concerns the tree is refused in both runs for the same reason. -/
theorem refusal_eq (h : Follows t f fs g gs) (hc : c.concerns t = true)
    (hfree : ∀ e ∈ c.insertion? f.store, e.1 = t → f.store.isResident e.2.1 ≠ .ok true) :
    g.refusal c = f.refusal c := by
  rw [refusal, refusal, h.insertion?_eq, h.size, h.trees]
  cases hinsertion : c.insertion? f.store with
  | none => rfl
  | some e =>
    obtain ⟨n, new, len⟩ := e
    rw [Call.concerns_of_insertion hinsertion, decide_eq_true_eq] at hc
    have hfree' := hfree _ hinsertion hc
    simp only [Store.refusal, h.size]
    rcases Nat.lt_or_ge new f.store.size with hnew | hnew
    · rw [h.isSome_up_eq hnew hfree']
    · simp only [if_pos hnew]

/-- **A call that concerns the tree** gives the same in both runs. -/
theorem call (h : Follows t f fs g gs) (hc : c.concerns t = true)
    (hfree : ∀ e ∈ c.insertion? f.store, e.1 = t → f.store.isResident e.2.1 ≠ .ok true)
    (hf : f.Happens fs c out f' fs') (hg : g.Happens gs c out' g' gs') :
    out' = out ∧ Follows t f' fs' g' gs' := by
  have hwhole := hf.stands h.whole
  have halone := hg.stands h.alone
  have href := h.refusal_eq hc hfree
  rw [hf.refusal_eq, hg.refusal_eq] at href
  cases hf with
  | refused hrefused =>
    cases hg with
    | refused hrefused' => exact ⟨congrArg Except.error (Option.some.inj href), h⟩
    | added hadd => cases href
    | inserted hc' ht hfree' hlen hins => cases href
  | @added key i s hadd =>
    cases hg with
    | refused hrefused' => cases href
    | @added _ i' s' hadd' =>
      obtain ⟨hi, -⟩ := Store.add_eq_ok hadd
      obtain ⟨hi', -⟩ := Store.add_eq_ok hadd'
      refine ⟨by rw [hi, hi', h.size], hwhole, halone, ?_, ?_, h.trees, h.unique, h.shape,
        h.others⟩
      · rw [Store.size_of_add hadd, Store.size_of_add hadd', h.size]
      · intro j
        rw [Store.keyAt_of_add hadd, Store.keyAt_of_add hadd', h.size, h.keyAt]
    | inserted hc' ht hfree' hlen hins => cases hc'
  | @inserted _ n new len r tree o q hinsertion ht hfree' hlen hins =>
    cases hg with
    | refused hrefused' => cases href
    | added hadd => cases hinsertion
    | @inserted _ n' new' len' r' tree' o' q' hinsertion' ht' hfree'' hlen' hins' =>
      rw [h.insertion?_eq] at hinsertion'
      obtain ⟨hn, he⟩ := Prod.mk.inj (Option.some.inj (hinsertion.symm.trans hinsertion'))
      obtain ⟨hnew, hlen⟩ := Prod.mk.inj he
      subst hn hnew hlen
      rw [Call.concerns_of_insertion hinsertion, decide_eq_true_eq] at hc
      subst hc
      -- both insertions are the same function of the shape, the keys and the kind of tree
      have hunique := h.unique _ _ ht ht'
      have heq := hins.eq_entered (h.whole.bears n tree ht)
      have heq' := hins'.eq_entered (h.alone.bears n tree' ht')
      simp only [funext h.keyAt, hunique, h.shape] at heq'
      obtain ⟨hr, ho⟩ := Prod.mk.inj (heq'.trans heq.symm)
      have hlt := (Array.getElem?_eq_some_iff.mp ht).1
      have hlt' := (Array.getElem?_eq_some_iff.mp ht').1
      refine ⟨congrArg Except.ok hr, hwhole, halone, ?_, ?_, ?_, ?_, ?_, ?_⟩
      · rw [hins.size, hins'.size, h.size]
      · intro i
        rw [hins.keyAt, hins'.keyAt, h.keyAt]
      · rw [Array.size_setIfInBounds, Array.size_setIfInBounds, h.trees]
      · rw [Array.getElem?_setIfInBounds_self_of_lt hlt,
          Array.getElem?_setIfInBounds_self_of_lt hlt']
        intro a b ha hb
        rw [← Option.some.inj ha, ← Option.some.inj hb, hins.unique, hins'.unique, hunique]
      · rw [Function.update_self, Function.update_self, ho]
      · intro m hm
        rw [Function.update_of_ne hm]
        exact h.others m hm

/-- **The whole run and the run of one tree alone**: the calls that concern the tree give the
same. -/
theorem calls {cs : List Call} (h : Follows t f fs g gs) (horderly : f.Orderly t cs) :
    g.outcomes (cs.filter (Call.concerns t)) = f.answers t cs ∧
      ∃ fs' gs', Follows t (f.calls cs) fs' (g.calls (cs.filter (Call.concerns t))) gs' := by
  induction cs generalizing f g fs gs with
  | nil => exact ⟨rfl, fs, gs, h⟩
  | cons c cs ih =>
    obtain ⟨hfree, hrest⟩ := horderly
    obtain ⟨fs', hf⟩ := h.whole.happens c
    rw [answers, Forest.calls]
    cases hc : c.concerns t with
    | false =>
      have hfilter : (c :: cs).filter (Call.concerns t) = cs.filter (Call.concerns t) := by
        rw [List.filter_cons, hc, if_neg Bool.false_ne_true]
      rw [hfilter, if_neg Bool.false_ne_true, List.nil_append]
      exact ih (h.skip hc hf) hrest
    | true =>
      obtain ⟨gs', hg⟩ := h.alone.happens c
      obtain ⟨hout, hfollows⟩ := h.call hc hfree hf hg
      have hfilter : (c :: cs).filter (Call.concerns t) = c :: cs.filter (Call.concerns t) := by
        rw [List.filter_cons, hc, if_pos rfl]
      obtain ⟨houts, hrun⟩ := ih hfollows hrest
      rw [hfilter, if_pos rfl, outcomes, houts, hout]
      exact ⟨rfl, hrun⟩

/-- Empty trees follow themselves. -/
theorem of_fresh (uniques : List Bool) (t : Nat) :
    Follows t (fresh uniques) (fun _ => none) (fresh uniques) fun _ => none := by
  refine ⟨stands_fresh uniques, stands_fresh uniques, rfl, fun _ => rfl, rfl, ?_, rfl,
    fun _ _ => rfl⟩
  intro a b ha hb
  rw [Option.some.inj (ha.symm.trans hb)]

/-- The tree looks like the one of its own run. -/
theorem exists_plot (h : Follows t f fs g gs) {p : Plot} (hp : f.plot t = .ok p) :
    ∃ q, g.plot t = .ok q ∧ p.LooksLike q := by
  have hlt := (Array.getElem?_eq_some_iff.mp (plot_eq_ok.mp hp).1).1
  rw [← h.trees] at hlt
  have hq := plot_of_lt hlt
  have hbears := h.alone.bears_plot hq
  rw [h.shape] at hbears
  have hstore := (plot_eq_ok.mp hp).2
  refine ⟨_, hq, (h.whole.bears_plot hp).looksLike hbears ?_ fun i => ?_⟩
  · rw [hstore]
    exact h.size
  · rw [hstore]
    exact h.keyAt i

end Follows

/-- **Trees over one store never disturb each other.**  After any run, a record is in a tree when
it is an entry of exactly one, no slot is a branch of two, and an insertion into one tree leaves
all slots of the others alone.  And where no insertion into a tree was of a record that was in
one, the tree has given the same answers, and looks the same, as in the run that adds the same
records but inserts into no other tree. -/
theorem calls_separate (uniques : List Bool) (cs : List Call) :
    ((fresh uniques).calls cs).Separate ∧
      ∀ t p, ((fresh uniques).calls cs).plot t = .ok p → (fresh uniques).Orderly t cs →
        (fresh uniques).outcomes (cs.filter (Call.concerns t)) = (fresh uniques).answers t cs ∧
          ∃ q, ((fresh uniques).calls (cs.filter (Call.concerns t))).plot t = .ok q ∧
            p.LooksLike q := by
  obtain ⟨shapes, hf⟩ := stands_calls uniques cs
  refine ⟨hf.separate, fun t p hp horderly => ?_⟩
  obtain ⟨houtcomes, fs, gs, hfollows⟩ := (Follows.of_fresh uniques t).calls horderly
  exact ⟨houtcomes, hfollows.exists_plot hp⟩

/-- A second `a` is turned down by a tree that holds every key once, and then follows a third in
another tree, which gives the same answers when nothing is inserted into the first. -/
theorem calls_separate_turned_down :
    ∃ p q, ((fresh [true, false]).calls [.add #[97], .add #[97], .add #[97], .insert 0 0 1,
        .insert 0 1 1, .insert 1 2 1, .insert 1 1 1]).plot 1 = .ok p ∧ p.entries = [2, 1] ∧
      (fresh [true, false]).answers 1 [.add #[97], .add #[97], .add #[97], .insert 0 0 1,
        .insert 0 1 1, .insert 1 2 1, .insert 1 1 1] = [.ok 0, .ok 1, .ok 2, .ok 2, .ok 1] ∧
      (fresh [true, false]).outcomes [.add #[97], .add #[97], .add #[97], .insert 1 2 1,
        .insert 1 1 1] = [.ok 0, .ok 1, .ok 2, .ok 2, .ok 1] ∧
      ((fresh [true, false]).calls [.add #[97], .add #[97], .add #[97], .insert 1 2 1,
        .insert 1 1 1]).plot 1 = .ok q ∧ q.store.nextEqual 2 = .ok (some 1) := by
  obtain ⟨-, hrun⟩ := calls_separate [true, false] [.add #[97], .add #[97], .add #[97],
    .insert 0 0 1, .insert 0 1 1, .insert 1 2 1, .insert 1 1 1]
  obtain ⟨houtcomes, q, hq, hlooks⟩ := hrun 1 _ (plot_of_lt (by decide +kernel))
    (by decide +kernel)
  refine ⟨_, q, plot_of_lt (by decide +kernel), by decide +kernel, by decide +kernel,
    houtcomes.trans (by decide +kernel), hq, ?_⟩
  exact (hlooks.next 2 (by decide +kernel)).trans (by decide +kernel)

end Forest

end BitTrie
