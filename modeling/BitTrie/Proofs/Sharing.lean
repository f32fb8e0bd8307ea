import BitTrie.Proofs.Walks

/-!
# Which records share a chain

A record joins the leftmost group that agrees with it over the bytes it is inserted over.  Groups do
not merge and do not split, and their oldest entries stay.  But a group that begins later may stand
further to the left, and it is the one that the next record with the same key joins.  So two records
with the same key share a chain unless such a group has begun between them: `a` joins the group of
`ab`, then `aa` begins a group, and the next `a` joins that one.

## Main definitions

* `Placed` — why a record is in its group.

## Main results

* `Entered.placed`, `Placed.entered` — why a new record is in its group, and that this lasts.
* `Forest.placed_calls` — why every record is in its group, after any run.
* `Forest.calls_shared` — **when two records with the same key share a chain**.
* `Forest.calls_not_shared` — two records with the same key that do not.
-/

namespace BitTrie

/-- Why the record `i`, inserted over `len` bytes after the records `earlier`, is in the group
`g`. -/
structure Placed (key : Slot → Key) (groups : List Group) (earlier : List Slot) (i : Slot)
    (len : Nat) (g : Group) : Prop where
  /-- It agrees with the oldest entry. -/
  agrees : (key g.oldest).Alike (key i) len
  /-- It began the group, or the group had begun. -/
  began : g.oldest = i ∨ g.oldest ∈ earlier
  /-- Where a group that had begun agrees, it began no group, and joined none on the right. -/
  leftmost : ∀ h ∈ groups, h.oldest ∈ earlier → (key h.oldest).Alike (key i) len →
    g.oldest ≠ i ∧ ¬ (key h.oldest).Precedes (key g.oldest)

/-! ### One insertion -/

section

variable {key key' : Slot → Key} {unique : Bool} {new r i : Slot} {len n : Nat}
  {gs gs' : List Group} {earlier : List Slot} {g : Group}

/-- An entry other than the new one was in a group with the same oldest entry. -/
theorem Entered.exists_of_mem (h : Entered key unique new len gs r gs') (hg : g ∈ gs')
    (hi : i ∈ g.members) (hne : i ≠ new) : ∃ g₀ ∈ gs, g₀.oldest = g.oldest ∧ i ∈ g₀.members := by
  rcases h.cases_of_mem hg with hg | ⟨-, rfl | ⟨g₀, hg₀, -, rfl⟩⟩
  · exact ⟨g, hg, rfl, hi⟩
  · exact absurd (List.mem_singleton.mp hi) hne
  · refine ⟨g₀, hg₀, rfl, ?_⟩
    rcases List.mem_cons.mp hi with rfl | hi
    · exact List.mem_cons_self
    · rcases List.mem_append.mp hi with hi | hi
      · exact List.mem_cons_of_mem _ hi
      · exact absurd (List.mem_singleton.mp hi) hne

/-- **Why a record is in its group** stays as it is when another is entered. -/
theorem Placed.entered (h : Entered key unique new len gs r gs') (hg : g ∈ gs')
    (hi : i ∈ g.members) (hne : i ≠ new) (hnew : new ∉ earlier)
    (hplaced : ∀ g ∈ gs, i ∈ g.members → Placed key gs earlier i n g) :
    Placed key gs' earlier i n g := by
  obtain ⟨g₀, hg₀, holdest, hi₀⟩ := h.exists_of_mem hg hi hne
  obtain ⟨hagrees, hbegan, hleftmost⟩ := hplaced g₀ hg₀ hi₀
  rw [holdest] at hagrees hbegan hleftmost
  refine ⟨hagrees, hbegan, ?_⟩
  intro h' hh' hearlier halike
  have hold : h'.oldest ≠ new := fun heq => hnew (heq ▸ hearlier)
  obtain ⟨h₀, hh₀, holdest', -⟩ := h.exists_of_mem hh' List.mem_cons_self hold
  rw [← holdest'] at hearlier halike ⊢
  exact hleftmost h₀ hh₀ hearlier halike

/-- A group with a record that no other group has. -/
theorem Group.eq_of_mem_middle {before after : List Group} {g₀ : Group}
    (hg : g ∈ before ++ g₀ :: after) (hi : i ∈ g.members) (hbefore : ∀ g ∈ before, i ∉ g.members)
    (hafter : ∀ g ∈ after, i ∉ g.members) : g = g₀ := by
  rcases List.mem_append.mp hg with hg | hg
  · exact absurd hi (hbefore g hg)
  · rcases List.mem_cons.mp hg with rfl | hg
    · rfl
    · exact absurd hi (hafter g hg)

/-- **Why a new record is in its group.** -/
theorem Entered.placed (h : Entered key unique new len gs new gs')
    (hascending : gs.Pairwise fun g g' => (key g.oldest).Precedes (key g'.oldest))
    (hnew : ∀ g ∈ gs, new ∉ g.members) (hearlier : ∀ g ∈ gs, g.oldest ∈ earlier)
    (hfresh : new ∉ earlier) (hg : g ∈ gs') (hi : new ∈ g.members) :
    Placed key gs' earlier new len g := by
  -- a group that had begun was there under its oldest entry
  have hold : ∀ h' ∈ gs', h'.oldest ∈ earlier → ∃ h₀ ∈ gs, h₀.oldest = h'.oldest := by
    intro h' hh' hmem
    have hne : h'.oldest ≠ new := fun heq => hfresh (heq ▸ hmem)
    obtain ⟨h₀, hh₀, holdest, -⟩ := h.exists_of_mem hh' List.mem_cons_self hne
    exact ⟨h₀, hh₀, holdest⟩
  cases h with
  | @turnedDown before after g₀ hunique hagrees hbefore =>
    exact absurd List.mem_cons_self (hnew g₀ (List.mem_append_right _ List.mem_cons_self))
  | @joined before after g₀ hunique hagrees hbefore =>
    obtain rfl : g = g₀.push new := Group.eq_of_mem_middle hg hi
      (fun g hg => hnew g (List.mem_append_left _ hg))
      fun g hg => hnew g (List.mem_append_right _ (List.mem_cons_of_mem _ hg))
    have hg₀ : g₀ ∈ before ++ g₀ :: after := List.mem_append_right _ List.mem_cons_self
    refine ⟨hagrees, Or.inr (hearlier g₀ hg₀), ?_⟩
    intro h' hh' hmem halike
    refine ⟨fun heq => hnew g₀ hg₀ (heq ▸ List.mem_cons_self), ?_⟩
    obtain ⟨h₀, hh₀, holdest⟩ := hold h' hh' hmem
    rw [← holdest] at halike ⊢
    show ¬ (key h₀.oldest).Precedes (key g₀.oldest)
    -- the groups on the left do not agree, and those on the right come later
    rcases List.mem_append.mp hh₀ with hh₀ | hh₀
    · exact absurd halike (hbefore h₀ hh₀)
    · rcases List.mem_cons.mp hh₀ with rfl | hh₀
      · exact fun hlt => hlt.asymm hlt
      · obtain ⟨-, hright, -⟩ := List.pairwise_append.mp hascending
        exact ((List.pairwise_cons.mp hright).1 h₀ hh₀).asymm
  | @alone before after hnone hbefore hafter =>
    obtain rfl : g = ⟨new, []⟩ := Group.eq_of_mem_middle hg hi
      (fun g hg => hnew g (List.mem_append_left _ hg))
      fun g hg => hnew g (List.mem_append_right _ hg)
    refine ⟨fun _ _ => rfl, Or.inl rfl, ?_⟩
    intro h' hh' hmem halike
    obtain ⟨h₀, hh₀, holdest⟩ := hold h' hh' hmem
    rw [← holdest] at halike
    exact absurd halike (hnone h₀ hh₀)

/-- The keys of the oldest entries and of the record are all that counts. -/
theorem Placed.congr (h : Placed key gs earlier i n g) (hg : g ∈ gs) (hi : key' i = key i)
    (hkey : ∀ g ∈ gs, key' g.oldest = key g.oldest) : Placed key' gs earlier i n g := by
  obtain ⟨hagrees, hbegan, hleftmost⟩ := h
  refine ⟨by rw [hi, hkey g hg]; exact hagrees, hbegan, ?_⟩
  intro h' hh' hmem halike
  rw [hi, hkey h' hh'] at halike
  rw [hkey g hg, hkey h' hh']
  exact hleftmost h' hh' hmem halike

end

/-! ### Runs -/

namespace Forest

variable {uniques : List Bool} {cs : List Call} {t : Nat} {p : Plot}

/-- **Why every record is in its group**, after any run: the group was the leftmost that agreed, of
those that had begun when the record was inserted. -/
theorem placed_calls (hp : ((fresh uniques).calls cs).plot t = .ok p)
    {before after : List (Slot × Nat)} {i : Slot} {len : Nat}
    (hhistory : (fresh uniques).history t cs = before ++ (i, len) :: after)
    {g : Group} (hg : g ∈ p.groups) (hi : i ∈ g.members) :
    Placed p.store.keyAt p.groups (before.map (·.1)) i len g := by
  refine (calls_entries_induction (Q := fun p h => ∀ before i len after,
    h = before ++ (i, len) :: after → ∀ g ∈ p.groups, i ∈ g.members →
      Placed p.store.keyAt p.groups (before.map (·.1)) i len g) ?_ ?_ ?_ uniques hp).2
    before i len after hhistory g hg hi
  · intro p hp
    rw [hp.groups_eq]
    exact fun _ _ _ _ _ g hg => absurd hg List.not_mem_nil
  · intro p p' h hshape hkey hQ before i len after hh g hg hi
    rw [Plot.groups_congr hshape] at hg ⊢
    exact (hQ before i len after hh g hg hi).congr hg
      (hkey i (Plot.mem_entries_of_mem_members hg hi))
      fun g hg => hkey g.oldest (Plot.oldest_mem_entries hg)
  · intro p new len o r o' q h hp hfree hperm hins hQ
    have hentered := hins.entered hp (hins.bears hp hfree)
    have hfresh : new ∉ p.entries := hp.not_mem_of_free hfree
    have hkey : q.store.keyAt = p.store.keyAt := funext hins.keyAt
    rw [hkey]
    -- a record that was there stays in its group, for the same reason
    have hkept : ∀ before i n after, h = before ++ (i, n) :: after → ∀ g ∈ q.groups,
        i ∈ g.members → Placed p.store.keyAt q.groups (before.map (·.1)) i n g := by
      intro before i n after hh g hg hi
      rw [hperm.mem_iff, hh, List.map_append, List.mem_append, List.map_cons, List.mem_cons,
        not_or, not_or] at hfresh
      exact .entered hentered hg hi (Ne.symm hfresh.2.1) hfresh.1 (hQ before i n after hh)
    intro before i n after hh g hg hi
    by_cases hr : r = new
    · subst hr
      rw [if_pos rfl] at hh
      rcases List.eq_nil_or_concat' after with rfl | ⟨after', e, rfl⟩
      · obtain ⟨rfl, heq⟩ := List.append_inj' hh rfl
        cases heq
        refine hentered.placed hp.ascending ?_ ?_ (hperm.mem_iff.not.mp hfresh) hg hi
        · exact fun g hg hmem => hfresh (Plot.mem_entries_of_mem_members hg hmem)
        · exact fun g hg => hperm.mem_iff.mp (Plot.oldest_mem_entries hg)
      · rw [← List.cons_append, ← List.append_assoc] at hh
        exact hkept before i n after' (List.append_inj' hh rfl).1 g hg hi
    · rw [if_neg hr, List.append_nil] at hh
      exact hkept before i n after hh g hg hi

end Forest

/-! ### Two records with the same key -/

section

variable {p : Plot} {o : Option Shape} {g g' : Group} {i : Slot}

/-- A record is in one group only. -/
theorem Plot.Bears.group_unique (h : p.Bears o) (hg : g ∈ p.groups) (hg' : g' ∈ p.groups)
    (hi : i ∈ g.members) (hi' : i ∈ g'.members) : g = g' := by
  have hnodup := h.nodup_entries
  rw [← p.flatMap_members_groups, List.nodup_flatMap] at hnodup
  rcases or_eq_or_of_pairwise hnodup.2 hg hg' with hdisjoint | heq | hdisjoint
  · exact absurd hi' (hdisjoint hi)
  · exact heq
  · exact absurd hi (hdisjoint hi')

/-- A key of no more than `len` bytes is the first of those that agree with it over them. -/
theorem Key.not_precedes_of_size_le {a b : Key} {len : Nat} (hsize : b.size ≤ len)
    (halike : a.Alike b len) : ¬ a.Precedes b := by
  rintro ⟨j, -, hlt⟩
  rcases Nat.lt_or_ge j len with hj | hj
  · rw [halike j hj] at hlt
    exact UInt8.lt_irrefl _ hlt
  · rw [byteAt_of_size_le (Nat.le_trans hsize hj)] at hlt
    exact UInt8.not_lt_zero hlt

end

/-- What stands before another in a list without repetitions does not come after it. -/
theorem not_pair_sublist {a b : Slot} {before after : List Slot}
    (hnodup : (before ++ a :: after).Nodup) (hb : b ∈ after) :
    ¬ [b, a].Sublist (before ++ a :: after) := by
  intro hsub
  obtain ⟨-, hnodup', hdisjoint⟩ := List.nodup_append.mp hnodup
  obtain ⟨ha, -⟩ := List.nodup_cons.mp hnodup'
  obtain ⟨front, back, heq, hfront, hback⟩ := List.sublist_append_iff.mp hsub
  cases front with
  | nil =>
    obtain rfl : [b, a] = back := heq
    rcases List.sublist_cons_iff.mp hback with hback | ⟨rest, hrest, hback⟩
    · exact ha (hback.subset (List.mem_cons_of_mem _ List.mem_cons_self))
    · cases hrest
      exact ha hb
  | cons c front =>
    obtain rfl : b = c := (List.cons.inj heq).1
    exact hdisjoint b (hfront.subset List.mem_cons_self) b (List.mem_cons_of_mem _ hb) rfl

namespace Forest

variable {uniques : List Bool} {cs : List Call} {t : Nat} {p : Plot} {a b len : Nat}
  {before between after : List (Slot × Nat)} {g : Group}

/-- **The later of two records with the same key** is in the group of the earlier, unless a group
that agrees has begun on its left between them. -/
theorem mem_members_iff (hp : ((fresh uniques).calls cs).plot t = .ok p)
    (hhistory : (fresh uniques).history t cs =
      before ++ (a, len) :: (between ++ (b, len) :: after))
    (halike : (p.store.keyAt a).Alike (p.store.keyAt b) len) (hg : g ∈ p.groups)
    (ha : a ∈ g.members) : b ∈ g.members ↔ ∀ h ∈ p.groups, h.oldest ∈ between.map (·.1) →
      (p.store.keyAt h.oldest).Alike (p.store.keyAt b) len →
        ¬ (p.store.keyAt h.oldest).Precedes (p.store.keyAt g.oldest) := by
  obtain ⟨shapes, hf⟩ := stands_calls uniques cs
  have hbears := hf.bears_plot hp
  have hhistory' : (fresh uniques).history t cs =
      (before ++ (a, len) :: between) ++ (b, len) :: after := by
    rw [hhistory, List.append_assoc, List.cons_append]
  obtain ⟨hagrees, hbegan, hleftmost⟩ := placed_calls hp hhistory hg ha
  constructor
  · intro hb h hh hmem hagrees'
    refine ((placed_calls hp hhistory' hg hb).leftmost h hh ?_ hagrees').2
    rw [List.map_append, List.map_cons]
    exact List.mem_append_right _ (List.mem_cons_of_mem _ hmem)
  · intro hnone
    obtain ⟨g', hg', hb⟩ : ∃ g' ∈ p.groups, b ∈ g'.members := by
      have hentry : b ∈ p.entries := (entries_calls uniques cs hp).mem_iff.mpr (by
        rw [hhistory', List.map_append, List.map_cons]
        exact List.mem_append_right _ List.mem_cons_self)
      rw [← p.flatMap_members_groups] at hentry
      exact List.mem_flatMap.mp hentry
    obtain ⟨hagrees', hbegan', hleftmost'⟩ := placed_calls hp hhistory' hg' hb
    rw [List.map_append, List.map_cons] at hbegan' hleftmost'
    -- the group of the earlier record had begun when the later one came
    obtain ⟨hne, hright⟩ := hleftmost' g hg (hbegan.elim
      (fun heq => List.mem_append_right _ (heq ▸ List.mem_cons_self))
      fun hmem => List.mem_append_left _ hmem) (hagrees.trans halike)
    -- and the group of the later one is none on its left
    have hleft : ¬ (p.store.keyAt g'.oldest).Precedes (p.store.keyAt g.oldest) := by
      rcases List.mem_append.mp (hbegan'.resolve_left hne) with hmem | hmem
      · exact (hleftmost g' hg' hmem (hagrees'.trans halike.symm)).2
      · rcases List.mem_cons.mp hmem with heq | hmem
        · have hsame := hbears.group_unique hg' hg (List.mem_cons.mpr (Or.inl heq.symm)) ha
          rw [hsame]
          exact fun hlt => hlt.asymm hlt
        · exact hnone g' hg' hmem hagrees'
    rcases or_eq_or_of_pairwise hbears.ascending hg hg' with hlt | rfl | hlt
    · exact absurd hlt hright
    · exact hb
    · exact absurd hlt hleft

/-- A record reaches by its chain what is in its group and was hung after it. -/
theorem mem_chain_iff (hp : ((fresh uniques).calls cs).plot t = .ok p)
    (hhistory : (fresh uniques).history t cs =
      before ++ (a, len) :: (between ++ (b, len) :: after)) (hg : g ∈ p.groups)
    (ha : a ∈ g.members) :
    (∃ chain, p.store.equalEntries a = .ok chain ∧ b ∈ chain) ↔ b ∈ g.members := by
  obtain ⟨shapes, hf⟩ := stands_calls uniques cs
  have hbears := hf.bears_plot hp
  have hnodup := (entries_calls uniques cs hp).nodup_iff.mp hbears.nodup_entries
  have hsub := members_sublist uniques cs hp g hg
  obtain ⟨front, back, hmembers⟩ := List.append_of_mem ha
  have honward := (hbears.walks hg).onward front a back hmembers
  rw [honward, hmembers]
  constructor
  · rintro ⟨chain, hchain, hb⟩
    cases hchain
    exact List.mem_append_right _ hb
  · intro hb
    refine ⟨_, rfl, (List.mem_append.mp hb).resolve_left fun hfront => ?_⟩
    -- in the group it does not stand before what was hung before it
    rw [hhistory, List.map_append, List.map_cons] at hsub hnodup
    have hpair : [b, a].Sublist g.members := by
      rw [hmembers]
      exact (List.singleton_sublist.mpr hfront).append
        (List.singleton_sublist.mpr List.mem_cons_self)
    refine not_pair_sublist hnodup ?_ (hpair.trans hsub)
    rw [List.map_append, List.map_cons]
    exact List.mem_append_right _ List.mem_cons_self

/-- **When two records with the same key share a chain.**  Of two records that are inserted over the
same number of bytes and agree on them, the earlier one reaches the later one by its chain, unless
a group that agrees with them has begun between them on the left of the group of the earlier one.
That does not happen where the oldest entry of that group has a key of no more bytes. -/
theorem calls_shared (uniques : List Bool) (cs : List Call) (t : Nat) (p : Plot)
    (hp : ((fresh uniques).calls cs).plot t = .ok p) (before between after : List (Slot × Nat))
    (a b len : Nat) (hhistory : (fresh uniques).history t cs =
      before ++ (a, len) :: (between ++ (b, len) :: after))
    (halike : (p.store.keyAt a).Alike (p.store.keyAt b) len) (g : Group) (hg : g ∈ p.groups)
    (ha : a ∈ g.members) :
    ((∃ chain, p.store.equalEntries a = .ok chain ∧ b ∈ chain) ↔
      ∀ h ∈ p.groups, h.oldest ∈ between.map (·.1) →
        (p.store.keyAt h.oldest).Alike (p.store.keyAt b) len →
          ¬ (p.store.keyAt h.oldest).Precedes (p.store.keyAt g.oldest)) ∧
    ((p.store.keyAt g.oldest).size ≤ len →
      ∃ chain, p.store.equalEntries a = .ok chain ∧ b ∈ chain) := by
  have hchain := mem_chain_iff hp hhistory hg ha
  have hmembers := mem_members_iff hp hhistory halike hg ha
  refine ⟨hchain.trans hmembers, fun hsize => hchain.mpr (hmembers.mpr ?_)⟩
  intro h hh hmem hagrees
  have hagrees' := (placed_calls hp hhistory hg ha).agrees
  exact Key.not_precedes_of_size_le hsize (hagrees.trans (hagrees'.trans halike).symm)

/-- Two records `a` that come after an entry `ab` share its chain. -/
theorem calls_shared_aba : ∃ p, ((fresh [false]).calls [.add #[97, 98], .add #[97], .add #[97],
    .insert 0 0 2, .insert 0 1 1, .insert 0 2 1]).plot 0 = .ok p ∧ p.groups = [⟨0, [1, 2]⟩] ∧
      ∃ chain, p.store.equalEntries 1 = .ok chain ∧ 2 ∈ chain := by
  have hp := plot_of_lt (t := 0) (f := (fresh [false]).calls [.add #[97, 98], .add #[97],
    .add #[97], .insert 0 0 2, .insert 0 1 1, .insert 0 2 1]) (by decide +kernel)
  refine ⟨_, hp, by decide +kernel, ?_⟩
  refine (calls_shared [false] _ 0 _ hp [(0, 2)] [] [] 1 2 1 ?_ ?_ ⟨0, [1, 2]⟩ ?_ ?_).1.mpr ?_
  · decide +kernel
  · decide +kernel
  · decide +kernel
  · decide
  · exact fun h _ hmem => absurd hmem List.not_mem_nil

/-- But an entry `aa` between them, where there is an entry `ab`, parts two records `a`. -/
theorem calls_not_shared : ∃ p, ((fresh [false]).calls [.add #[97, 98], .add #[97],
    .add #[97, 97], .add #[97], .insert 0 0 2, .insert 0 1 1, .insert 0 2 2,
    .insert 0 3 1]).plot 0 = .ok p ∧ p.groups = [⟨2, [3]⟩, ⟨0, [1]⟩] ∧
      p.store.keyAt 1 = p.store.keyAt 3 ∧ p.store.equalEntries 1 = .ok [1] ∧
        p.store.nextEqual 1 = .ok none :=
  ⟨_, plot_of_lt (by decide +kernel), by decide +kernel, by decide +kernel, by decide +kernel,
    by decide +kernel⟩

end Forest

end BitTrie
