import BitTrie.Proofs.Finding
import BitTrie.Proofs.Sharing

/-!
# What is found stays found

A lookup gives the oldest entry of the leftmost group that agrees with it.  That group may change
in the course of a run: groups begin on the left of those that are there, so a lookup over the
first bytes of some keys may give another entry than before.  But no group ends, and its oldest
entry stays the oldest.  So what was inserted is found for ever, itself or an entry that agrees
with it.  And the oldest entry of a group is found itself by all bytes of its key, since of the
keys that begin with these bytes it is the first.

## Main definitions

* `Plot.Leads` — a record is the oldest of a group.

## Main results

* `Entered.exists_oldest` — no group ends, and none has another oldest entry than before.
* `Forest.Stands.leads_calls` — an oldest entry stays one.
* `Plot.Bears.find_of_size_le` — an oldest entry is found by its key.
* `Forest.calls_retained` — **what is inserted is found in every later state**.
-/

namespace BitTrie

/-- A record with the key `k` is the oldest of a group of a tree. -/
def Plot.Leads (p : Plot) (i : Slot) (k : Key) : Prop :=
  p.store.keyAt i = k ∧ ∃ g ∈ p.groups, g.oldest = i

/-! ### Groups stay -/

section

variable {key : Slot → Key} {unique : Bool} {new r : Slot} {len : Nat} {gs gs' : List Group}

/-- **No group ends**, and none has another oldest entry than before. -/
theorem Entered.exists_oldest (h : Entered key unique new len gs r gs') {g : Group} (hg : g ∈ gs) :
    ∃ g' ∈ gs', g'.oldest = g.oldest := by
  cases h with
  | turnedDown hunique hagrees hbefore => exact ⟨g, hg, rfl⟩
  | @joined before after g₀ hunique hagrees hbefore =>
    rcases List.mem_append.mp hg with hg | hg
    · exact ⟨g, List.mem_append_left _ hg, rfl⟩
    · rcases List.mem_cons.mp hg with rfl | hg
      · exact ⟨g.push new, List.mem_append_right _ List.mem_cons_self, rfl⟩
      · exact ⟨g, List.mem_append_right _ (List.mem_cons_of_mem _ hg), rfl⟩
  | @alone before after hnone hbefore hafter =>
    rcases List.mem_append.mp hg with hg | hg
    · exact ⟨g, List.mem_append_left _ hg, rfl⟩
    · exact ⟨g, List.mem_append_right _ (List.mem_cons_of_mem _ hg), rfl⟩

/-- After an insertion there is a group that agrees, whatever has become of the record. -/
theorem Entered.exists_agrees (h : Entered key unique new len gs r gs') :
    ∃ g ∈ gs', (key g.oldest).Alike (key new) len := by
  cases h with
  | turnedDown hunique hagrees hbefore =>
    exact ⟨_, List.mem_append_right _ List.mem_cons_self, hagrees⟩
  | @joined before after g hunique hagrees hbefore =>
    exact ⟨g.push new, List.mem_append_right _ List.mem_cons_self, hagrees⟩
  | alone hnone hbefore hafter =>
    exact ⟨_, List.mem_append_right _ List.mem_cons_self, fun _ _ => rfl⟩

/-- A record that is accepted, and joins no group, begins one. -/
theorem Entered.exists_begun (h : Entered key unique new len gs new gs')
    (hnew : ∀ g ∈ gs, new ∉ g.members)
    (hjoins : unique = true ∨ ∀ g ∈ gs', new ∉ g.later) : ∃ g ∈ gs', g.oldest = new := by
  cases h with
  | turnedDown hunique hagrees hbefore =>
    exact absurd List.mem_cons_self (hnew _ (List.mem_append_right _ List.mem_cons_self))
  | @joined before after g hunique hagrees hbefore =>
    rcases hjoins with htrue | hnone
    · rw [hunique] at htrue
      cases htrue
    · exact absurd (List.mem_append_right _ (List.mem_singleton.mpr rfl))
        (hnone (g.push new) (List.mem_append_right _ List.mem_cons_self))
  | alone hnone hbefore hafter =>
    exact ⟨⟨new, []⟩, List.mem_append_right _ List.mem_cons_self, rfl⟩

end

/-- **An oldest entry stays one**, and keeps its key, in the course of a run. -/
theorem Forest.Stands.leads_calls {f : Forest} {shapes : Nat → Option Shape} (hf : f.Stands shapes)
    {t : Nat} {p q : Plot} {i : Slot} {k : Key} (hp : f.plot t = .ok p) (h : p.Leads i k)
    {cs : List Call} (hq : (f.calls cs).plot t = .ok q) : q.Leads i k := by
  refine hf.calls_tree (Q := fun p _ => p.Leads i k) (h := []) ?_ ?_ ?_ hq
  · rintro p p' _ - hshape hkey ⟨hk, g, hg, rfl⟩
    refine ⟨(hkey _ (Plot.oldest_mem_entries hg)).trans hk, g, ?_, rfl⟩
    rw [Plot.groups_congr hshape]
    exact hg
  · rintro p new len o r o' q _ - hp hfree hins ⟨hk, g, hg, rfl⟩
    have hentered := hins.entered hp (hins.bears hp hfree)
    exact ⟨(hins.keyAt _).trans hk, hentered.exists_oldest hg⟩
  · intro p' hp'
    obtain rfl : p = p' := Except.ok.inj (hp.symm.trans hp')
    exact h

/-- **An oldest entry is found** by all bytes of its key, and by any more that read as zero. -/
theorem Plot.Bears.find_of_size_le {p : Plot} {o : Option Shape} (h : p.Bears o) {i : Slot}
    {k : Key} {len : Nat} (hleads : p.Leads i k) (hsize : k.size ≤ len) :
    p.find k len = .ok (some i) := by
  obtain ⟨rfl, hg⟩ := hleads
  exact h.find_eq_some_iff.mpr
    ⟨hg, fun _ _ => rfl, fun _ _ halike => Key.not_precedes_of_size_le hsize halike⟩

/-! ### Runs -/

namespace Forest

/-- **What is inserted is found in every later state.**  An insertion of any record that is in no
tree, after any run, ends with an entry.  Whatever is done later, a lookup of its key over the bytes
it was inserted over finds an entry that agrees with it on them.  If the record was accepted, and
into a group of its own, a lookup over all bytes of its key, or more, finds the record itself. -/
theorem calls_retained (uniques : List Bool) (cs : List Call) (t : Nat) (p : Plot)
    (hp : ((fresh uniques).calls cs).plot t = .ok p) (new len : Nat)
    (hfree : p.store.isResident new = .ok false) (hlen : len ≤ maxKeyLength) :
    ∃ r f' p', ((fresh uniques).calls cs).call (.insert t new len) = (.ok r, f') ∧
      f'.plot t = .ok p' ∧
      ∀ later, ∃ q, (f'.calls later).plot t = .ok q ∧
        (∃ i ∈ q.entries, q.find (p.store.keyAt new) len = .ok (some i) ∧
          (q.store.keyAt i).Alike (p.store.keyAt new) len) ∧
        (r = new → (p.tree.unique = true ∨ ∀ g ∈ p'.groups, new ∉ g.later) →
          ∀ n, (p.store.keyAt new).size ≤ n → q.find (p.store.keyAt new) n = .ok (some new)) := by
  obtain ⟨shapes, hf⟩ := stands_calls uniques cs
  have hbears := hf.bears_plot hp
  obtain ⟨r, p', o, hinsert, hins⟩ := Edit.insert_inserts hlen hbears hfree
  have hentered := hins.entered hbears (hins.bears hbears hfree)
  have hcall : ((fresh uniques).calls cs).call (.insert t new len) = _ :=
    (edit_of_plot hp hinsert).1
  have hp' := (edit_of_plot hp hinsert).2
  refine ⟨r, _, p', hcall, hp', fun later => ?_⟩
  -- the state after the insertion stands, and so does every later one
  obtain ⟨shapes', hhappens⟩ := hf.happens (.insert t new len)
  have hf' := hhappens.stands hf
  rw [hcall] at hf'
  obtain ⟨q, hq⟩ := hf'.exists_plot_calls hp' later
  obtain ⟨shapes'', hf''⟩ := stands_calls_of hf' later
  have hbears' := hf''.bears_plot hq
  refine ⟨q, hq, ?_, ?_⟩
  · obtain ⟨g, hg, hagrees⟩ := hentered.exists_agrees
    obtain ⟨hkey, g', hg', holdest⟩ := hf'.leads_calls hp' ⟨rfl, g, hg, rfl⟩ hq
    rcases hbears'.find_cases (p.store.keyAt new) len with
      ⟨-, hnone⟩ | ⟨i, hfind, ⟨g'', hg'', rfl⟩, hagrees', -⟩
    · refine absurd ?_ (hnone g' hg')
      rw [holdest, hkey, hins.keyAt]
      exact hagrees
    · exact ⟨g''.oldest, Plot.oldest_mem_entries hg'', hfind, hagrees'⟩
  · rintro rfl hjoins n hsize
    have hnew : ∀ g ∈ p.groups, r ∉ g.members := fun g hg hmem =>
      hbears.not_mem_of_free hfree (Plot.mem_entries_of_mem_members hg hmem)
    obtain ⟨g, hg, holdest⟩ := hentered.exists_begun hnew hjoins
    exact hbears'.find_of_size_le (hf'.leads_calls hp' ⟨hins.keyAt r, g, hg, holdest⟩ hq) hsize

/-- An entry `ab` is found after `a` and `ab` with a zero byte have been turned down for it, and
`ab` with another byte has been hung. -/
theorem calls_retained_ab :
    let f := (fresh [true]).calls [.add #[97, 98], .add #[97], .add #[97, 98, 0], .add #[97, 98, 1]]
    ∃ f' q, f.call (.insert 0 0 2) = (.ok 0, f') ∧
      (f'.calls [.insert 0 1 1, .insert 0 2 3, .insert 0 3 3]).plot 0 = .ok q ∧
        q.entries = [0, 3] ∧ q.find #[97, 98] 2 = .ok (some 0) := by
  intro f
  obtain ⟨r, f', p', hcall, hp', hlater⟩ := calls_retained [true] _ 0 _
    (plot_of_lt (f := f) (by decide +kernel)) 0 2 (by decide +kernel) (by decide)
  obtain ⟨q, hq, -, hfound⟩ := hlater [.insert 0 1 1, .insert 0 2 3, .insert 0 3 3]
  obtain rfl : r = 0 := Except.ok.inj
    ((congrArg Prod.fst hcall).symm.trans (by decide +kernel))
  obtain rfl : f' = (f.call (.insert 0 0 2)).2 := (congrArg Prod.snd hcall).symm
  have hq' := plot_of_lt (t := 0) (f := (f.call (.insert 0 0 2)).2.calls
    [.insert 0 1 1, .insert 0 2 3, .insert 0 3 3]) (by decide +kernel)
  obtain rfl := Except.ok.inj (hq.symm.trans hq')
  exact ⟨_, _, hcall, hq, by decide +kernel, hfound rfl (Or.inl rfl) 2 (by decide +kernel)⟩

end Forest

end BitTrie
