import BitTrie.Proofs.Comparison

/-!
# A tree and an index in tandem

A tree and a sorted index are fed the same keys, one after another: every key is added to the store
as a record and inserted into the tree, and its slot is entered into the index.  The tree turns a
record down just where the index does, and for the same one.  So after any number of keys the groups
of the tree are the rows of the index, and a comparison finds no difference.

## Main definitions

* `Keying.insert` — insertion of a record by its whole key, or by its string.
* `Tandem`, `Tandem.feed`, `Tandem.run` — a tree and an index, and feeding them keys.
* `Tandem.InStep` — **the invariant**: the groups of the tree are the rows of the index.
* `Tandem.Agrees` — what can be asked of the two, with the same answers.

## Main results

* `Tandem.InStep.insert`, `Tandem.InStep.feed` — an insertion, and a key, keep the two in step.
* `Tandem.InStep.run` — so do any number of keys, until the store is full.
* `Tandem.run_agrees` — **the two agree after every run**.
-/

namespace BitTrie

/-- Insert the record `new` by its whole key `k`, or by its string. -/
def Keying.insert (keying : Keying) (new : Slot) (k : Key) : Edit Slot :=
  match keying with
  | width _ => Edit.insert new k.size
  | string => Edit.insertString new

/-- A tree with its store, and an index. -/
structure Tandem where
  /-- The tree with its store. -/
  plot : Plot
  /-- The index. -/
  index : Index

namespace Tandem

/-- An empty tree over an empty store, and an empty index. -/
def start (unique : Bool) : Tandem := ⟨⟨⟨.null, unique⟩, .empty⟩, .empty⟩

/-- Feed the two a key.  The tree should give the entry that the index gives. -/
def feed (keying : Keying) (x : Tandem) (k : Key) : Outcome Tandem := do
  let (new, store) ← x.plot.store.add k
  match keying.insert new k ⟨x.plot.tree, store⟩ with
  | .error fault _ => throw fault
  | .ok given plot =>
    let (expected, index) := x.index.insert x.plot.tree.unique k new
    expectEqual Written.slotValue given expected
    return ⟨plot, index⟩

/-- Feed the two several keys. -/
def run (keying : Keying) (x : Tandem) (keys : List Key) : Outcome Tandem :=
  keys.foldlM (feed keying) x

/-- The groups of the tree are the rows of the index. -/
structure InStep (keying : Keying) (x : Tandem) : Prop where
  /-- The tree is sound. -/
  bears : ∃ o, x.plot.Bears o
  /-- All keys are their own names. -/
  admits : ∀ i, i < x.plot.store.size → keying.Admits (x.plot.store.keyAt i)
  /-- Every group is of one key. -/
  named : Named x.plot.store.keyAt x.plot.groups
  /-- Every group is the row of its key. -/
  rows : x.plot.groups.map (Group.row x.plot.store.keyAt) = x.index.rows

/-- The two hold the same, and all that can be asked of both has the same answer. -/
structure Agrees (keying : Keying) (x : Tandem) : Prop where
  /-- The groups of the tree are the rows of the index. -/
  rows : x.plot.groups.map (Group.row x.plot.store.keyAt) = x.index.rows
  /-- A comparison finds no difference. -/
  compared : x.plot.agreesWith x.index keying.isString = .ok ()
  /-- Where all keys have one width, lookups over any number of bytes give what the index gives. -/
  finds : ∀ w, keying = .width w → ∀ query len, len ≤ w → len ≤ query.size → ∃ found,
    x.plot.find query len = .ok found ∧ x.index.oldestWithPrefix (query.truncate len) = .ok found

section

variable {keying : Keying} {x : Tandem} {p : Plot} {s : Store} {i new : Slot} {k : Key}

theorem inStep_start (keying : Keying) (unique : Bool) : (start unique).InStep keying := by
  have hbears : (start unique).plot.Bears none := rfl
  have hgroups : (start unique).plot.groups = [] := hbears.groups_eq
  refine ⟨⟨none, hbears⟩, fun i hi => absurd hi (Nat.not_lt_zero i), ?_, ?_⟩
  · rw [hgroups]
    exact ⟨fun g hg => absurd hg List.not_mem_nil, List.nodup_nil⟩
  · rw [hgroups]
    rfl

/-- The keys of a group are all the same, so the tree has no flaw. -/
theorem InStep.legible (h : x.InStep keying) : x.plot.Legible := by
  obtain ⟨o, hbears⟩ := h.bears
  refine Plot.legible_of_audit (n := x.plot.entries.length) ?_
  have huniform : x.plot.clumps.find?
      (fun c => !decide (c.group.Uniform x.plot.store.keyAt)) = none := by
    refine List.find?_eq_none.mpr fun c hc => ?_
    rw [Bool.not_eq_true, Bool.not_eq_false', decide_eq_true_iff]
    intro m hm j _
    rw [h.named.alike c.group (List.mem_map_of_mem hc) m (List.mem_cons_of_mem _ hm)]
  rw [hbears.audit_eq, huniform]

/-- **In step, the two agree.** -/
theorem InStep.agrees (h : x.InStep keying) : x.Agrees keying := by
  have hlegible := h.legible
  have hadmits : ∀ i ∈ x.plot.entries, keying.Admits (x.plot.store.keyAt i) := fun i hi =>
    h.admits i (hlegible.lt_size i hi)
  refine ⟨h.rows, hlegible.agreesWith_eq_ok hadmits h.rows, ?_⟩
  rintro w rfl query len hlen hquery
  exact hlegible.exists_found hadmits h.rows hlen hquery

/-- A record that is added is noticed by neither. -/
theorem InStep.add (h : x.InStep keying) (hk : keying.Admits k)
    (hadd : x.plot.store.add k = .ok (i, s)) : InStep keying ⟨⟨x.plot.tree, s⟩, x.index⟩ := by
  obtain ⟨o, hbears⟩ := h.bears
  have hbears' : Plot.Bears ⟨x.plot.tree, s⟩ o := hbears.added hadd
  have hgroups : Plot.groups ⟨x.plot.tree, s⟩ = x.plot.groups :=
    Plot.groups_congr (hbears'.shape?_eq.trans hbears.shape?_eq.symm)
  have hkey : ∀ g ∈ x.plot.groups, ∀ m ∈ g.members, s.keyAt m = x.plot.store.keyAt m := by
    intro g hg m hm
    have hlt := hbears.lt_size (Plot.mem_entries_of_mem_members hg hm)
    rw [Store.keyAt_of_add hadd, if_neg (Nat.ne_of_lt hlt)]
  refine ⟨⟨o, hbears'⟩, ?_, ?_, ?_⟩
  · intro j hj
    rw [Store.size_of_add hadd] at hj
    rw [Store.keyAt_of_add hadd]
    split
    · exact hk
    · next hne => exact h.admits j (Nat.lt_of_le_of_ne (Nat.le_of_lt_succ hj) hne)
  · rw [hgroups]
    exact h.named.congr hkey
  · rw [hgroups, ← h.rows]
    refine List.map_congr_left fun g hg => ?_
    rw [Group.row, Group.row, hkey g hg _ List.mem_cons_self]

/-- **An insertion keeps the two in step**, and they give the same entry. -/
theorem InStep.insert (h : x.InStep keying) (hfree : x.plot.store.isResident new = .ok false)
    (hlen : keying.span (x.plot.store.keyAt new) ≤ maxKeyLength) :
    ∃ q, Edit.insert new (keying.span (x.plot.store.keyAt new)) x.plot =
        .ok (x.index.insert x.plot.tree.unique (x.plot.store.keyAt new) new).1 q ∧
      q.store.size = x.plot.store.size ∧
      InStep keying
        ⟨q, (x.index.insert x.plot.tree.unique (x.plot.store.keyAt new) new).2⟩ := by
  obtain ⟨o, hbears⟩ := h.bears
  obtain ⟨r, q, o', hinsert, hinserts⟩ := Edit.insert_inserts hlen hbears hfree
  have hbears' := hinserts.bears hbears hfree
  have hentered := hinserts.entered hbears hbears'
  have hnew := h.admits new (Store.isResident_eq_ok.mp hfree).1
  have hadmits : ∀ g ∈ x.plot.groups, keying.Admits (x.plot.store.keyAt g.oldest) := fun g hg =>
    h.admits _ (hbears.lt_size (Plot.oldest_mem_entries hg))
  -- keys are names, so they agree where they are the same and are ordered as the rows are
  have halike := fun g hg => (hadmits g hg).alike_iff hnew
  obtain ⟨rfl, hrows⟩ := hentered.insert_eq h.rows halike
    (fun g hg hlt _ => (hadmits g hg).before hnew hlt)
    fun g hg hlt _ => hnew.before (hadmits g hg) hlt
  have hkeyAt : q.store.keyAt = x.plot.store.keyAt := funext hinserts.keyAt
  refine ⟨q, hinsert, hinserts.size, ⟨o', hbears'⟩, ?_, ?_, ?_⟩
  · intro i hi
    rw [hkeyAt]
    exact h.admits i (hinserts.size ▸ hi)
  · rw [hkeyAt]
    exact hentered.named halike h.named
  · rw [hkeyAt]
    exact hrows

/-- **A key keeps the two in step**, as long as the store has a slot left. -/
theorem InStep.feed (h : x.InStep keying) (hk : keying.Admits k)
    (hlen : keying.span k ≤ maxKeyLength) (hsize : x.plot.store.size < maxSlots) :
    ∃ x', x.feed keying k = .ok x' ∧ x'.InStep keying ∧
      x'.plot.store.size = x.plot.store.size + 1 := by
  obtain ⟨i, s, hadd⟩ : ∃ i s, x.plot.store.add k = .ok (i, s) := ⟨_, _, dif_pos hsize⟩
  have hkey : s.keyAt i = k := by
    rw [Store.keyAt_of_add hadd, if_pos (Store.add_eq_ok hadd).1]
  have hinstep := h.add hk hadd
  obtain ⟨q, hinsert, hqsize, hq⟩ := hinstep.insert (Store.isResident_of_add hadd)
    (show keying.span (s.keyAt i) ≤ maxKeyLength by rw [hkey]; exact hlen)
  simp only [hkey] at hinsert hq
  have hkeying : keying.insert i k ⟨x.plot.tree, s⟩ =
      .ok (x.index.insert x.plot.tree.unique k i).1 q := by
    rw [← hinsert]
    cases keying with
    | width bytes => exact congrArg (Edit.insert i · _) hk
    | string =>
      have hi : i < s.size := (Store.isResident_eq_ok.mp (Store.isResident_of_add hadd)).1
      refine (Edit.insertString_eq hi).trans ?_
      rw [hkey]
      rfl
  refine ⟨⟨q, _⟩, ?_, hq, hqsize.trans (Store.size_of_add hadd)⟩
  have hsame : ∀ e : Slot, expectEqual Written.slotValue e e = .ok () := fun e =>
    expectEqual_eq_ok_iff.mpr rfl
  rw [Tandem.feed, hadd]
  simp only [bind, Except.bind, hkeying, hsame]
  rfl

/-- A store without a slot left takes no key. -/
theorem feed_of_full (hsize : ¬ x.plot.store.size < maxSlots) (keying : Keying) (k : Key) :
    x.feed keying k = .error (.storeFull maxSlots) := by
  have hadd : x.plot.store.add k = .error (.storeFull maxSlots) := dif_neg hsize
  rw [feed, hadd]
  rfl

/-- **Any number of keys keep the two in step**, until the store is full. -/
theorem InStep.run {keys : List Key} (h : x.InStep keying)
    (hkeys : ∀ k ∈ keys, keying.Admits k ∧ keying.span k ≤ maxKeyLength) :
    (∃ x', x.run keying keys = .ok x' ∧ x'.InStep keying) ∨
      (maxSlots < x.plot.store.size + keys.length ∧
        x.run keying keys = .error (.storeFull maxSlots)) := by
  induction keys generalizing x with
  | nil => exact Or.inl ⟨x, rfl, h⟩
  | cons k keys ih =>
    obtain ⟨⟨hk, hlen⟩, hkeys⟩ := List.forall_mem_cons.mp hkeys
    rw [Tandem.run, List.foldlM_cons, List.length_cons]
    rcases Nat.lt_or_ge x.plot.store.size maxSlots with hsize | hsize
    · obtain ⟨x', hfeed, hx', hsize'⟩ := h.feed hk hlen hsize
      rw [hfeed]
      rcases ih hx' hkeys with hrun | ⟨hfull, hrun⟩
      · exact Or.inl hrun
      · exact Or.inr ⟨by omega, hrun⟩
    · rw [feed_of_full (Nat.not_lt.mpr hsize)]
      exact Or.inr ⟨by omega, rfl⟩

/-- **A tree and an index agree after every run** of keys of one width, or of strings, into a tree
that holds every key once or any number of times.  After any number of the keys the two have given
the same entry for each of them, the groups of the tree are the rows of the index, a comparison
finds no difference, and lookups over any number of bytes give the same, unless there were more keys
than a store has slots. -/
theorem run_agrees (keying : Keying) (unique : Bool) (keys : List Key)
    (hkeys : ∀ k ∈ keys, keying.Admits k ∧ keying.span k ≤ maxKeyLength) (before : List Key)
    (hbefore : before <+: keys) :
    (∃ x, (start unique).run keying before = .ok x ∧ x.Agrees keying) ∨
      (maxSlots < before.length ∧
        (start unique).run keying before = .error (.storeFull maxSlots)) := by
  rcases (inStep_start keying unique).run fun k hk => hkeys k (hbefore.subset hk) with
    ⟨x, hrun, hx⟩ | ⟨hfull, hrun⟩
  · exact Or.inl ⟨x, hrun, hx.agrees⟩
  · refine Or.inr ⟨?_, hrun⟩
    rwa [show (start unique).plot.store.size = 0 from rfl, Nat.zero_add] at hfull

/-- The strings `ab`, `a` and `ab` again, the last of which is turned down. -/
theorem run_agrees_strings :
    ((start true).run .string [#[97, 98], #[97], #[97, 98]]).map (·.index.rows) =
        .ok [⟨#[97], [1]⟩, ⟨#[97, 98], [0]⟩] ∧
      ∃ x, (start true).run .string [#[97, 98], #[97], #[97, 98]] = .ok x ∧
        x.Agrees .string := by
  refine ⟨by decide +kernel, ?_⟩
  rcases run_agrees .string true [#[97, 98], #[97], #[97, 98]] (by decide +kernel) _
    (List.prefix_refl _) with hrun | ⟨hfull, -⟩
  · exact hrun
  · exact absurd hfull (by decide)

end

end Tandem

end BitTrie
