import BitTrie.Proofs.Chains
import BitTrie.Proofs.Finding
import BitTrie.Proofs.Rows
import BitTrie.Proofs.Terminated

/-!
# Trees of terminated strings

A tree that is only inserted into by strings is a map from strings to entries: its groups are the
rows of the sorted index in which every record that hangs in the tree is entered under its string,
and all that is asked of the tree is answered by the index.  So the bytes behind terminators have
no influence on what a run does.

## Main definitions

* `Plot.rows` — the groups of a tree, each under the string of its oldest entry.
* `Plot.Maps` — a tree is a map with the rows of an index.
* `Forest.index` — the index of the records that a run hangs in a tree.
* `Forest.EntersString` — what inserting a record by its string does to such a tree.
* `Call.SameStrings`, `Forest.Twins` — calls and forests that differ behind terminators only.

## Main results

* `Inserts.insert_rows` — an insertion by string enters a slot under the string.
* `Forest.rows_calls` — the rows of a tree are those of its index.
* `Forest.Twins.call` — calls that differ behind terminators only do the same.
* `Forest.calls_string_map` — **a tree of strings is a map, after any run**.
-/

namespace BitTrie

/-! ### The map of a tree -/

/-- The groups of a tree, each under the string of its oldest entry. -/
def Plot.rows (p : Plot) : List Row := p.groups.map (Group.row fun i => (p.store.keyAt i).string)

/-- A tree is a map with the rows of an index: all that is asked of it is answered by the index,
and from the first slot of a row the tree leads to all others. -/
structure Plot.Maps (p : Plot) (x : Index) : Prop where
  rows : p.rows = x.rows
  chains : ∀ r ∈ x.rows, ∃ first later, r.slots = first :: later ∧
    p.store.equalEntries first = .ok r.slots
  finds : ∀ query : Key, p.findString query = .ok (x.slotsOf query.string).head?
  first : p.first = x.first

section

variable {p p' q : Plot} {o o' : Option Shape} {new r len : Nat} {x : Index}

/-- A sound tree with the rows of an index is a map. -/
theorem Plot.Bears.maps (h : p.Bears o) (hx : p.rows = x.rows) : p.Maps x := by
  refine ⟨hx, ?_, ?_, ?_⟩
  · intro r hr
    rw [← hx] at hr
    obtain ⟨g, hg, rfl⟩ := List.mem_map.mp hr
    exact ⟨g.oldest, g.later, rfl, h.equalEntries_eq hg⟩
  · intro query
    have halike : ∀ g ∈ p.groups, (p.store.keyAt g.oldest).Alike query.string
        (query.stringLength + 1) ↔ (p.store.keyAt g.oldest).string = query.string := by
      intro g _
      rw [← query.stringLength_string, Key.alike_iff_string_eq, Key.string_string]
    rw [findString, h.find_eq, ← Index.find?_groups_eq hx halike]
    rfl
  · rw [h.first_eq, Index.first_eq hx]

/-- **An insertion by string enters a slot under the string.** -/
theorem Inserts.insert_rows
    (h : Inserts p new ((p.store.keyAt new).stringLength + 1) o r o' q) (hp : p.Bears o)
    (hfree : p.store.isResident new = .ok false) (hx : p.rows = x.rows) :
    r = (x.insert p.tree.unique (p.store.keyAt new).string new).1 ∧
      q.rows = (x.insert p.tree.unique (p.store.keyAt new).string new).2.rows := by
  have hinsert := (h.entered hp (h.bears hp hfree)).insert_eq hx
    (fun g _ => Key.alike_iff_string_eq) (fun g _ => Key.before_of_precedes)
    fun g _ hlt hne => Key.before_of_precedes hlt (Ne.symm hne)
  have hrows : q.rows = q.groups.map (Group.row fun i => (p.store.keyAt i).string) := by
    unfold Plot.rows
    simp only [h.keyAt]
  rw [hrows]
  exact hinsert

/-- The rows of a tree depend on its shape and on the keys of its entries only. -/
theorem Plot.rows_congr (hshape : p'.shape? = p.shape?)
    (hkey : ∀ i ∈ p.entries, p'.store.keyAt i = p.store.keyAt i) : p'.rows = p.rows := by
  rw [rows, rows, groups_congr hshape]
  apply List.map_congr_left
  intro g hg
  rw [Group.row, Group.row, hkey _ (oldest_mem_entries hg)]

/-- The slots of the index are the entries of the tree. -/
theorem Plot.mem_entries_iff (hx : p.rows = x.rows) {i : Slot} :
    i ∈ p.entries ↔ ∃ r ∈ x.rows, i ∈ r.slots := by
  rw [← p.flatMap_members_groups, List.mem_flatMap, ← hx]
  constructor
  · rintro ⟨g, hg, hi⟩
    exact ⟨_, List.mem_map_of_mem hg, hi⟩
  · rintro ⟨r, hr, hi⟩
    obtain ⟨g, hg, rfl⟩ := List.mem_map.mp hr
    exact ⟨g, hg, hi⟩

end

/-! ### The records that a run hangs -/

namespace Forest

/-- The index of the records that a run hangs in a tree, each under its string. -/
def index (f : Forest) (t : Nat) (cs : List Call) : Index :=
  .ofHistory (fun i => ((f.calls cs).store.keyAt i).string) (f.history t cs)

/-- **The rows of a tree** that is only inserted into by strings are those of its index. -/
theorem rows_calls (uniques : List Bool) (cs : List Call) {t : Nat} {p : Plot}
    (hp : ((fresh uniques).calls cs).plot t = .ok p)
    (hstrings : ∀ new len, Call.insert t new len ∉ cs) :
    p.rows = ((fresh uniques).index t cs).rows := by
  have hstore : p.store = ((fresh uniques).calls cs).store := (plot_eq_ok.mp hp).2
  rw [index, ← hstore]
  -- the entries are kept along, since only their keys are known to stay
  refine (calls_tree_induction (Q := fun p h => (∀ e ∈ h, e.1 ∈ p.entries) ∧
    p.rows = (Index.ofHistory (fun i => (p.store.keyAt i).string) h).rows) ?_ ?_ ?_ uniques hp).2
  · intro p hp
    refine ⟨fun e he => absurd he List.not_mem_nil, ?_⟩
    rw [Plot.rows, hp.groups_eq]
    rfl
  · intro p p' h _ hshape hkey hQ
    obtain ⟨hmem, hrows⟩ := hQ
    have hentries : p'.entries = p.entries := Plot.entries_congr hshape
    have hindex : Index.ofHistory (fun i => (p'.store.keyAt i).string) h =
        Index.ofHistory (fun i => (p.store.keyAt i).string) h :=
      Index.ofHistory_congr fun e he => by rw [hkey _ (hmem e he)]
    rw [hentries, Plot.rows_congr hshape hkey, hindex]
    exact ⟨hmem, hrows⟩
  · intro p new len o r o' q h hc hp hfree hins hQ
    obtain ⟨hmem, hrows⟩ := hQ
    obtain ⟨c, hc, hinsertion⟩ := hc
    obtain rfl := Call.len_of_insertion (fun new len heq => hstrings new len (heq ▸ hc)) hinsertion
    obtain ⟨hr, hrows'⟩ := hins.insert_rows hp hfree hrows
    have hperm := hins.entries_perm hp hfree
    have hnot := hp.not_mem_of_free hfree
    simp only [hins.keyAt]
    rcases Index.insert_cases (.ofHistory (fun i => (p.store.keyAt i).string) h) p.tree.unique
      (p.store.keyAt new).string new with ⟨-, first, later, hslots, hinsert⟩ | ⟨-, hinsert⟩
    · rw [hinsert] at hr hrows'
      obtain rfl : r = first := hr
      -- what is given back is an entry, and the new record was none
      have hne : r ≠ new := by
        rintro rfl
        obtain ⟨row, hrow, -, hmem⟩ := Index.mem_of_slotsOf
          (show r ∈ Index.slotsOf _ _ by rw [hslots]; exact List.mem_cons_self)
        exact hnot ((Plot.mem_entries_iff hrows).mpr ⟨row, hrow, hmem⟩)
      rw [if_neg hne, List.append_nil] at hperm ⊢
      exact ⟨fun e he => hperm.mem_iff.mpr (hmem e he), hrows'⟩
    · rw [hinsert] at hr hrows'
      obtain rfl : r = new := hr
      rw [if_pos rfl] at hperm ⊢
      refine ⟨fun e he => hperm.mem_iff.mpr ?_, ?_⟩
      · rcases List.mem_append.mp he with he | he
        · exact List.mem_append_left _ (hmem e he)
        · rw [List.mem_singleton.mp he]
          exact List.mem_append_right _ List.mem_cons_self
      · rw [Index.ofHistory_append]
        exact hrows'

end Forest

/-! ### Bytes behind terminators -/

/-- Calls that differ behind terminators only. -/
inductive Call.SameStrings : Call → Call → Prop where
  | add {a b : Key} (h : a.string = b.string) : SameStrings (.add a) (.add b)
  | insertString (t : Nat) (new : Slot) : SameStrings (.insertString t new) (.insertString t new)

theorem Call.SameStrings.ne_insert {c c' : Call} (h : c.SameStrings c') (t new len : Nat) :
    c ≠ .insert t new len ∧ c' ≠ .insert t new len := by
  cases h with
  | add h => exact ⟨Call.noConfusion, Call.noConfusion⟩
  | insertString t new => exact ⟨Call.noConfusion, Call.noConfusion⟩

namespace Forest

/-- What the calls of a run give. -/
def outcomes (f : Forest) : List Call → List (Outcome Slot)
  | [] => []
  | c :: cs => (f.call c).1 :: (f.call c).2.outcomes cs

/-- Forests of strings that differ behind terminators only: the same records have the same
strings, and the trees have the same rows. -/
structure Twins (f f' : Forest) : Prop where
  size : f'.store.size = f.store.size
  string : ∀ i, (f'.store.keyAt i).string = (f.store.keyAt i).string
  trees : f'.trees.size = f.trees.size
  plots : ∀ t p p', f.plot t = .ok p → f'.plot t = .ok p' →
    p'.tree.unique = p.tree.unique ∧ ∃ x : Index, p.rows = x.rows ∧ p'.rows = x.rows

namespace Twins

variable {f f' : Forest} {shapes shapes' : Nat → Option Shape} {c c' : Call}
  {out out' : Outcome Slot} {t : Nat} {p p' q q' : Plot} {o o' u u' : Option Shape}

theorem symm (h : f.Twins f') : f'.Twins f := by
  refine ⟨h.size.symm, fun i => (h.string i).symm, h.trees.symm, ?_⟩
  intro t p p' hp hp'
  obtain ⟨hunique, x, hx, hx'⟩ := h.plots t p' p hp' hp
  exact ⟨hunique.symm, x, hx', hx⟩

theorem exists_plot (h : f.Twins f') (hp : f.plot t = .ok p) : ∃ p', f'.plot t = .ok p' := by
  have hlt := (Array.getElem?_eq_some_iff.mp (plot_eq_ok.mp hp).1).1
  rw [← h.trees] at hlt
  exact ⟨_, plot_of_lt hlt⟩

theorem isSome_up (h : f.Twins f') (hf : f.Stands shapes) (hf' : f'.Stands shapes') {i : Slot}
    (hi : (f.store.up (.leaf i)).isSome = true) : (f'.store.up (.leaf i)).isSome = true := by
  obtain ⟨t, p, hp, hip⟩ := hf.isSome_up_iff.mp hi
  obtain ⟨p', hp'⟩ := h.exists_plot hp
  obtain ⟨-, x, hx, hx'⟩ := h.plots t p p' hp hp'
  exact hf'.isSome_up_iff.mpr
    ⟨t, p', hp', (Plot.mem_entries_iff hx').mpr ((Plot.mem_entries_iff hx).mp hip)⟩

/-- Records are in a tree in both forests, or in neither. -/
theorem isSome_up_eq (h : f.Twins f') (hf : f.Stands shapes) (hf' : f'.Stands shapes')
    (i : Slot) : (f'.store.up (.leaf i)).isSome = (f.store.up (.leaf i)).isSome :=
  Bool.eq_iff_iff.mpr ⟨h.symm.isSome_up hf' hf, h.isSome_up hf hf'⟩

theorem insertion?_eq (h : f.Twins f') (hc : c.SameStrings c') :
    c'.insertion? f'.store = c.insertion? f.store := by
  cases hc with
  | add hkey => rfl
  | insertString t new =>
    rw [Call.insertion?, Call.insertion?, ← Key.size_string, ← Key.size_string, h.string]

/-- Calls are refused for the same reasons. -/
theorem refusal_eq (h : f.Twins f') (hf : f.Stands shapes) (hf' : f'.Stands shapes')
    (hc : c.SameStrings c') : f'.refusal c' = f.refusal c := by
  rw [refusal, refusal, h.insertion?_eq hc, h.size, h.trees]
  cases c.insertion? f.store with
  | none => rfl
  | some e =>
    simp only [Store.refusal, h.size, h.isSome_up_eq hf hf']

/-- What two trees notice of calls that are not refused. -/
theorem notices (h : f.Twins f') (hc : c.SameStrings c') (href : f.refusal c = none)
    (href' : f'.refusal c' = none) (hp : f.plot t = .ok p) (hp' : f'.plot t = .ok p')
    (hb : p.Bears o) (hb' : p'.Bears o') (hq : q.Bears u) (hq' : q'.Bears u')
    (hn : f.Notices t p o c out q u) (hn' : f'.Notices t p' o' c' out' q' u') :
    (q'.tree.unique = q.tree.unique ∧ ∃ x : Index, q.rows = x.rows ∧ q'.rows = x.rows) ∧
      ∀ new len, c.insertion? f.store = some (t, new, len) → out' = out := by
  obtain ⟨hunique, x, hx, hx'⟩ := h.plots t p p' hp hp'
  have hinsertion := h.insertion?_eq hc
  cases hn with
  | nothing haccepts hother hkept hkey =>
    cases hn' with
    | nothing haccepts' hother' hkept' hkey' =>
      have hrows : q.rows = p.rows := Plot.rows_congr
        (by rw [hq.shape?_eq, hb.shape?_eq]) fun i hi => hkey i (hb.lt_size hi)
      have hrows' : q'.rows = p'.rows := Plot.rows_congr
        (by rw [hq'.shape?_eq, hb'.shape?_eq]) fun i hi => hkey' i (hb'.lt_size hi)
      refine ⟨⟨by rw [hkept', hkept, hunique], x, hrows.trans hx, hrows'.trans hx'⟩, ?_⟩
      exact fun new len heq => absurd heq (hother href new len)
    | @insertion new' len' r' _ _ hc' haccepts' hfree' hins' =>
      exact absurd (hinsertion.symm.trans hc') (hother href new' len')
  | @insertion new len r _ _ hcall haccepts hfree hins =>
    cases hn' with
    | nothing haccepts' hother' hkept' hkey' =>
      exact absurd (hinsertion.trans hcall) (hother' href' new len)
    | @insertion new' len' r' _ _ hcall' haccepts' hfree' hins' =>
      obtain rfl := Call.len_of_insertion (fun new len => (hc.ne_insert t new len).1) hcall
      obtain rfl := Call.len_of_insertion (fun new len => (hc.ne_insert t new len).2) hcall'
      have heq := Option.some.inj (hcall.symm.trans (hinsertion.symm.trans hcall'))
      obtain rfl : new = new' := (Prod.mk.inj (Prod.mk.inj heq).2).1
      have hstring : (p'.store.keyAt new).string = (p.store.keyAt new).string := by
        rw [(plot_eq_ok.mp hp).2, (plot_eq_ok.mp hp').2, h.string]
      rw [← (plot_eq_ok.mp hp).2] at hins
      rw [← (plot_eq_ok.mp hp').2] at hins'
      obtain ⟨hr, hrows⟩ := hins.insert_rows hb hfree hx
      obtain ⟨hr', hrows'⟩ := hins'.insert_rows hb' hfree' hx'
      rw [hstring, hunique] at hr' hrows'
      refine ⟨⟨by rw [hins'.unique, hins.unique, hunique], _, hrows, hrows'⟩, ?_⟩
      intro _ _ _
      rw [hr', hr]

/-- What calls that are not refused do to one tree in both forests. -/
theorem plot_call (h : f.Twins f') (hf : f.Stands shapes) (hf' : f'.Stands shapes')
    (hc : c.SameStrings c') (href : f.refusal c = none) (href' : f'.refusal c' = none)
    (hp : f.plot t = .ok p) :
    ∃ q q', (f.call c).2.plot t = .ok q ∧ (f'.call c').2.plot t = .ok q' ∧
      (q'.tree.unique = q.tree.unique ∧ ∃ x : Index, q.rows = x.rows ∧ q'.rows = x.rows) ∧
      ∀ new len, c.insertion? f.store = some (t, new, len) →
        (f'.call c').1 = (f.call c).1 := by
  obtain ⟨p', hp'⟩ := h.exists_plot hp
  obtain ⟨u, hhappens⟩ := hf.happens c
  obtain ⟨u', hhappens'⟩ := hf'.happens c'
  obtain ⟨q, hq, hn⟩ := hhappens.notices rfl hp
  obtain ⟨q', hq', hn'⟩ := hhappens'.notices rfl hp'
  exact ⟨q, q', hq, hq', h.notices hc href href' hp hp' (hf.bears_plot hp) (hf'.bears_plot hp')
    ((hhappens.stands hf).bears_plot hq) ((hhappens'.stands hf').bears_plot hq') hn hn'⟩

/-- **Calls that differ behind terminators only do the same**, and leave forests behind that
differ behind terminators only. -/
theorem call (h : f.Twins f') (hf : f.Stands shapes) (hf' : f'.Stands shapes')
    (hc : c.SameStrings c') :
    (f'.call c').1 = (f.call c).1 ∧ (f.call c).2.Twins (f'.call c').2 := by
  have hrefusal := h.refusal_eq hf hf' hc
  cases href : f.refusal c with
  | some e =>
    rw [href] at hrefusal
    rw [call_of_refusal href, call_of_refusal hrefusal]
    exact ⟨rfl, h⟩
  | none =>
    have href' := hrefusal.trans href
    obtain ⟨u, hhappens⟩ := hf.happens c
    obtain ⟨u', hhappens'⟩ := hf'.happens c'
    -- trees that are there after the calls were there before
    have hplots : ∀ t q q', (f.call c).2.plot t = .ok q → (f'.call c').2.plot t = .ok q' →
        q'.tree.unique = q.tree.unique ∧ ∃ x : Index, q.rows = x.rows ∧ q'.rows = x.rows := by
      intro t q q' hq hq'
      obtain ⟨p, hp⟩ := hhappens.exists_plot hq
      obtain ⟨q₁, q₂, hq₁, hq₂, hsame, -⟩ := h.plot_call hf hf' hc href href' hp
      obtain rfl : q₁ = q := Except.ok.inj (hq₁.symm.trans hq)
      obtain rfl : q₂ = q' := Except.ok.inj (hq₂.symm.trans hq')
      exact hsame
    have htrees : (f'.call c').2.trees.size = (f.call c).2.trees.size := by
      rw [hhappens.size_trees, hhappens'.size_trees, h.trees]
    cases hc with
    | @add a b hkey =>
      obtain ⟨s, hadd, hcall⟩ := call_add href
      obtain ⟨s', hadd', hcall'⟩ := call_add href'
      rw [hcall, hcall'] at hplots htrees ⊢
      refine ⟨by rw [h.size], ?_, ?_, htrees, hplots⟩
      · rw [Store.size_of_add hadd, Store.size_of_add hadd', h.size]
      · intro i
        rw [Store.keyAt_of_add hadd, Store.keyAt_of_add hadd', h.size]
        split
        · exact hkey.symm
        · exact h.string i
    | insertString t new =>
      obtain ⟨hsize, hkey⟩ := hhappens.keyAt_of_insertion rfl
      obtain ⟨hsize', hkey'⟩ := hhappens'.keyAt_of_insertion rfl
      have ht : t < f.trees.size := by
        rw [refusal_of_insertion rfl] at href
        by_contra hnot
        rw [if_neg hnot] at href
        cases href
      obtain ⟨q, q', -, -, -, hout⟩ :=
        h.plot_call hf hf' (.insertString t new) href href' (plot_of_lt ht)
      refine ⟨hout new _ rfl, by rw [hsize, hsize', h.size], ?_, htrees, hplots⟩
      intro i
      rw [hkey, hkey', h.string]

theorem calls {cs cs' : List Call} (h : f.Twins f') (hf : f.Stands shapes)
    (hf' : f'.Stands shapes') (hcs : List.Forall₂ Call.SameStrings cs cs') :
    f'.outcomes cs' = f.outcomes cs ∧ (f.calls cs).Twins (f'.calls cs') := by
  induction hcs generalizing f f' shapes shapes' with
  | nil => exact ⟨rfl, h⟩
  | @cons c c' cs cs' hc hcs ih =>
    obtain ⟨hout, htwins⟩ := h.call hf hf' hc
    obtain ⟨u, hhappens⟩ := hf.happens c
    obtain ⟨u', hhappens'⟩ := hf'.happens c'
    obtain ⟨houts, htwins'⟩ := ih htwins (hhappens.stands hf) (hhappens'.stands hf')
    exact ⟨by rw [outcomes, outcomes, hout, houts], htwins'⟩

theorem of_fresh (uniques : List Bool) : (fresh uniques).Twins (fresh uniques) := by
  refine ⟨rfl, fun _ => rfl, rfl, ?_⟩
  intro t p p' hp hp'
  obtain rfl : p = p' := Except.ok.inj (hp.symm.trans hp')
  have hrows : p.rows = Index.empty.rows := by
    rw [Plot.rows, ((stands_fresh uniques).bears_plot hp).groups_eq]
    rfl
  exact ⟨rfl, _, hrows, hrows⟩

end Twins

/-! ### Runs -/

/-- What inserting a record by its string does to a tree that is a map with the rows of `x`. -/
inductive EntersString (f : Forest) (t : Nat) (p : Plot) (x : Index) (new : Slot) : Prop where
  /-- The oldest entry of the string stands for the record as well, and nothing is changed. -/
  | turnedDown {first : Slot} {later : List Slot} (hunique : p.tree.unique = true)
    (hslots : x.slotsOf (p.store.keyAt new).string = first :: later)
    (hcall : f.call (.insertString t new) = (.ok first, f))
  /-- The record is the last entry of its string, and the tree leads from the first to it. -/
  | last {f' : Forest} {p' : Plot} {first : Slot}
    (hfree : p.tree.unique = true → x.slotsOf (p.store.keyAt new).string = [])
    (hcall : f.call (.insertString t new) = (.ok new, f')) (hplot : f'.plot t = .ok p')
    (hmaps : p'.Maps (x.add (p.store.keyAt new).string new))
    (hfirst : (x.slotsOf (p.store.keyAt new).string ++ [new]).head? = some first)
    (hchain : p'.store.equalEntries first = .ok (x.slotsOf (p.store.keyAt new).string ++ [new]))

/-- **Inserting by string** a record that is in no tree. -/
theorem Stands.entersString {f : Forest} {shapes : Nat → Option Shape} {t : Nat} {p : Plot}
    {x : Index} (hf : f.Stands shapes) (hp : f.plot t = .ok p) (hx : p.rows = x.rows) {new : Slot}
    (hfree : p.store.isResident new = .ok false)
    (hlen : (p.store.keyAt new).stringLength + 1 ≤ maxKeyLength) :
    f.EntersString t p x new := by
  obtain ⟨ht, hs⟩ := plot_eq_ok.mp hp
  have hbears := hf.bears_plot hp
  have hnew := (Store.isResident_eq_ok.mp hfree).1
  obtain ⟨r, q, o, hinsert, hins⟩ := Edit.insert_inserts hlen hbears hfree
  rw [← Edit.insertString_eq hnew] at hinsert
  obtain ⟨hcall, hplot⟩ := edit_of_plot hp hinsert
  obtain ⟨hr, hrows⟩ := hins.insert_rows hbears hfree hx
  rcases x.insert_cases p.tree.unique (p.store.keyAt new).string new with
    ⟨hunique, first, later, hslots, heq⟩ | ⟨hslots, heq⟩
  · rw [heq] at hr
    obtain rfl : r = first := hr
    refine .turnedDown hunique hslots ?_
    rcases hins.leaves with ⟨rfl, -⟩ | ⟨rfl, -⟩
    · obtain ⟨row, hrow, -, hmem⟩ := Index.mem_of_slotsOf
        (show r ∈ x.slotsOf _ by rw [hslots]; exact List.mem_cons_self)
      exact absurd ((Plot.mem_entries_iff hx).mpr ⟨row, hrow, hmem⟩)
        (hbears.not_mem_of_free hfree)
    · rw [hs, setIfInBounds_self ht] at hcall
      exact hcall
  · rw [heq] at hr hrows
    obtain rfl : r = new := hr
    have hq := hins.bears hbears hfree
    have hmaps : q.Maps (x.add (p.store.keyAt r).string r) := hq.maps hrows
    have hadd := Index.slotsOf_add x (p.store.keyAt r).string r
    obtain ⟨row, hrow, hkey, -⟩ := Index.mem_of_slotsOf
      (show r ∈ (x.add (p.store.keyAt r).string r).slotsOf _ by
        rw [hadd]; exact List.mem_append_right _ List.mem_cons_self)
    have hslots' := Index.slotsOf_of_mem hrow
    rw [hkey, hadd] at hslots'
    obtain ⟨first, later, hfirst, hchain⟩ := hmaps.chains row hrow
    have hhead : (x.slotsOf (p.store.keyAt r).string ++ [r]).head? = some first := by
      rw [hslots', hfirst]
      rfl
    refine .last hslots hcall hplot hmaps hhead ?_
    rw [hchain, hslots']

/-- **A tree of strings is a map.**  After any run that inserts into a tree by strings only, the
tree is the map of the records that hang in it, each under its string, in the order of insertion.
A further record is turned down, where the tree holds every string once and has one with that
string, or becomes the last entry of its string.  And a run that differs behind terminators only
gives the same outcomes and the same map. -/
theorem calls_string_map (uniques : List Bool) (cs : List Call) (t : Nat) (p : Plot)
    (hp : ((fresh uniques).calls cs).plot t = .ok p)
    (hstrings : ∀ new len, Call.insert t new len ∉ cs) :
    (∀ string : Key, ((fresh uniques).index t cs).slotsOf string =
      (((fresh uniques).history t cs).map (·.1)).filter fun i =>
        decide ((p.store.keyAt i).string = string)) ∧
    p.Maps ((fresh uniques).index t cs) ∧
    (∀ new, p.store.isResident new = .ok false →
      (p.store.keyAt new).stringLength + 1 ≤ maxKeyLength →
      ((fresh uniques).calls cs).EntersString t p ((fresh uniques).index t cs) new) ∧
    ∀ cs', List.Forall₂ Call.SameStrings cs cs' →
      (fresh uniques).outcomes cs' = (fresh uniques).outcomes cs ∧
      ∃ p', ((fresh uniques).calls cs').plot t = .ok p' ∧
        p'.tree.unique = p.tree.unique ∧ p'.Maps ((fresh uniques).index t cs) := by
  obtain ⟨shapes, hf⟩ := stands_calls uniques cs
  have hrows := rows_calls uniques cs hp hstrings
  refine ⟨?_, (hf.bears_plot hp).maps hrows,
    fun new hfree hlen => hf.entersString hp hrows hfree hlen, ?_⟩
  · intro string
    rw [index, Index.slotsOf_ofHistory, (plot_eq_ok.mp hp).2]
  · intro cs' hcs
    obtain ⟨shapes', hf'⟩ := stands_calls uniques cs'
    obtain ⟨houtcomes, htwins⟩ :=
      (Twins.of_fresh uniques).calls (stands_fresh uniques) (stands_fresh uniques) hcs
    obtain ⟨p', hp'⟩ := htwins.exists_plot hp
    obtain ⟨hunique, x, hx, hx'⟩ := htwins.plots t p p' hp hp'
    exact ⟨houtcomes, p', hp', hunique,
      (hf'.bears_plot hp').maps (hx'.trans (hx.symm.trans hrows))⟩

/-- In a tree with `a`, terminated, and `b`, a lookup of `a` gives the first; another `a` with
other bytes behind its terminator comes after it. -/
theorem calls_string_map_ab :
    ∃ p, ((fresh [false]).calls [.add #[97, 0, 7], .add #[98], .add #[97, 0, 9],
      .insertString 0 0, .insertString 0 1]).plot 0 = .ok p ∧
      p.findString #[97, 0, 5] = .ok (some 0) ∧ p.first = .ok (some 0) ∧
      (∃ f' p' first, ((fresh [false]).calls [.add #[97, 0, 7], .add #[98], .add #[97, 0, 9],
          .insertString 0 0, .insertString 0 1]).call (.insertString 0 2) = (.ok 2, f') ∧
        f'.plot 0 = .ok p' ∧ p'.store.equalEntries first = .ok [0, 2]) ∧
      (fresh [false]).outcomes [.add #[97], .add #[98, 0, 1], .add #[97], .insertString 0 0,
          .insertString 0 1] =
        (fresh [false]).outcomes [.add #[97, 0, 7], .add #[98], .add #[97, 0, 9],
          .insertString 0 0, .insertString 0 1] := by
  obtain ⟨-, hmaps, hinsert, hbehind⟩ := calls_string_map [false] [.add #[97, 0, 7], .add #[98],
    .add #[97, 0, 9], .insertString 0 0, .insertString 0 1] 0 _ (plot_of_lt (by decide +kernel))
    (by simp)
  refine ⟨_, plot_of_lt (by decide +kernel), ?_⟩
  refine ⟨(hmaps.finds _).trans (by decide +kernel), hmaps.first.trans (by decide +kernel), ?_, ?_⟩
  · cases hinsert 2 (by decide +kernel) (by decide +kernel) with
    | turnedDown hunique hslots hcall => exact absurd hunique (by decide +kernel)
    | last hfree hcall hplot hmaps hfirst hchain =>
      exact ⟨_, _, _, hcall, hplot, hchain.trans (by decide +kernel)⟩
  · refine (hbehind [.add #[97], .add #[98, 0, 1], .add #[97], .insertString 0 0,
      .insertString 0 1] ?_).1
    exact .cons (.add (by decide +kernel)) (.cons (.add (by decide +kernel))
      (.cons (.add (by decide +kernel)) (.cons (.insertString 0 0)
        (.cons (.insertString 0 1) .nil))))

end Forest

end BitTrie
