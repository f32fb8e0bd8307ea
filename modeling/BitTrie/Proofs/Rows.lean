import BitTrie.Index
import BitTrie.Proofs.Groups
import Mathlib.Data.List.Find
import Mathlib.Data.List.Induction
import Mathlib.Data.List.Sort

/-!
# Groups as the rows of an index

Where every record has a name, and an insertion looks for agreement just where names are the same,
the groups of a tree are the rows of a sorted index: the name of the oldest entry is the key of the
row, and the members are its slots.  What an insertion does to the groups is then to enter a slot,
and a lookup reads a row.

## Main definitions

* `Group.row` — a group as a row.
* `Index.insert` — enter a slot, or turn it down where every key is held once.
* `Index.ofHistory` — the index of several records.

## Main results

* `Row.eq_of_subset` — rows that are all among others, and have no fewer slots, are all of them.
* `Row.enter_append` — a slot is entered behind the rows whose keys come before its own.
* `Index.slotsOf_ofHistory` — which slots an index has under a key.
* `Entered.insert_eq` — **what an insertion does to the groups is what it does to the rows**.
* `Index.find?_groups_eq`, `Index.first_eq` — what is read off them is the same.
-/

namespace BitTrie

/-- A group as a row, named after its oldest entry. -/
def Group.row (name : Slot → Key) (g : Group) : Row := ⟨name g.oldest, g.members⟩

/-- The slots of the rows are the members of the groups. -/
theorem Group.total_rows (name : Slot → Key) (gs : List Group) :
    Row.total (gs.map (row name)) = (gs.flatMap members).length := by
  induction gs with
  | nil => rfl
  | cons g gs ih => rw [List.map_cons, Row.total, ih, List.flatMap_cons, List.length_append]; rfl

/-! ### Rows -/

namespace Row

variable {key : Key} {i : Slot} {r : Row} {before after rows : List Row}

/-- A slot is entered behind the rows whose keys come before its own. -/
theorem enter_append (h : ∀ s ∈ before, s.key.before key = true) (rows : List Row) :
    enter key i (before ++ rows) = before ++ enter key i rows := by
  induction before with
  | nil => rfl
  | cons s before ih =>
    have hs : s.key.before key = true := h s List.mem_cons_self
    have hne : key ≠ s.key := by
      intro heq
      rw [heq, Key.before_irrefl] at hs
      cases hs
    have hnot : ¬ key.before s.key = true := by
      intro hlt
      have hirrefl := Key.before_trans hs hlt
      rw [Key.before_irrefl] at hirrefl
      cases hirrefl
    rw [List.cons_append, enter, if_neg hne, if_neg hnot,
      ih fun s hs => h s (List.mem_cons_of_mem _ hs), List.cons_append]

/-- A key that is there gets one slot more. -/
theorem enter_present (h : ∀ s ∈ before, s.key.before key = true) (hr : r.key = key) :
    enter key i (before ++ r :: after) = before ++ ⟨key, r.slots ++ [i]⟩ :: after := by
  rw [enter_append h, enter, if_pos hr.symm]

/-- A key that is not there gets a row of its own. -/
theorem enter_absent (hbefore : ∀ s ∈ before, s.key.before key = true)
    (hafter : ∀ s ∈ after, key.before s.key = true) :
    enter key i (before ++ after) = before ++ ⟨key, [i]⟩ :: after := by
  rw [enter_append hbefore]
  cases after with
  | nil => rfl
  | cons s after =>
    have hs := hafter s List.mem_cons_self
    have hne : key ≠ s.key := by
      intro heq
      rw [← heq, Key.before_irrefl] at hs
      cases hs
    rw [enter, if_neg hne, if_pos hs]

/-- Other keys are not touched. -/
theorem find?_enter_of_ne {other : Key} (hne : other ≠ key) (rows : List Row) :
    (enter key i rows).find? (fun s => s.key == other) =
      rows.find? fun s => s.key == other := by
  have hskip : ∀ slots (rows : List Row), (⟨key, slots⟩ :: rows).find? (fun s => s.key == other) =
      rows.find? fun s => s.key == other := fun slots rows =>
    List.find?_cons_of_neg (by rw [beq_iff_eq]; exact Ne.symm hne)
  induction rows with
  | nil => exact hskip [i] []
  | cons s rows ih =>
    unfold enter
    split
    · next heq =>
      subst heq
      exact (hskip _ rows).trans (hskip s.slots rows).symm
    · split
      · exact hskip _ _
      · rw [List.find?_cons, List.find?_cons, ih]

theorem mem_enter_of_absent (h : ∀ s ∈ rows, s.key ≠ key) : ⟨key, [i]⟩ ∈ enter key i rows := by
  induction rows with
  | nil => exact List.mem_singleton_self _
  | cons s rows ih =>
    rw [enter, if_neg (Ne.symm (h s List.mem_cons_self))]
    split
    · exact List.mem_cons_self
    · exact List.mem_cons_of_mem _ (ih fun s hs => h s (List.mem_cons_of_mem _ hs))

theorem total_le_of_sublist {rows rows' : List Row} (h : rows.Sublist rows') :
    total rows ≤ total rows' := by
  induction h with
  | slnil => exact Nat.le_refl _
  | cons r h ih => exact Nat.le_trans ih (Nat.le_add_left _ _)
  | cons_cons r h ih => exact Nat.add_le_add_left ih _

/-- Rows that are left out make fewer slots, if every row has some. -/
theorem eq_of_sublist {rows rows' : List Row} (h : rows.Sublist rows')
    (hslots : ∀ r ∈ rows', r.slots ≠ []) (htotal : total rows' ≤ total rows) : rows = rows' := by
  induction h with
  | slnil => rfl
  | cons r h ih =>
    have hpos := List.length_pos_iff.mpr (hslots r List.mem_cons_self)
    have hle := total_le_of_sublist h
    rw [total] at htotal
    omega
  | cons_cons r h ih =>
    rw [total, total] at htotal
    rw [ih (fun s hs => hslots s (List.mem_cons_of_mem _ hs)) (by omega)]

/-- **Rows that are all among others, and have no fewer slots, are all of them**, both being in
order. -/
theorem eq_of_subset {rows rows' : List Row} (hsub : rows ⊆ rows')
    (h : rows.Pairwise fun r s => r.key.before s.key = true)
    (h' : rows'.Pairwise fun r s => r.key.before s.key = true)
    (hslots : ∀ r ∈ rows', r.slots ≠ []) (htotal : total rows' ≤ total rows) : rows = rows' := by
  have hne : ∀ {r s : Row}, r.key.before s.key = true → r ≠ s := by
    rintro r _ hlt rfl
    rw [Key.before_irrefl] at hlt
    cases hlt
  have : Std.Antisymm fun r s : Row => r.key.before s.key = true :=
    ⟨fun r s hrs hsr => absurd rfl (hne (Key.before_trans hrs hsr))⟩
  exact eq_of_sublist (List.sublist_of_subperm_of_pairwise
    (List.subperm_of_subset (h.imp hne) hsub) h h') hslots htotal

end Row

/-! ### Indexes -/

namespace Index

/-- Enter a slot under a key.  Where every key is held once, a key that is there is turned down,
and its slot stands for the new one as well. -/
def insert (x : Index) (unique : Bool) (key : Key) (i : Slot) : Slot × Index :=
  match unique, x.slotsOf key with
  | true, first :: _ => (first, x)
  | _, _ => (i, x.add key i)

variable {x : Index} {unique : Bool} {key : Key} {i : Slot} {r : Row} {before after : List Row}

theorem insert_of_cons {first : Slot} {later : List Slot} (h : x.slotsOf key = first :: later)
    (i : Slot) : x.insert true key i = (first, x) := by
  simp only [insert, h]

theorem insert_of_add (h : unique = true → x.slotsOf key = []) (i : Slot) :
    x.insert unique key i = (i, x.add key i) := by
  cases unique with
  | false => rfl
  | true => simp only [insert, h rfl]

/-- A slot is turned down, or added. -/
theorem insert_cases (x : Index) (unique : Bool) (key : Key) (i : Slot) :
    (unique = true ∧ ∃ first later, x.slotsOf key = first :: later ∧
      x.insert unique key i = (first, x)) ∨
    ((unique = true → x.slotsOf key = []) ∧ x.insert unique key i = (i, x.add key i)) := by
  cases unique with
  | false => exact Or.inr ⟨fun h => absurd h Bool.false_ne_true, rfl⟩
  | true =>
    cases hslots : x.slotsOf key with
    | nil => exact Or.inr ⟨fun _ => rfl, insert_of_add (fun _ => hslots) i⟩
    | cons first later => exact Or.inl ⟨rfl, first, later, rfl, insert_of_cons hslots i⟩

theorem mem_of_slotsOf (h : i ∈ x.slotsOf key) : ∃ r ∈ x.rows, r.key = key ∧ i ∈ r.slots := by
  unfold slotsOf at h
  cases hfind : x.rows.find? (fun r => r.key == key) with
  | none =>
    rw [hfind] at h
    exact absurd h List.not_mem_nil
  | some r =>
    rw [hfind] at h
    have hkey : (r.key == key) = true := List.find?_some (p := fun r : Row => r.key == key) hfind
    exact ⟨r, List.mem_of_find?_eq_some hfind, eq_of_beq hkey, h⟩

/-- The keys of the rows above a row come before its own. -/
theorem before_of_rows (hx : x.rows = before ++ r :: after) :
    ∀ s ∈ before, s.key.before r.key = true := by
  intro s hs
  have hsorted := x.sorted
  rw [hx] at hsorted
  exact (List.pairwise_append.mp hsorted).2.2 s hs r List.mem_cons_self

theorem rows_add (x : Index) (key : Key) (i : Slot) :
    (x.add key i).rows = Row.enter key i x.rows := rfl

theorem slotsOf_of_rows (hx : x.rows = before ++ r :: after) : x.slotsOf r.key = r.slots := by
  have hnone : before.find? (fun s => s.key == r.key) = none := by
    apply List.find?_eq_none.mpr
    intro s hs
    have hlt := before_of_rows hx s hs
    rw [beq_iff_eq]
    intro heq
    rw [heq, Key.before_irrefl] at hlt
    cases hlt
  have hfound : (r :: after).find? (fun s => s.key == r.key) = some r :=
    List.find?_cons_of_pos (beq_self_eq_true r.key)
  rw [slotsOf, hx, List.find?_append, hnone, Option.none_or, hfound]
  rfl

theorem slotsOf_eq_nil (h : ∀ s ∈ x.rows, s.key ≠ key) : x.slotsOf key = [] := by
  have hnone : x.rows.find? (fun s => s.key == key) = none :=
    List.find?_eq_none.mpr fun s hs heq => h s hs (eq_of_beq heq)
  rw [slotsOf, hnone]
  rfl

theorem slotsOf_of_mem (hr : r ∈ x.rows) : x.slotsOf r.key = r.slots := by
  obtain ⟨before, after, hx⟩ := List.append_of_mem hr
  exact slotsOf_of_rows hx

/-- A slot that is added is the last of its key. -/
theorem slotsOf_add (x : Index) (key : Key) (i : Slot) :
    (x.add key i).slotsOf key = x.slotsOf key ++ [i] := by
  by_cases h : ∃ r ∈ x.rows, r.key = key
  · obtain ⟨r, hr, rfl⟩ := h
    obtain ⟨before, after, hx⟩ := List.append_of_mem hr
    have hadd : (x.add r.key i).rows = before ++ ⟨r.key, r.slots ++ [i]⟩ :: after := by
      rw [rows_add, hx, Row.enter_present (before_of_rows hx) rfl]
    rw [slotsOf_of_rows hx]
    exact slotsOf_of_rows hadd
  · have hnone : ∀ s ∈ x.rows, s.key ≠ key := fun s hs hkey => h ⟨s, hs, hkey⟩
    have hadd : (⟨key, [i]⟩ : Row) ∈ (x.add key i).rows := Row.mem_enter_of_absent hnone
    rw [slotsOf_eq_nil hnone]
    exact slotsOf_of_mem hadd

theorem slotsOf_add_of_ne {other : Key} (hne : other ≠ key) (x : Index) (i : Slot) :
    (x.add key i).slotsOf other = x.slotsOf other := by
  rw [slotsOf, rows_add, Row.find?_enter_of_ne hne]
  rfl

/-- The index of several records, each entered under its name. -/
def ofHistory (name : Slot → Key) (h : List (Slot × Nat)) : Index :=
  h.foldl (fun x e => x.add (name e.1) e.1) .empty

theorem ofHistory_append (name : Slot → Key) (h : List (Slot × Nat)) (e : Slot × Nat) :
    ofHistory name (h ++ [e]) = (ofHistory name h).add (name e.1) e.1 := by
  rw [ofHistory, List.foldl_append]
  rfl

theorem ofHistory_congr {name name' : Slot → Key} {h : List (Slot × Nat)}
    (hname : ∀ e ∈ h, name' e.1 = name e.1) : ofHistory name' h = ofHistory name h := by
  apply List.foldl_ext _ _ _
  intro x e he
  rw [hname e he]

/-- The slots of a key are the records with that name, in the order of entry. -/
theorem slotsOf_ofHistory (name : Slot → Key) (h : List (Slot × Nat)) (key : Key) :
    (ofHistory name h).slotsOf key = (h.map (·.1)).filter fun i => decide (name i = key) := by
  induction h using List.reverseRecOn with
  | nil => rfl
  | append_singleton h e ih =>
    rw [ofHistory_append, List.map_append, List.filter_append]
    by_cases hkey : name e.1 = key
    · subst hkey
      rw [slotsOf_add, ih]
      simp
    · rw [slotsOf_add_of_ne (Ne.symm hkey), ih]
      simp [hkey]

end Index

/-! ### Groups -/

section

variable {key name : Slot → Key} {gs gs' : List Group} {x : Index} {unique : Bool}
  {new r len : Nat} {k query : Key}

/-- **What an insertion does to the groups is what it does to the rows**, if names are the same
where keys agree and are ordered as keys are. -/
theorem Entered.insert_eq (h : Entered key unique new len gs r gs')
    (hx : gs.map (Group.row name) = x.rows)
    (halike : ∀ g ∈ gs, (key g.oldest).Alike (key new) len ↔ name g.oldest = name new)
    (hbelow : ∀ g ∈ gs, (key g.oldest).Precedes (key new) → name g.oldest ≠ name new →
      (name g.oldest).before (name new) = true)
    (habove : ∀ g ∈ gs, (key new).Precedes (key g.oldest) → name g.oldest ≠ name new →
      (name new).before (name g.oldest) = true) :
    r = (x.insert unique (name new) new).1 ∧
      gs'.map (Group.row name) = (x.insert unique (name new) new).2.rows := by
  -- a group that agrees is the row of the name
  have hpresent : ∀ {before after : List Group} {g : Group}, gs = before ++ g :: after →
      (key g.oldest).Alike (key new) len →
      x.rows = before.map (Group.row name) ++ g.row name :: after.map (Group.row name) ∧
        (g.row name).key = name new := by
    rintro before after g rfl hagrees
    rw [← hx, List.map_append, List.map_cons]
    exact ⟨rfl, (halike g (List.mem_append_right _ List.mem_cons_self)).mp hagrees⟩
  cases h with
  | @turnedDown before after g hunique hagrees hbefore =>
    obtain ⟨hrows, hkey⟩ := hpresent rfl hagrees
    have hslots := Index.slotsOf_of_rows hrows
    rw [hkey] at hslots
    rw [hunique, Index.insert_of_cons hslots]
    exact ⟨rfl, hx⟩
  | @joined before after g hunique hagrees hbefore =>
    obtain ⟨hrows, hkey⟩ := hpresent rfl hagrees
    have hlt := Index.before_of_rows hrows
    rw [hkey] at hlt
    rw [Index.insert_of_add (fun h => by rw [hunique] at h; cases h)]
    refine ⟨rfl, ?_⟩
    rw [Index.rows_add, hrows, Row.enter_present hlt hkey, List.map_append, List.map_cons, ← hkey]
    rfl
  | @alone before after hnone hbefore hafter =>
    -- no row has the name, so the order of the keys is that of the names
    have hne : ∀ g ∈ before ++ after, name g.oldest ≠ name new := fun g hg heq =>
      hnone g hg ((halike g hg).mpr heq)
    have hslots : x.slotsOf (name new) = [] := Index.slotsOf_eq_nil fun s hs => by
      rw [← hx] at hs
      obtain ⟨g, hg, rfl⟩ := List.mem_map.mp hs
      exact hne g hg
    rw [Index.insert_of_add (fun _ => hslots)]
    refine ⟨rfl, ?_⟩
    rw [Index.rows_add, ← hx, List.map_append, List.map_append, Row.enter_absent, List.map_cons]
    · rfl
    · intro s hs
      obtain ⟨g, hg, rfl⟩ := List.mem_map.mp hs
      have hg' := List.mem_append_left after hg
      exact hbelow g hg' (hbefore g hg) (hne g hg')
    · intro s hs
      obtain ⟨g, hg, rfl⟩ := List.mem_map.mp hs
      have hg' := List.mem_append_right before hg
      exact habove g hg' (hafter g hg) (hne g hg')

/-- A search of the groups reads a row. -/
theorem Index.find?_groups_eq (hx : gs.map (Group.row name) = x.rows)
    (halike : ∀ g ∈ gs, (key g.oldest).Alike query len ↔ name g.oldest = k) :
    (gs.find? fun g => decide ((key g.oldest).Alike query len)).map (·.oldest) =
      (x.slotsOf k).head? := by
  have hfind : gs.find? (fun g => decide ((key g.oldest).Alike query len)) =
      gs.find? ((fun s => s.key == k) ∘ Group.row name) := by
    refine List.find?_congr fun g hg => ?_
    rw [Bool.eq_iff_iff, decide_eq_true_iff, halike g hg]
    exact beq_iff_eq.symm
  rw [slotsOf, ← hx, List.find?_map, hfind]
  cases gs.find? ((fun s => s.key == k) ∘ Group.row name) <;> rfl

/-- The first slot of all is the oldest entry of the first group. -/
theorem Index.first_eq (hx : gs.map (Group.row name) = x.rows) :
    x.first = .ok (gs.head?.map (·.oldest)) := by
  rw [first, ← hx]
  cases gs <;> rfl

end

end BitTrie
