import BitTrie.Proofs.Rows
import BitTrie.Proofs.Terminated

/-!
# Keys that start alike

In dictionary order the keys that start with given bytes stand together, and right behind the keys
that come before these bytes.  So one look at the first key that is not before them tells whether
any key starts with them.

## Main results

* `Index.oldestWithPrefix_eq` — **one look is enough**.
* `Key.startsWith_truncate_iff` — to start with the first bytes of a query is to agree over them.
* `Index.oldestWithPrefix_groups` — a search of the groups reads the same row.
-/

namespace BitTrie

/-! ### Dictionary order -/

/-- What starts with given bytes does not come before them. -/
theorem bytesBefore_of_prefix {start xs : List UInt8} (h : start <+: xs) :
    bytesBefore xs start = false := by
  obtain ⟨rest, rfl⟩ := h
  induction start with
  | nil => cases rest <;> rfl
  | cons y start ih => rw [List.cons_append, bytesBefore, if_pos rfl, ih]

/-- What stands between given bytes and something that starts with them starts with them. -/
theorem prefix_of_bytesBefore {start xs ys : List UInt8} (hys : start <+: ys)
    (hxs : bytesBefore xs start = false) (hlt : bytesBefore xs ys = true) : start <+: xs := by
  obtain ⟨rest, rfl⟩ := hys
  induction start generalizing xs with
  | nil => exact List.nil_prefix
  | cons y start ih =>
    cases xs with
    | nil => cases hxs
    | cons x xs =>
      rw [List.cons_append, bytesBefore] at hlt
      rw [bytesBefore] at hxs
      split at hlt
      · next hxy =>
        rw [if_pos hxy] at hxs
        rw [hxy, List.prefix_cons_inj]
        exact ih hxs hlt
      · next hxy =>
        rw [if_neg hxy, hlt] at hxs
        cases hxs

namespace Key

variable {a b k start query : Key} {len : Nat}

theorem startsWith_iff : k.startsWith start = true ↔ start.toList <+: k.toList := by
  rw [startsWith, ← Array.isPrefixOf_toList, List.isPrefixOf_iff_prefix]

theorem before_eq_false_of_startsWith (h : k.startsWith start = true) :
    k.before start = false := bytesBefore_of_prefix (startsWith_iff.mp h)

theorem startsWith_of_before (hk : k.startsWith start = true) (ha : a.before start = false)
    (hlt : a.before k = true) : a.startsWith start = true :=
  startsWith_iff.mpr (prefix_of_bytesBefore (startsWith_iff.mp hk) ha hlt)

/-- To start with the first bytes of a query is to agree with it over them, where both have so
many. -/
theorem startsWith_truncate_iff (hk : len ≤ k.size) (hquery : len ≤ query.size) :
    k.startsWith (query.truncate len) = true ↔ k.Alike query len := by
  have hsize : (query.truncate len).size = len := by
    rw [truncate, Array.size_extract, Nat.sub_zero, Nat.min_eq_left hquery]
  have hbyte : ∀ i, i < len → (query.truncate len).byteAt i = query.byteAt i := by
    intro i hi
    rw [byteAt_truncate, if_pos hi]
  rw [startsWith_iff, List.prefix_iff_getElem?]
  constructor
  · intro h i hi
    have hi' : i < (query.truncate len).toList.length := Nat.lt_of_lt_of_eq hi hsize.symm
    have hsame := h i hi'
    rw [← List.getElem?_eq_getElem hi', getElem?_toList (Nat.lt_of_lt_of_le hi hk),
      getElem?_toList hi', Option.some.injEq, hbyte i hi] at hsame
    exact hsame
  · intro h i hi'
    have hi : i < len := Nat.lt_of_lt_of_eq hi' hsize
    rw [← List.getElem?_eq_getElem hi', getElem?_toList (Nat.lt_of_lt_of_le hi hk),
      getElem?_toList hi', hbyte i hi, h i hi]

end Key

/-! ### Rows -/

namespace Index

variable {x : Index} {start query : Key} {len : Nat}

/-- The first row that is not before given bytes is the first that starts with them, or none
does. -/
theorem filter_find?_rows {rows : List Row}
    (h : rows.Pairwise fun r s => r.key.before s.key = true) (start : Key) :
    (rows.find? fun r => !r.key.before start).filter (fun r => r.key.startsWith start) =
      rows.find? fun r => r.key.startsWith start := by
  induction rows with
  | nil => rfl
  | cons r rows ih =>
    obtain ⟨hr, hrows⟩ := List.pairwise_cons.mp h
    cases hlt : r.key.before start with
    | true =>
      have hnot : ¬ r.key.startsWith start = true := by
        intro hstarts
        rw [Key.before_eq_false_of_startsWith hstarts] at hlt
        cases hlt
      rw [List.find?_cons, List.find?_cons, hlt, Bool.eq_false_of_not_eq_true hnot]
      exact ih hrows
    | false =>
      rw [List.find?_cons, hlt, List.find?_cons]
      cases hstarts : r.key.startsWith start with
      | true => exact Option.filter_some_pos hstarts
      | false =>
        -- a later row that starts so would make this one start so
        have hnone : rows.find? (fun s => s.key.startsWith start) = none := by
          refine List.find?_eq_none.mpr fun s hs hs' => ?_
          rw [Key.startsWith_of_before hs' hlt (hr s hs)] at hstarts
          cases hstarts
        refine Eq.trans ?_ hnone.symm
        exact Option.filter_some_neg hstarts

/-- **One look is enough**: the first row that is not before given bytes tells which row is the
first to start with them. -/
theorem oldestWithPrefix_eq (x : Index) (start : Key) : x.oldestWithPrefix start =
    match x.rows.find? fun r => r.key.startsWith start with
    | none => .ok none
    | some r => some <$> r.oldest := by
  rw [oldestWithPrefix, ← filter_find?_rows x.sorted]
  cases x.rows.find? fun r => !r.key.before start with
  | none => rfl
  | some r => cases hstarts : r.key.startsWith start <;> simp [Option.filter_some, hstarts]

/-- A search of the groups reads the first row that starts with given bytes. -/
theorem oldestWithPrefix_groups {key name : Slot → Key} {gs : List Group}
    (hx : gs.map (Group.row name) = x.rows)
    (halike : ∀ g ∈ gs, (key g.oldest).Alike query len ↔
      (name g.oldest).startsWith start = true) :
    x.oldestWithPrefix start =
      .ok ((gs.find? fun g => decide ((key g.oldest).Alike query len)).map (·.oldest)) := by
  have hfind : gs.find? (fun g => decide ((key g.oldest).Alike query len)) =
      gs.find? ((fun s => s.key.startsWith start) ∘ Group.row name) := by
    refine List.find?_congr fun g hg => ?_
    rw [Bool.eq_iff_iff, decide_eq_true_iff, halike g hg]
    rfl
  rw [oldestWithPrefix_eq, ← hx, List.find?_map, hfind]
  cases gs.find? ((fun s => s.key.startsWith start) ∘ Group.row name) <;> rfl

end Index

end BitTrie
