import BitTrie.Arrangements
import Mathlib.Data.List.Permutation
import Mathlib.Data.Nat.Factorial.Basic

/-!
# What a search for arrangements visits

The search keeps its draft in two buffers, and undoes by hand what it does to them.  So what it
visits from a draft is known only together with the draft that it leaves behind, which is the one
that it was given.  From there on it goes through the positions that are free, in ascending order,
each time without the one taken: that is dictionary order, and leaves no order out.

## Main definitions

* `Draft.free` — the positions that are not taken.
* `ordersOf` — the orders of positions, from which the arrangements are read.

## Main results

* `arrangeFrom_unfold` — the search goes by the length of the draft.
* `arrangeFrom_eq` — **from any draft**, the search visits the orders of the free positions, and
  leaves the draft as it was.
* `pairwise_ordersOf`, `mem_ordersOf`, `length_ordersOf` — these ascend, are all there are, and
  have the factorial as their number.
* `forEachArrangement_visits` — **the search visits every order once**, in dictionary order.
-/

namespace BitTrie

variable {α : Type} {n k : Nat} {m : Type → Type}

/-! ### Free positions -/

namespace Draft

/-- The positions that are not taken, in ascending order. -/
def free (d : Draft α n) : List (Fin n) := (List.finRange n).filter fun i => !d.isTaken i

theorem free_blank (α : Type) (n : Nat) : (blank α n).free = List.finRange n := by
  simp [free, isTaken, blank]

theorem isTaken_take (d : Draft α n) (i j : Fin n) (x : α) :
    (d.take i x).isTaken j = (j == i || d.isTaken j) := by
  by_cases h : j = i
  · simp [isTaken, take, h]
  · have hne : (i : Nat) ≠ j := fun heq => h (Fin.ext heq.symm)
    simp [isTaken, take, h, Vector.getElem_set_ne, hne]

/-- To take a position is to have one free position less. -/
theorem free_take (d : Draft α n) (i : Fin n) (x : α) : (d.take i x).free = d.free.erase i := by
  have hnodup : d.free.Nodup := (List.nodup_finRange n).filter _
  rw [hnodup.erase_eq_filter, free, free, List.filter_filter]
  refine List.filter_congr fun j _ => ?_
  rw [isTaken_take, Bool.not_or]
  rfl

end Draft

/-! ### Orders of positions -/

/-- The orders of `k` of the positions given, those with an earlier first position first. -/
def ordersOf : (k : Nat) → List (Fin n) → List (List (Fin n))
  | 0, _ => [[]]
  | k + 1, free => free.flatMap fun i => (ordersOf k (free.erase i)).map (i :: ·)

/-- The orders of ascending positions ascend, as lists do in a dictionary. -/
theorem pairwise_ordersOf (k : Nat) {free : List (Fin n)} (h : free.Pairwise (· < ·)) :
    (ordersOf k free).Pairwise (· < ·) := by
  induction k generalizing free with
  | zero => exact List.pairwise_singleton _ _
  | succ k ih =>
    rw [ordersOf, List.pairwise_flatMap]
    constructor
    · intro i _
      rw [List.pairwise_map]
      exact (ih (h.sublist List.erase_sublist)).imp fun hlt =>
        List.cons_lt_cons_iff.mpr (Or.inr ⟨rfl, hlt⟩)
    · refine h.imp ?_
      intro i j hlt p hp q hq
      obtain ⟨p, -, rfl⟩ := List.mem_map.mp hp
      obtain ⟨q, -, rfl⟩ := List.mem_map.mp hq
      exact List.cons_lt_cons_iff.mpr (Or.inl hlt)

/-- No order is left out. -/
theorem mem_ordersOf {free p : List (Fin n)} : p ∈ ordersOf free.length free ↔ p.Perm free := by
  generalize hk : free.length = k
  induction k generalizing free p with
  | zero =>
    obtain rfl := List.eq_nil_of_length_eq_zero hk
    rw [ordersOf, List.mem_singleton, List.perm_nil]
  | succ k ih =>
    have hrest : ∀ i ∈ free, ∀ q, q ∈ ordersOf k (free.erase i) ↔ q.Perm (free.erase i) := by
      intro i hi q
      refine ih ?_
      rw [List.length_erase_of_mem hi, hk, Nat.add_sub_cancel]
    rw [ordersOf, List.mem_flatMap]
    constructor
    · rintro ⟨i, hi, hp⟩
      obtain ⟨q, hq, rfl⟩ := List.mem_map.mp hp
      exact List.cons_perm_iff_perm_erase.mpr ⟨hi, (hrest i hi q).mp hq⟩
    · intro hp
      cases p with
      | nil =>
        rw [← hp.length_eq] at hk
        cases hk
      | cons i q =>
        obtain ⟨hi, hq⟩ := List.cons_perm_iff_perm_erase.mp hp
        exact ⟨i, hi, List.mem_map_of_mem ((hrest i hi q).mpr hq)⟩

/-- Of all positions, the orders are their permutations. -/
theorem mem_ordersOf_finRange {p : List (Fin n)} :
    p ∈ ordersOf n (List.finRange n) ↔ p.Perm (List.finRange n) := by
  have hmem : p ∈ ordersOf (List.finRange n).length (List.finRange n) ↔
    p.Perm (List.finRange n) := mem_ordersOf
  rwa [List.length_finRange] at hmem

/-- There are as many orders as the factorial says. -/
theorem length_ordersOf (n : Nat) : (ordersOf n (List.finRange n)).length = n.factorial := by
  have hnodup : (ordersOf n (List.finRange n)).Nodup := by
    refine List.Pairwise.imp ?_ (pairwise_ordersOf n (List.pairwise_lt_finRange n))
    rintro p q hlt rfl
    exact List.lt_irrefl p hlt
  have hperm : (ordersOf n (List.finRange n)).Perm (List.finRange n).permutations := by
    rw [List.perm_ext_iff_of_nodup hnodup (List.nodup_permutations _ (List.nodup_finRange n))]
    intro p
    rw [mem_ordersOf_finRange, List.mem_permutations]
  rw [hperm.length_eq, List.length_permutations, List.length_finRange]

/-! ### The search -/

/-- The places to fill are those that the draft is short of: one as long as the list is handed to
the visitor, and in any other the next place is filled. -/
theorem arrangeFrom_unfold [Monad m] (items : List α) (visit : List α → m Unit) {left : Nat}
    {d : Draft α items.length} (h : d.chosen.size + left = items.length) :
    arrangeFrom items visit left d =
      if d.chosen.size = items.length then do
        visit d.chosen.toList
        return d
      else (List.finRange items.length).foldlM (fun d i => do
        if d.isTaken i then return d
        let after ← arrangeFrom items visit (left - 1) (d.take i items[i])
        return after.putBack i) d := by
  cases left with
  | zero =>
    have hfull : d.chosen.size = items.length := h
    rw [if_pos hfull]
    rfl
  | succ left =>
    have hshort : d.chosen.size ≠ items.length := by omega
    rw [if_neg hshort]
    rfl

section

variable [Monad m] [LawfulMonad m]

/-- A loop whose every turn leaves the state as it was is a loop over its effects. -/
theorem foldlM_of_restores {σ ι : Type} {body : σ → ι → m σ} {effect : ι → m Unit} {s : σ}
    (h : ∀ i, body s i = do effect i; return s) (is : List ι) :
    is.foldlM body s = do forM is effect; return s := by
  induction is with
  | nil => simp
  | cons i is ih => simp [h, ih]

theorem forM_flatMap {ι κ : Type} (is : List ι) (f : ι → List κ) (visit : κ → m Unit) :
    forM (is.flatMap f) visit = forM is fun i => forM (f i) visit := by
  induction is with
  | nil => simp
  | cons i is ih => simp [ih]

theorem forM_filter {ι : Type} (is : List ι) (p : ι → Bool) (visit : ι → m Unit) :
    forM (is.filter p) visit = forM is fun i => if p i then visit i else pure () := by
  induction is with
  | nil => rfl
  | cons i is ih =>
    rw [List.filter_cons]
    split
    · next h => simp [h, ih]
    · next h => simp [h, ih]

/-- **From any draft** the search visits the orders of the free positions after what has been
chosen, one by one, and leaves the draft as it was. -/
theorem arrangeFrom_eq (items : List α) (visit : List α → m Unit) (left : Nat)
    (d : Draft α items.length) :
    arrangeFrom items visit left d = do
      forM (ordersOf left d.free) fun p => visit (d.chosen.toList ++ p.map items.get)
      return d := by
  induction left generalizing d with
  | zero => simp [arrangeFrom, ordersOf]
  | succ left ih =>
    -- a position that is taken is passed; one that is free is taken, and put back afterwards
    have hturn : ∀ i : Fin items.length, (do
        if d.isTaken i then return d
        let after ← arrangeFrom items visit left (d.take i items[i])
        return after.putBack i) = do
      (if !d.isTaken i then
        forM (ordersOf left (d.free.erase i)) fun p =>
          visit (d.chosen.toList ++ (i :: p).map items.get)
      else pure ())
      return d := by
      intro i
      cases hi : d.isTaken i with
      | true => simp
      | false =>
        simp only [Bool.false_eq_true, if_false, Bool.not_false, if_true, ih, bind_assoc, pure_bind,
          Draft.putBack_take d hi, Draft.free_take]
        simp [Draft.take]
    rw [arrangeFrom, foldlM_of_restores hturn, ordersOf, forM_flatMap, Draft.free, forM_filter]
    simp only [List.forM_map]

/-- The search goes through the orders of all positions. -/
theorem forEachArrangement_eq (items : List α) (visit : List α → m Unit) :
    forEachArrangement items visit =
      forM (ordersOf items.length (List.finRange items.length)) fun p =>
        visit (p.map items.get) := by
  rw [forEachArrangement, arrangeFrom_eq, Draft.free_blank]
  simp [Draft.blank]

end

/-- A visitor that collects what it is handed collects all of it. -/
theorem run_forM_push {ι β : Type} (is : List ι) (f : ι → β) (seen : Array β) :
    ((forM is fun i => modify (·.push (f i)) : StateM (Array β) Unit).run seen).2.toList =
      seen.toList ++ is.map f := by
  induction is generalizing seen with
  | nil => exact (List.append_nil _).symm
  | cons i is ih => simp [ih]

/-- **The search visits every order once**, in dictionary order.  There are `n!` orders of the `n`
positions of a list; whatever the visitor does, it is called for each of them in turn, the
smallest first, with the items of these positions; and no buffer of the search shows in any. -/
theorem forEachArrangement_visits (items : List α) :
    ∃ orders : List (List (Fin items.length)),
      orders.length = items.length.factorial ∧ orders.Pairwise (· < ·) ∧
      (∀ p, p ∈ orders ↔ p.Perm (List.finRange items.length)) ∧
      (∀ (m : Type → Type) [Monad m] [LawfulMonad m] (visit : List α → m Unit),
        forEachArrangement items visit = forM orders fun p => visit (p.map items.get)) ∧
      arrangements items = orders.map fun p => p.map items.get := by
  refine ⟨ordersOf items.length (List.finRange items.length), length_ordersOf _,
    pairwise_ordersOf _ (List.pairwise_lt_finRange _), fun p => mem_ordersOf_finRange, ?_, ?_⟩
  · intro m _ _ visit
    exact forEachArrangement_eq items visit
  · rw [arrangements, forEachArrangement_eq, run_forM_push]
    rfl

/-- Three items of which two are equal have six arrangements, each of them twice. -/
theorem forEachArrangement_visits_bab :
    (∃ orders : List (List (Fin 3)), orders.length = 6 ∧
      ∀ visit : List Char → StateM Nat Unit, forEachArrangement ['b', 'a', 'b'] visit =
        forM orders fun p => visit (p.map ['b', 'a', 'b'].get)) ∧
    arrangements ['b', 'a', 'b'] = [['b', 'a', 'b'], ['b', 'b', 'a'], ['a', 'b', 'b'],
      ['a', 'b', 'b'], ['b', 'b', 'a'], ['b', 'a', 'b']] := by
  obtain ⟨orders, hlength, -, -, hvisits, -⟩ := forEachArrangement_visits ['b', 'a', 'b']
  exact ⟨⟨orders, hlength, hvisits (StateM Nat)⟩, by decide⟩

end BitTrie
