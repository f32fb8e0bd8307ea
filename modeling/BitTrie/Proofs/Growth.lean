import BitTrie.Forest
import BitTrie.Proofs.Groups
import Mathlib.Data.List.Lattice
import Mathlib.Logic.Function.Basic

/-!
# Forests under insertion

A run adds records to the store of a forest and inserts them into its trees, in any order.  After
any run every tree is sound, no two trees share a slot, and a call that is refused has changed
nothing.

## Main definitions

* `Call`, `Forest.call`, `Forest.calls` — the calls of a run.
* `Forest.fresh` — empty trees over an empty store.
* `Forest.accepts`, `Forest.history` — the records that a run hangs in a tree.
* `Store.refusal`, `Forest.refusal` — why a call is refused.
* `Forest.Stands` — **the invariant**: which shape hangs in which tree.
* `Forest.Happens` — what a call does.

## Main results

* `Forest.call_of_refusal` — a call that is refused changes nothing.
* `Forest.Stands.happens` — a call does one of three things.
* `Forest.Happens.stands` — and keeps the invariant.
* `Forest.calls_induction` — what every call keeps holds after every run.
* `Forest.stands_calls` — after every run the invariant holds.
-/

namespace BitTrie

/-- A change that users make. -/
inductive Call where
  /-- Add a record. -/
  | add (key : Key)
  /-- Insert a record over the first bytes of its key. -/
  | insert (t : Nat) (new : Slot) (len : Nat)
  /-- Insert a record by its string. -/
  | insertString (t : Nat) (new : Slot)
  deriving DecidableEq, Inhabited

/-- The tree, the record and the number of bytes of an insertion. -/
def Call.insertion? (s : Store) : Call → Option (Nat × Slot × Nat)
  | add _ => none
  | insert t new len => some (t, new, len)
  | insertString t new => some (t, new, (s.keyAt new).stringLength + 1)

/-- Why a record is not inserted into any tree, if it is not. -/
def Store.refusal (s : Store) (new : Slot) (len : Nat) : Option Fault :=
  if s.size ≤ new then some (.noSuchSlot s.size new)
  else if (s.up (.leaf new)).isSome then some (.alreadyResident new)
  else if maxKeyLength < len then some (.keyTooLong len)
  else none

namespace Forest

/-- Empty trees over an empty store. -/
def fresh (uniques : List Bool) : Forest :=
  ⟨(uniques.map fun unique => ⟨.null, unique⟩).toArray, .empty⟩

/-- Carry out a call. -/
def call (f : Forest) : Call → Outcome Slot × Forest
  | .add key => f.add key
  | .insert t new len => f.edit t (.insert new len)
  | .insertString t new => f.edit t (.insertString new)

/-- Carry out several calls; those that are refused do not stop the others. -/
def calls (f : Forest) : List Call → Forest
  | [] => f
  | c :: cs => (f.call c).2.calls cs

/-- Why a call is refused, if it is. -/
def refusal (f : Forest) (c : Call) : Option Fault :=
  match c.insertion? f.store with
  | none => if f.store.size < maxSlots then none else some (.storeFull maxSlots)
  | some (t, new, len) =>
    if t < f.trees.size then f.store.refusal new len else some (.noSuchTree t)

/-- The record that a call hangs in a tree, and the number of bytes it is inserted over. -/
def accepts (f : Forest) (t : Nat) (c : Call) : Option (Slot × Nat) :=
  match c.insertion? f.store, (f.call c).1 with
  | some (n, new, len), .ok r => if n = t ∧ r = new then some (new, len) else none
  | _, _ => none

/-- The records that a run hangs in a tree, in the order in which it does. -/
def history (f : Forest) (t : Nat) : List Call → List (Slot × Nat)
  | [] => []
  | c :: cs => (f.accepts t c).toList ++ (f.call c).2.history t cs

/-- Which shape hangs in which tree.  All are sound, no two meet a slot, and every leaf that hangs
is met by one of them. -/
structure Stands (f : Forest) (shapes : Nat → Option Shape) : Prop where
  bears : ∀ n tree, f.trees[n]? = some tree → Plot.Bears ⟨tree, f.store⟩ (shapes n)
  absent : ∀ n, f.trees[n]? = none → shapes n = none
  apart : ∀ m n t u, m ≠ n → shapes m = some t → shapes n = some u → t.leaves.Disjoint u.leaves
  resident : ∀ i, (f.store.up (.leaf i)).isSome = true → ∃ n t, shapes n = some t ∧ i ∈ t.leaves

/-- What a call does, and which shapes it leaves behind. -/
inductive Happens (f : Forest) (shapes : Nat → Option Shape) :
    Call → Outcome Slot → Forest → (Nat → Option Shape) → Prop where
  /-- A record is added. -/
  | added {key : Key} {i : Slot} {s : Store} (h : f.store.add key = .ok (i, s)) :
    Happens f shapes (.add key) (.ok i) ⟨f.trees, s⟩ shapes
  /-- A record is inserted, or turned down. -/
  | inserted {c : Call} {n new len r : Nat} {tree : Tree} {o : Option Shape} {q : Plot}
    (hc : c.insertion? f.store = some (n, new, len)) (ht : f.trees[n]? = some tree)
    (hfree : f.store.isResident new = .ok false) (hlen : len ≤ maxKeyLength)
    (h : Inserts ⟨tree, f.store⟩ new len (shapes n) r o q) :
    Happens f shapes c (.ok r) ⟨f.trees.setIfInBounds n q.tree, q.store⟩
      (Function.update shapes n o)
  /-- Nothing is changed. -/
  | refused {c : Call} {e : Fault} (h : f.refusal c = some e) :
    Happens f shapes c (.error e) f shapes

end Forest

/-! ### Adding a record -/

namespace Store

variable {s s' : Store} {k : Key} {i j : Slot}

theorem add_eq_ok (h : s.add k = .ok (i, s')) :
    i = s.size ∧ s'.entries = s.entries.push ⟨k, .detached⟩ := by
  unfold add at h
  split at h
  · cases h
    exact ⟨rfl, rfl⟩
  · cases h

theorem lt_maxSlots_of_add (h : s.add k = .ok (i, s')) : s.size < maxSlots := by
  have hle := s'.size_le
  rw [(add_eq_ok h).2, Array.size_push] at hle
  exact hle

theorem size_of_add (h : s.add k = .ok (i, s')) : s'.size = s.size + 1 := by
  rw [size, (add_eq_ok h).2, Array.size_push]
  rfl

/-- A slot that is added has a node like those that are not there. -/
theorem nodeAt_of_add (h : s.add k = .ok (i, s')) (j : Slot) : s'.nodeAt j = s.nodeAt j := by
  rw [nodeAt, nodeAt, (add_eq_ok h).2, Array.getElem?_push]
  split
  · next hj => rw [hj, Array.getElem?_eq_none (Nat.le_refl _)]; rfl
  · rfl

theorem keyAt_of_add (h : s.add k = .ok (i, s')) (j : Slot) :
    s'.keyAt j = if j = s.size then k else s.keyAt j := by
  rw [keyAt, keyAt, (add_eq_ok h).2, Array.getElem?_push]
  by_cases hj : j = s.size
  · rw [if_pos hj, if_pos (show j = s.entries.size from hj)]
    rfl
  · rw [if_neg hj, if_neg (show ¬ j = s.entries.size from hj)]

end Store

/-- A record that has just been added is in no tree. -/
theorem Store.isResident_of_add {s s' : Store} {k : Key} {i : Slot}
    (h : s.add k = .ok (i, s')) : s'.isResident i = .ok false := by
  rw [isResident_eq_ok, up, nodeAt_of_add h, size_of_add h, (add_eq_ok h).1, Child.slot_leaf,
    nodeAt_of_le (Nat.le_refl _)]
  exact ⟨Nat.lt_succ_self _, rfl⟩

/-! ### Trees that are not touched -/

/-- A sound tree does not notice changes elsewhere. -/
theorem Plot.Bears.congr {tree : Tree} {s s' : Store} {o : Option Shape}
    (h : Plot.Bears ⟨tree, s⟩ o)
    (hnode : ∀ t, o = some t → ∀ i ∈ t.leaves, s'.nodeAt i = s.nodeAt i)
    (hkey : ∀ t, o = some t → ∀ i ∈ t.leaves, s'.keyAt i = s.keyAt i) :
    Plot.Bears ⟨tree, s'⟩ o := by
  cases o with
  | none => exact h
  | some t =>
    obtain ⟨⟨htop, hhangs⟩, hsound⟩ := h
    have hnode' := hnode t rfl
    refine ⟨⟨htop, hhangs.congr ?_ ?_⟩,
      ⟨hsound.distinct, hsound.sorted.congr (hkey t rfl), hsound.single, hsound.own⟩⟩
    · intro i hi
      rw [Store.up, Store.up, Child.slot_leaf, hnode' i hi]
    · intro i hi
      have heq := hnode' i (hsound.own hi)
      refine ⟨?_, ?_, ?_⟩
      · rw [Store.up, Store.up, Child.slot_branch, heq]
      · rw [Store.levelAt, Store.levelAt, heq]
      · intro side
        rw [Store.down, Store.down, heq]

/-- A sound tree does not notice a record that is added. -/
theorem Plot.Bears.added {tree : Tree} {s s' : Store} {o : Option Shape} {k : Key} {i : Slot}
    (h : Plot.Bears ⟨tree, s⟩ o) (hadd : s.add k = .ok (i, s')) : Plot.Bears ⟨tree, s'⟩ o := by
  refine h.congr (fun t _ j _ => Store.nodeAt_of_add hadd j) ?_
  rintro t rfl j hj
  -- entries of a tree are in the store, so the added slot is none of them
  rw [Store.keyAt_of_add hadd, if_neg (Nat.ne_of_lt (h.1.2.lt_size.1 j hj))]

/-! ### Calls -/

theorem Store.refusal_eq_none {s : Store} {new len : Nat} :
    s.refusal new len = none ↔ s.isResident new = .ok false ∧ len ≤ maxKeyLength := by
  rw [isResident_eq_ok, refusal, and_assoc]
  split
  · next h => simp [Nat.not_lt.mpr h]
  · next h =>
    split
    · next hup => simp [hup]
    · next hup => split <;> simp_all

namespace Edit

variable {p : Plot} {new len : Nat} {e : Fault}

/-- An insertion that is refused changes nothing. -/
theorem insert_of_refusal (h : p.store.refusal new len = some e) :
    insert new len p = .error e p := by
  unfold Store.refusal at h
  split at h
  · next hnew =>
    obtain rfl := Option.some.inj h
    have hres : p.store.isResident new = .error (.noSuchSlot p.store.size new) := by
      rw [Store.isResident, Store.node_eq_error hnew]
      rfl
    unfold insert
    exact bind_of_error (ask_of_error hres)
  · next hnew =>
    have hlt := Nat.lt_of_not_le hnew
    split at h
    · next hup =>
      obtain rfl := Option.some.inj h
      exact insert_of_isResident (Store.isResident_eq_ok.mpr ⟨hlt, hup⟩) len
    · next hup =>
      split at h
      · next hlen =>
        obtain rfl := Option.some.inj h
        exact insert_of_tooLong (Store.isResident_eq_ok.mpr ⟨hlt, Bool.eq_false_of_not_eq_true hup⟩)
          hlen
      · cases h

/-- An insertion by string is an insertion over the bytes of the string and its terminator. -/
theorem insertString_eq (hnew : new < p.store.size) :
    insertString new p = insert new ((p.store.keyAt new).stringLength + 1) p := by
  rw [insertString, bind_of_ok (ask_of_ok (Store.key_eq_ok hnew))]

theorem insertString_of_refusal
    (h : p.store.refusal new ((p.store.keyAt new).stringLength + 1) = some e) :
    insertString new p = .error e p := by
  rcases Nat.lt_or_ge new p.store.size with hnew | hnew
  · rw [insertString_eq hnew]
    exact insert_of_refusal h
  · rw [Store.refusal, if_pos hnew] at h
    obtain rfl := Option.some.inj h
    unfold insertString
    exact bind_of_error (ask_of_error (Store.key_eq_error hnew))

end Edit

namespace Forest

variable {f f' : Forest} {shapes shapes' : Nat → Option Shape} {c : Call} {out : Outcome Slot}

/-- A forest is the same after one of its trees is put back in its place. -/
theorem setIfInBounds_self {n : Nat} {tree : Tree} (ht : f.trees[n]? = some tree) :
    (⟨f.trees.setIfInBounds n tree, f.store⟩ : Forest) = f := by
  obtain ⟨trees, s⟩ := f
  have htrees : trees.setIfInBounds n tree = trees := by
    apply Array.ext_getElem?
    intro m
    rw [Array.getElem?_setIfInBounds]
    split
    · next heq =>
      subst heq
      split
      · exact ht.symm
      · next hlt => exact (Array.getElem?_eq_none (Nat.le_of_not_lt hlt)).symm
    · rfl
  rw [htrees]

theorem edit_of_none {α : Type} {n : Nat} {e : Edit α} (ht : f.trees[n]? = none) :
    f.edit n e = (.error (.noSuchTree n), f) := by
  obtain ⟨trees, s⟩ := f
  have ht' : trees[n]? = none := ht
  simp only [edit, ht']

/-- Edits that do the same to a tree do the same to its forest. -/
theorem edit_congr {α : Type} {n : Nat} {e e' : Edit α} (h : ∀ tree, f.trees[n]? = some tree →
    e ⟨tree, f.store⟩ = e' ⟨tree, f.store⟩) : f.edit n e = f.edit n e' := by
  cases ht : f.trees[n]? with
  | none => rw [edit_of_none ht, edit_of_none ht]
  | some tree =>
    have heq := h tree ht
    rw [edit, edit]
    simp only [ht, heq]

theorem edit_of_refusal {t new len : Nat} {e : Fault} {edit : Edit Slot}
    (h : (if t < f.trees.size then f.store.refusal new len else some (.noSuchTree t)) = some e)
    (hedit : f.store.refusal new len = some e →
      ∀ tree, edit ⟨tree, f.store⟩ = .error e ⟨tree, f.store⟩) :
    f.edit t edit = (.error e, f) := by
  split at h
  · next ht =>
    have htree := Array.getElem?_eq_getElem ht
    rw [edit_of_error htree (hedit h _), setIfInBounds_self htree]
  · next ht =>
    obtain rfl := Option.some.inj h
    exact edit_of_none (Array.getElem?_eq_none (Nat.le_of_not_lt ht))

theorem refusal_add (key : Key) : f.refusal (.add key) =
    if f.store.size < maxSlots then none else some (.storeFull maxSlots) := rfl

theorem refusal_of_insertion {t new len : Nat} (hc : c.insertion? f.store = some (t, new, len)) :
    f.refusal c = if t < f.trees.size then f.store.refusal new len else some (.noSuchTree t) := by
  rw [refusal, hc]

/-- **A call that is refused changes nothing.** -/
theorem call_of_refusal {e : Fault} (h : f.refusal c = some e) : f.call c = (.error e, f) := by
  cases c with
  | add key =>
    rw [refusal_add] at h
    split at h
    · cases h
    · next hfull =>
      obtain rfl := Option.some.inj h
      have hfull' : ¬ f.store.entries.size < maxSlots := hfull
      rw [call, add, Store.add, dif_neg hfull']
  | insert t new len => exact edit_of_refusal h fun h tree => Edit.insert_of_refusal h
  | insertString t new => exact edit_of_refusal h fun h tree => Edit.insertString_of_refusal h

/-- A record that is added has the next slot. -/
theorem call_add {key : Key} (h : f.refusal (.add key) = none) :
    ∃ s, f.store.add key = .ok (f.store.size, s) ∧
      f.call (.add key) = (.ok f.store.size, ⟨f.trees, s⟩) := by
  rw [refusal_add] at h
  split at h
  · next hsize =>
    have hadd : f.store.add key = .ok (f.store.size, _) := dif_pos hsize
    refine ⟨_, hadd, ?_⟩
    rw [call, add, hadd]
  · cases h

theorem Stands.exists_tree {n : Nat} {t : Shape} (h : f.Stands shapes) (hn : shapes n = some t) :
    ∃ tree, f.trees[n]? = some tree := by
  cases ht : f.trees[n]? with
  | some tree => exact ⟨tree, rfl⟩
  | none =>
    rw [h.absent n ht] at hn
    cases hn

/-- **What a call does** to a forest that stands. -/
theorem Stands.happens (h : f.Stands shapes) (c : Call) :
    ∃ shapes', f.Happens shapes c (f.call c).1 (f.call c).2 shapes' := by
  cases href : f.refusal c with
  | some e =>
    rw [call_of_refusal href]
    exact ⟨shapes, .refused href⟩
  | none =>
    -- both kinds of insertion end in the same edit, the one by string with its own length
    have hinsert : ∀ n new len, c.insertion? f.store = some (n, new, len) →
        (new < f.store.size → f.call c = f.edit n (.insert new len)) →
        ∃ shapes', f.Happens shapes c (f.call c).1 (f.call c).2 shapes' := by
      intro n new len hc hcall
      rw [refusal_of_insertion hc] at href
      split at href
      · next hn =>
        have ht := Array.getElem?_eq_getElem hn
        obtain ⟨hfree, hlen⟩ := Store.refusal_eq_none.mp href
        obtain ⟨r, q, o, hinsert, hinserts⟩ := Edit.insert_inserts hlen (h.bears n _ ht) hfree
        rw [hcall (Store.isResident_eq_ok.mp hfree).1, edit_of_ok ht hinsert]
        exact ⟨_, .inserted hc ht hfree hlen hinserts⟩
      · cases href
    cases c with
    | add key =>
      obtain ⟨s, hadd, hcall⟩ := call_add href
      rw [hcall]
      exact ⟨shapes, .added hadd⟩
    | insert n new len => exact hinsert n new len rfl fun _ => rfl
    | insertString n new =>
      exact hinsert n new _ rfl fun hnew => edit_congr fun _ _ => Edit.insertString_eq hnew

section

variable {n new len r : Nat} {tree : Tree} {o : Option Shape} {q : Plot}

/-- A leaf of another tree is not touched by an insertion. -/
theorem Stands.not_mem_of_ne (hf : f.Stands shapes) (hfree : f.store.isResident new = .ok false)
    {m : Nat} {t : Shape} (hmn : m ≠ n) (hm : shapes m = some t) {i : Slot} (hi : i ∈ t.leaves) :
    i ≠ new ∧ ∀ u, shapes n = some u → i ∉ u.leaves := by
  refine ⟨?_, fun u hn hiu => hf.apart m n t u hmn hm hn hi hiu⟩
  intro heq
  obtain ⟨tree', ht'⟩ := hf.exists_tree hm
  have hbears := hf.bears m tree' ht'
  rw [hm] at hbears
  exact hbears.1.2.not_mem_of_free hfree (heq ▸ hi)

theorem Stands.bears_inserted (hf : f.Stands shapes) (ht : f.trees[n]? = some tree)
    (hfree : f.store.isResident new = .ok false)
    (hins : Inserts ⟨tree, f.store⟩ new len (shapes n) r o q) {m : Nat} {tree' : Tree}
    (ht' : (f.trees.setIfInBounds n q.tree)[m]? = some tree') :
    Plot.Bears ⟨tree', q.store⟩ (Function.update shapes n o m) := by
  have hnlt : n < f.trees.size := (Array.getElem?_eq_some_iff.mp ht).1
  have hbears := hf.bears n tree ht
  by_cases hmn : m = n
  · subst hmn
    rw [Array.getElem?_setIfInBounds_self_of_lt hnlt, Option.some.injEq] at ht'
    subst ht'
    rw [Function.update_self]
    exact hins.bears hbears hfree
  -- another tree does not notice, since the two share no slot
  · rw [Array.getElem?_setIfInBounds_ne (Ne.symm hmn)] at ht'
    rw [Function.update_of_ne hmn]
    refine (hf.bears m tree' ht').congr ?_ fun t hm i hi => hins.keyAt i
    intro t hm i hi
    obtain ⟨hne, hnot⟩ := hf.not_mem_of_ne hfree hmn hm hi
    exact hins.nodeAt_eq hbears hne hnot

theorem Stands.absent_inserted (hf : f.Stands shapes) (ht : f.trees[n]? = some tree) {m : Nat}
    (hm : (f.trees.setIfInBounds n q.tree)[m]? = none) : Function.update shapes n o m = none := by
  have hnlt : n < f.trees.size := (Array.getElem?_eq_some_iff.mp ht).1
  have hmn : m ≠ n := by
    rintro rfl
    rw [Array.getElem?_setIfInBounds_self_of_lt hnlt] at hm
    cases hm
  rw [Array.getElem?_setIfInBounds_ne (Ne.symm hmn)] at hm
  rw [Function.update_of_ne hmn]
  exact hf.absent m hm

theorem Stands.apart_inserted (hf : f.Stands shapes)
    (hfree : f.store.isResident new = .ok false)
    (hins : Inserts ⟨tree, f.store⟩ new len (shapes n) r o q) {m m' : Nat} {t u : Shape}
    (hne : m ≠ m') (hm : Function.update shapes n o m = some t)
    (hm' : Function.update shapes n o m' = some u) : t.leaves.Disjoint u.leaves := by
  -- what is new in the tree is in no other, and the rest was apart before
  have hapart : ∀ m t u, m ≠ n → shapes m = some t → o = some u → t.leaves.Disjoint u.leaves := by
    intro m t u hmn hm ho i hi hiu
    obtain ⟨hne, hnot⟩ := hf.not_mem_of_ne hfree hmn hm hi
    rcases hins.mem_leaves ho hiu with heq | ⟨v, hv, hiv⟩
    · exact hne heq
    · exact hnot v hv hiv
  by_cases hmn : m = n
  · subst hmn
    rw [Function.update_self] at hm
    rw [Function.update_of_ne hne.symm] at hm'
    exact (hapart m' u t hne.symm hm' hm).symm
  · rw [Function.update_of_ne hmn] at hm
    by_cases hmn' : m' = n
    · subst hmn'
      rw [Function.update_self] at hm'
      exact hapart m t u hmn hm hm'
    · rw [Function.update_of_ne hmn'] at hm'
      exact hf.apart m m' t u hne hm hm'

/-- A leaf that hangs after an insertion is of the tree, or has not been touched. -/
theorem Stands.resident_inserted (hf : f.Stands shapes) (ht : f.trees[n]? = some tree)
    (hins : Inserts ⟨tree, f.store⟩ new len (shapes n) r o q) {i : Slot}
    (hi : (q.store.up (.leaf i)).isSome = true) :
    ∃ m t, Function.update shapes n o m = some t ∧ i ∈ t.leaves := by
  by_cases hmem : ∃ t', o = some t' ∧ i ∈ t'.leaves
  · obtain ⟨t', ho, hit⟩ := hmem
    exact ⟨n, t', by rw [Function.update_self]; exact ho, hit⟩
  · have hkept : ∀ u, shapes n = some u → i ∉ u.leaves := by
      intro u hu hiu
      obtain ⟨t', ho, hit⟩ := hins.mem_leaves_of_mem hu hiu
      exact hmem ⟨t', ho, hit⟩
    -- a leaf that is not of the tree has the node it had
    have hup : q.store.up (.leaf i) = f.store.up (.leaf i) := by
      by_cases hnew : i = new
      · rcases hins.leaves with ⟨-, t', ho, hperm⟩ | ⟨hq, -⟩
        · exact absurd ⟨t', ho, hperm.mem_iff.mpr (hnew ▸ List.mem_cons_self)⟩ hmem
        · rw [hq]
      · rw [Store.up, Store.up, Child.slot_leaf, hins.nodeAt_eq (hf.bears n tree ht) hnew hkept]
    obtain ⟨m, t, hm, hit⟩ := hf.resident i (hup ▸ hi)
    have hmn : m ≠ n := by
      rintro rfl
      exact hkept t hm hit
    exact ⟨m, t, by rw [Function.update_of_ne hmn]; exact hm, hit⟩

theorem Stands.added (hf : f.Stands shapes) {key : Key} {i : Slot} {s : Store}
    (hadd : f.store.add key = .ok (i, s)) : Stands ⟨f.trees, s⟩ shapes := by
  refine ⟨fun n tree ht => (hf.bears n tree ht).added hadd, hf.absent, hf.apart, ?_⟩
  · intro j hj
    rw [Store.up, Store.nodeAt_of_add hadd] at hj
    exact hf.resident j hj

end

/-- **What a call leaves behind stands.** -/
theorem Happens.stands (h : f.Happens shapes c out f' shapes') (hf : f.Stands shapes) :
    f'.Stands shapes' := by
  cases h with
  | refused h => exact hf
  | added hadd => exact hf.added hadd
  | inserted hc ht hfree hlen hins =>
    exact ⟨fun m tree' ht' => hf.bears_inserted ht hfree hins ht',
      fun m hm => hf.absent_inserted ht hm,
      fun m m' t u hne hm hm' => hf.apart_inserted hfree hins hne hm hm',
      fun i hi => hf.resident_inserted ht hins hi⟩

/-- An insertion leaves all keys alone. -/
theorem Happens.keyAt_of_insertion (h : f.Happens shapes c out f' shapes') {e : Nat × Slot × Nat}
    (hc : c.insertion? f.store = some e) :
    f'.store.size = f.store.size ∧ ∀ i, f'.store.keyAt i = f.store.keyAt i := by
  cases h with
  | refused h => exact ⟨rfl, fun i => rfl⟩
  | added hadd => cases hc
  | inserted hc' ht hfree hlen hins => exact ⟨hins.size, hins.keyAt⟩

/-- The outcome of a call tells whether it was refused, and why. -/
theorem Happens.refusal_eq (h : f.Happens shapes c out f' shapes') :
    f.refusal c = match out with
      | .ok _ => none
      | .error e => some e := by
  cases h with
  | refused h => exact h
  | added hadd => rw [refusal_add, if_pos (Store.lt_maxSlots_of_add hadd)]
  | inserted hc ht hfree hlen hins =>
    rw [refusal_of_insertion hc, if_pos (Array.getElem?_eq_some_iff.mp ht).1]
    exact Store.refusal_eq_none.mpr ⟨hfree, hlen⟩

theorem Happens.size_trees (h : f.Happens shapes c out f' shapes') :
    f'.trees.size = f.trees.size := by
  cases h with
  | refused h => rfl
  | added hadd => rfl
  | inserted hc ht hfree hlen hins => exact Array.size_setIfInBounds

/-- Keys of records that are there stay, and so do the records. -/
theorem Happens.keyAt (h : f.Happens shapes c out f' shapes') :
    f.store.size ≤ f'.store.size ∧
      ∀ i, i < f.store.size → f'.store.keyAt i = f.store.keyAt i := by
  cases h with
  | refused h => exact ⟨Nat.le_refl _, fun i _ => rfl⟩
  | added hadd =>
    constructor
    · rw [Store.size_of_add hadd]
      exact Nat.le_succ _
    · intro i hi
      rw [Store.keyAt_of_add hadd, if_neg (Nat.ne_of_lt hi)]
  | inserted hc ht hfree hlen hins =>
    exact ⟨Nat.le_of_eq hins.size.symm, fun i _ => hins.keyAt i⟩

/-! ### Runs -/

/-- **What every call keeps holds after every run**, of the forest and of the records that were
hung in one of its trees. -/
theorem calls_induction {t : Nat} {P : Forest → List (Slot × Nat) → Prop} {cs : List Call}
    (hstep : ∀ f shapes c h, c ∈ cs → f.Stands shapes → P f h →
      P (f.call c).2 (h ++ (f.accepts t c).toList))
    {f : Forest} {shapes : Nat → Option Shape} (hf : f.Stands shapes) {h : List (Slot × Nat)}
    (hP : P f h) : P (f.calls cs) (h ++ f.history t cs) := by
  induction cs generalizing f shapes h with
  | nil =>
    rw [calls, history, List.append_nil]
    exact hP
  | cons c cs ih =>
    obtain ⟨shapes', hhappens⟩ := hf.happens c
    rw [calls, history, ← List.append_assoc]
    exact ih (fun f shapes c' h hc' => hstep f shapes c' h (List.mem_cons_of_mem _ hc'))
      (hhappens.stands hf) (hstep f shapes c h List.mem_cons_self hf hP)

theorem stands_calls_of {f : Forest} {shapes : Nat → Option Shape} (hf : f.Stands shapes)
    (cs : List Call) : ∃ shapes', (f.calls cs).Stands shapes' := by
  induction cs generalizing f shapes with
  | nil => exact ⟨shapes, hf⟩
  | cons c cs ih =>
    obtain ⟨shapes', hhappens⟩ := hf.happens c
    exact ih (hhappens.stands hf)

theorem stands_fresh (uniques : List Bool) : (fresh uniques).Stands fun _ => Option.none := by
  refine ⟨?_, fun n _ => rfl, fun m n t u _ h => absurd h (by simp), ?_⟩
  · intro n tree ht
    have htree : tree ∈ (fresh uniques).trees.toList := by
      rw [Array.mem_toList_iff]
      exact Array.mem_of_getElem? ht
    obtain ⟨unique, -, rfl⟩ := List.mem_map.mp htree
    rfl
  · intro i hi
    rw [Store.up, Store.nodeAt_of_le (Nat.zero_le _)] at hi
    cases hi

/-- **The invariant** holds after every run. -/
theorem stands_calls (uniques : List Bool) (cs : List Call) :
    ∃ shapes, ((fresh uniques).calls cs).Stands shapes :=
  stands_calls_of (stands_fresh uniques) cs

end Forest

end BitTrie
