import BitTrie.Key
import BitTrie.Link

/-!
# Sorted indexes

An index lists slots under the keys they were entered with, the keys in dictionary order and
the slots of each key in the order of entry.  It answers the questions a tree answers, by
looking through a plain sorted list, and so serves to check a tree.

## Main definitions

* `Key.before` — the dictionary order of keys.
* `Index`, `Index.add` — sorted indexes, and entering a slot.
* `Index.total`, `Index.slotsOf` — the number of slots in all, and those of one key.
* `Index.oldestWithPrefix` — the first slot under the first key with a given prefix.

## Main results

* `Key.before_irrefl`, `Key.before_trans`, `Key.before_or_eq_or_before` — the dictionary order
  is a strict linear order.
* `Row.total_enter`, `Row.pairwise_enter` — entering a slot makes one slot more, and keeps the
  keys in order.
-/

namespace BitTrie

/-! ### The dictionary order -/

/-- Whether a byte sequence comes before another: at the first difference it has the smaller
byte, or it ends where the other goes on. -/
def bytesBefore : List UInt8 → List UInt8 → Bool
  | _, [] => false
  | [], _ :: _ => true
  | x :: xs, y :: ys => if x = y then bytesBefore xs ys else decide (x < y)

theorem bytesBefore_irrefl (xs : List UInt8) : bytesBefore xs xs = false := by
  induction xs with
  | nil => rfl
  | cons x xs ih => simp [bytesBefore, ih]

theorem bytesBefore_trans {xs ys zs : List UInt8} (hxy : bytesBefore xs ys = true)
    (hyz : bytesBefore ys zs = true) : bytesBefore xs zs = true := by
  induction xs generalizing ys zs with
  | nil =>
    cases zs with
    | nil => cases ys <;> simp [bytesBefore] at hyz
    | cons z zs => rfl
  | cons x xs ih =>
    cases ys with
    | nil => simp [bytesBefore] at hxy
    | cons y ys =>
      cases zs with
      | nil => simp [bytesBefore] at hyz
      | cons z zs =>
        by_cases hxy' : x = y
        · by_cases hyz' : y = z
          · subst hxy' hyz'
            simp only [bytesBefore, if_true] at hxy hyz ⊢
            exact ih hxy hyz
          · subst hxy'
            simpa [bytesBefore, hyz'] using hyz
        · have hlt : x < y := by simpa [bytesBefore, hxy'] using hxy
          by_cases hyz' : y = z
          · subst hyz'
            simpa [bytesBefore, hxy'] using hlt
          · have hlt' : y < z := by simpa [bytesBefore, hyz'] using hyz
            have hxz : x < z := UInt8.lt_trans hlt hlt'
            simpa [bytesBefore, UInt8.ne_of_lt hxz] using hxz

theorem bytesBefore_or_eq_or_bytesBefore (xs ys : List UInt8) :
    bytesBefore xs ys = true ∨ xs = ys ∨ bytesBefore ys xs = true := by
  induction xs generalizing ys with
  | nil => cases ys <;> simp [bytesBefore]
  | cons x xs ih =>
    cases ys with
    | nil => simp [bytesBefore]
    | cons y ys =>
      by_cases hxy : x = y
      · subst hxy
        simpa [bytesBefore] using ih ys
      · have hne : ¬ y = x := fun h => hxy h.symm
        rcases UInt8.lt_or_lt_of_ne hxy with h | h
        · simp [bytesBefore, hxy, h]
        · simp [bytesBefore, hxy, hne, h]

namespace Key

/-- Whether a key comes before another in dictionary order. -/
def before (a b : Key) : Bool := bytesBefore a.toList b.toList

/-- Whether the first bytes of a key are the given ones. -/
def startsWith (k start : Key) : Bool := start.isPrefixOf k

theorem before_irrefl (a : Key) : a.before a = false := bytesBefore_irrefl _

theorem before_trans {a b c : Key} (hab : a.before b = true) (hbc : b.before c = true) :
    a.before c = true := bytesBefore_trans hab hbc

theorem before_or_eq_or_before (a b : Key) :
    a.before b = true ∨ a = b ∨ b.before a = true := by
  rcases bytesBefore_or_eq_or_bytesBefore a.toList b.toList with h | h | h
  · exact Or.inl h
  · exact Or.inr (Or.inl (Array.toList_inj.mp h))
  · exact Or.inr (Or.inr h)

end Key

/-! ### Rows -/

/-- The slots entered with one key. -/
structure Row where
  /-- The key. -/
  key : Key
  /-- Its slots, in the order of entry. -/
  slots : List Slot
  deriving DecidableEq, Inhabited

namespace Row

/-- The first slot of a row; a row without slots is read past its end. -/
def oldest (r : Row) : Outcome Slot :=
  match r.slots with
  | i :: _ => .ok i
  | [] => .error (.noSuchSlot 0 0)

/-- The number of slots in several rows. -/
def total : List Row → Nat
  | [] => 0
  | r :: rows => r.slots.length + total rows

/-- Enter a slot into rows in dictionary order of their keys. -/
def enter (key : Key) (i : Slot) : List Row → List Row
  | [] => [⟨key, [i]⟩]
  | r :: rows =>
    if key = r.key then ⟨key, r.slots ++ [i]⟩ :: rows
    else if key.before r.key then ⟨key, [i]⟩ :: r :: rows
    else r :: enter key i rows

/-- Entering a slot makes one slot more. -/
theorem total_enter (key : Key) (i : Slot) (rows : List Row) :
    total (enter key i rows) = total rows + 1 := by
  induction rows with
  | nil => rfl
  | cons r rows ih =>
    rw [enter]
    split
    · simp only [total, List.length_append, List.length_singleton]
      omega
    · split
      · simp only [total, List.length_singleton]
        omega
      · rw [total, ih, total]
        omega

theorem key_of_mem_enter {key : Key} {i : Slot} {rows : List Row} {r : Row}
    (h : r ∈ enter key i rows) : r.key = key ∨ ∃ s ∈ rows, r.key = s.key := by
  induction rows with
  | nil => simp [enter] at h; exact Or.inl (by rw [h])
  | cons s rows ih =>
    rw [enter] at h
    split at h
    · rcases List.mem_cons.mp h with h | h
      · exact Or.inl (by rw [h])
      · exact Or.inr ⟨r, List.mem_cons_of_mem _ h, rfl⟩
    · split at h
      · rcases List.mem_cons.mp h with h | h
        · exact Or.inl (by rw [h])
        · exact Or.inr ⟨r, h, rfl⟩
      · rcases List.mem_cons.mp h with h | h
        · exact Or.inr ⟨s, List.mem_cons_self, by rw [h]⟩
        · rcases ih h with h | ⟨t, ht, hkey⟩
          · exact Or.inl h
          · exact Or.inr ⟨t, List.mem_cons_of_mem _ ht, hkey⟩

theorem pairwise_enter {key : Key} {i : Slot} {rows : List Row}
    (h : rows.Pairwise fun r s => r.key.before s.key = true) :
    (enter key i rows).Pairwise fun r s => r.key.before s.key = true := by
  induction rows with
  | nil => simp [enter]
  | cons r rows ih =>
    obtain ⟨hr, hrows⟩ := List.pairwise_cons.mp h
    rw [enter]
    split
    · next heq => exact List.pairwise_cons.mpr ⟨fun s hs => by rw [heq]; exact hr s hs, hrows⟩
    · next hne =>
      split
      · next hlt =>
        refine List.pairwise_cons.mpr ⟨fun s hs => ?_, h⟩
        rcases List.mem_cons.mp hs with hs | hs
        · rw [hs]; exact hlt
        · exact Key.before_trans hlt (hr s hs)
      · next hnlt =>
        have hgt : r.key.before key = true := by
          rcases Key.before_or_eq_or_before key r.key with h | h | h
          · exact absurd h hnlt
          · exact absurd h hne
          · exact h
        refine List.pairwise_cons.mpr ⟨fun s hs => ?_, ih hrows⟩
        rcases key_of_mem_enter hs with hs | ⟨t, ht, hkey⟩
        · rw [hs]; exact hgt
        · rw [hkey]; exact hr t ht

end Row

/-! ### Indexes -/

/-- Rows in dictionary order of their keys. -/
structure Index where
  /-- The rows. -/
  rows : List Row
  /-- Each key comes before all later ones. -/
  sorted : rows.Pairwise fun r s => r.key.before s.key = true

namespace Index

/-- An index without rows. -/
def empty : Index := ⟨[], List.Pairwise.nil⟩

instance : Inhabited Index := ⟨empty⟩

/-- Enter a slot under a key, after those already there. -/
def add (x : Index) (key : Key) (i : Slot) : Index :=
  ⟨Row.enter key i x.rows, Row.pairwise_enter x.sorted⟩

/-- The slots under a key. -/
def slotsOf (x : Index) (key : Key) : List Slot :=
  ((x.rows.find? fun r => r.key == key).map (·.slots)).getD []

/-- The number of slots in all rows. -/
def total (x : Index) : Nat := Row.total x.rows

/-- The first slot of the first row, if there is one. -/
def first (x : Index) : Outcome (Option Slot) :=
  match x.rows with
  | [] => .ok none
  | r :: _ => some <$> r.oldest

/-- The first slot of the first row whose key is not before `start`, if that key starts with
`start`. -/
def oldestWithPrefix (x : Index) (start : Key) : Outcome (Option Slot) :=
  match x.rows.find? fun r => !r.key.before start with
  | none => .ok none
  | some r => if r.key.startsWith start then some <$> r.oldest else .ok none

end Index

end BitTrie
