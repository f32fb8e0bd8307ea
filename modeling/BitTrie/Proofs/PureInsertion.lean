import BitTrie.Proofs.Insertion

/-!
# Insertion as a function on shapes

What an insertion makes of a tree depends on nothing but the shape of the tree, the keys of its
entries, and whether it holds every key once.  Said as a function on shapes, it compares the key
with the leftmost entry on the way down, as far as the next decision; where they part, the new
entry goes beside what hangs there, and otherwise the way goes on.

## Main definitions

* `Shape.full`, `Shape.append` — one more entry in a subtree of equal entries.
* `Shape.span` — as far as all entries of a shape agree.
* `Shape.enter`, `Shape.entered` — **the insertion**.

## Main results

* `Shape.Seam.append_eq` — the new entry goes where the seam is.
* `Shape.Sorted.enter_fill` — the way down goes on while the key agrees.
* `Inserts.eq_entered` — **an insertion does to a tree what the function does to its shape**.
-/

namespace BitTrie

namespace Shape

/-- Whether the right spine of a subtree of equal entries skips no level. -/
def full : Shape → Bool
  | leaf _ => true
  | branch _ b _ r => decide (r.level = b + 1) && r.full

/-- A subtree of equal entries with a new one after all others. -/
def append (new : Slot) : Shape → Shape
  | leaf i => (leaf i).graft new .right (-1)
  | branch i b l r =>
    if (branch i b l r).full then (branch i b l r).graft new .right (b - 1)
    else branch i b l (r.append new)

/-- As far as all entries of a shape agree, of the first `bits` bits of their keys. -/
def span (bits : Nat) : Shape → Nat
  | leaf _ => bits
  | branch _ b _ _ => if b < 0 then bits else min b.toNat bits

/-- How far a key agrees with the leftmost entry of a shape, when no more than its span is asked
for. -/
def agreement (key : Slot → Key) (k : Key) (bits : Nat) (t : Shape) : Nat :=
  k.firstDiff (key t.oldest) 0 (t.span bits)

/-- The insertion of `new` over the `bits` bits of the key `k`: the entry it gives, and the shape
afterwards. -/
def enter (key : Slot → Key) (unique : Bool) (new : Slot) (k : Key) (bits : Nat) :
    Shape → Slot × Shape
  | leaf i =>
    let d := (leaf i).agreement key k bits
    if d < bits then (new, (leaf i).graft new (.ofBit (k.bitAt d)) d)
    else if unique then (i, leaf i)
    else (new, (leaf i).append new)
  | branch i b l r =>
    let d := (branch i b l r).agreement key k bits
    if d < (branch i b l r).span bits then
      (new, (branch i b l r).graft new (.ofBit (k.bitAt d)) d)
    else if b < 0 then (new, (branch i b l r).append new)
    else if k.bitAt b.toNat then
      let e := r.enter key unique new k bits
      (e.1, branch i b l e.2)
    else
      let e := l.enter key unique new k bits
      (e.1, branch i b e.2 r)

/-- The insertion of `new` over `len` bytes into a tree that may be empty. -/
def entered (key : Slot → Key) (unique : Bool) (new : Slot) (len : Nat) :
    Option Shape → Slot × Option Shape
  | none => (new, some (leaf new))
  | some t =>
    let e := t.enter key unique new ((key new).truncate len) (8 * len)
    (e.1, some e.2)

/-! ### Equal entries -/

section

variable {t u : Shape} {k : Nat}

theorem Perfect.full_eq (h : Perfect k t) : t.full = true := by
  induction h with
  | leaf i => rfl
  | @branch i b l r k hlevel hown hl hr ihl ihr =>
    have hr' := hr.tied.level_eq
    rw [full, ihr, Bool.and_true, decide_eq_true_eq]
    omega

/-- A subtree of equal entries with its seam further down skips a level. -/
theorem Seam.full_eq {f : Fork} {inner : Path} (h : Seam t (f :: inner) u) : t.full = false := by
  generalize hpath : f :: inner = path at h
  induction h generalizing f inner with
  | whole h => cases hpath
  | @right i l r k m b hlevel hr hlt =>
    have hr' := hr.tied.level_eq
    rw [full, decide_eq_false (by omega), Bool.false_and]
  | @deeper i l r u b f' inner' h ih => rw [full, ih rfl, Bool.and_false]

theorem Perfect.append_eq (h : Perfect k t) (new : Slot) :
    t.append new = t.graft new .right (t.level - 1) := by
  cases t with
  | leaf i => rfl
  | branch i b l r => rw [append, if_pos h.full_eq]; rfl

/-- A new entry goes beside the first perfect part of the right side. -/
theorem Seam.append_eq {inner : Path} (h : Seam t inner u) (new : Slot) :
    t.append new = inner.fill (u.graft new .right (u.level - 1)) := by
  induction h with
  | whole h => exact h.append_eq new
  | @right i l r k m b hlevel hr hlt =>
    have hskips : ¬ (branch i b l r).full = true := by
      rw [(Seam.right hlevel hr hlt).full_eq]
      exact Bool.false_ne_true
    rw [append, if_neg hskips, hr.append_eq]
    rfl
  | @deeper i l r u b f inner h ih =>
    have hskips : ¬ (branch i b l r).full = true := by
      rw [(Seam.deeper h).full_eq]
      exact Bool.false_ne_true
    rw [append, if_neg hskips, ih, ← List.cons_append, Path.fill_append]
    rfl

theorem Tied.span_eq (h : Tied k t) (bits : Nat) : t.span bits = bits := by
  cases h with
  | leaf i => rfl
  | branch hlevel hown hl hr hle => exact if_pos (by omega)

end

/-! ### The way down -/

section

variable {key : Slot → Key} {k : Key} {bits d : Nat} {t : Shape} {unique : Bool} {new : Slot}

/-- Where the key parts from the leftmost entry, the new entry goes beside what hangs there. -/
theorem enter_of_lt (hd : d < t.span bits) (hsame : k.SameBits (key t.oldest) d)
    (hdiff : (key t.oldest).bitAt d ≠ k.bitAt d) :
    t.enter key unique new k bits = (new, t.graft new (.ofBit (k.bitAt d)) d) := by
  have hagreement : t.agreement key k bits = d := Key.firstDiff_eq hd hsame hdiff.symm
  cases t with
  | leaf i => rw [enter, hagreement]; exact if_pos hd
  | branch i b l r => rw [enter, hagreement]; exact if_pos hd

/-- At equal entries that agree with the key, the new entry comes after them. -/
theorem Tied.enter_eq {n : Nat} (h : Tied n t) (hagrees : k.SameBits (key t.oldest) bits)
    (hunique : unique = false) : t.enter key unique new k bits = (new, t.append new) := by
  have hle : ¬ t.agreement key k bits < bits := by
    rw [agreement, h.span_eq]
    exact Nat.not_lt.mpr (Key.le_firstDiff hagrees)
  have hspan := h.span_eq bits
  cases h with
  | leaf i => simp only [enter, if_neg hle, hunique, Bool.false_eq_true, if_false]
  | branch hlevel hown hl hr hle' =>
    rw [enter, hspan]
    simp only [if_neg hle]
    exact if_pos (by omega)

/-- In a tree that holds every key once, an entry that agrees with the key stands for the new
one. -/
theorem enter_leaf_of_unique {i : Slot} (hagrees : k.SameBits (key i) bits)
    (hunique : unique = true) : (leaf i).enter key unique new k bits = (i, leaf i) := by
  have hle : ¬ (leaf i).agreement key k bits < bits := Nat.not_lt.mpr (Key.le_firstDiff hagrees)
  simp only [enter, if_neg hle, hunique, if_true]

/-- At a branch up to whose bit the leftmost entry agrees with the key, the way goes on on the
side of the key's bit. -/
theorem enter_close {f : Fork} (hbit : 0 ≤ f.bit) (hturn : k.bitAt f.bit.toNat = f.side.bit)
    (hsame : k.SameBits (key (f.close t).oldest) (min f.bit.toNat bits)) :
    (f.close t).enter key unique new k bits =
      ((t.enter key unique new k bits).1, f.close (t.enter key unique new k bits).2) := by
  obtain ⟨i, b, side, other⟩ := f
  have hneg : ¬ b < 0 := Int.not_lt.mpr hbit
  have hle : ∀ l r : Shape, k.SameBits (key l.oldest) (min b.toNat bits) →
      ¬ (branch i b l r).agreement key k bits < (branch i b l r).span bits := by
    intro l r hsame
    rw [agreement, span, if_neg hneg]
    exact Nat.not_lt.mpr (Key.le_firstDiff hsame)
  cases side with
  | left =>
    have hzero : ¬ k.bitAt b.toNat = true := by rw [hturn]; exact Bool.false_ne_true
    simp only [Fork.close, enter, if_neg (hle t other hsame), if_neg hneg, if_neg hzero]
  | right =>
    have hone : k.bitAt b.toNat = true := hturn
    simp only [Fork.close, enter, if_neg (hle other t hsame), if_neg hneg, if_pos hone]

/-- **The way down goes on** while the key agrees with what hangs below. -/
theorem Sorted.enter_fill {path : Path} (hsorted : (path.fill t).Sorted key)
    (hpath : path.Ordinary) (hturns : ∀ f ∈ path, k.bitAt f.bit.toNat = f.side.bit)
    (hsame : ∀ f ∈ path, ∃ x ∈ t.firsts, k.SameBits (key x) (min f.bit.toNat bits)) :
    (path.fill t).enter key unique new k bits =
      ((t.enter key unique new k bits).1, path.fill (t.enter key unique new k bits).2) := by
  induction path generalizing t with
  | nil => rfl
  | cons f fs ih =>
    obtain ⟨hbit, hfs⟩ := Path.ordinary_cons.mp hpath
    obtain ⟨hturn, hturns⟩ := List.forall_mem_cons.mp hturns
    have hsub : ∀ x ∈ t.firsts, x ∈ (f.close t).firsts :=
      fun x hx => (Fork.mem_firsts_close hbit).mpr (Or.inl hx)
    -- below a branch all first entries agree up to its bit, so the leftmost speaks for them
    have holdest : k.SameBits (key (f.close t).oldest) (min f.bit.toNat bits) := by
      obtain ⟨x, hx, hkx⟩ := hsame f List.mem_cons_self
      have hclose : (f.close t).Sorted key :=
        (show (Path.fill fs (f.close t)).Sorted key from hsorted).of_fill hfs
      obtain ⟨hparts, -⟩ := hclose.parted.of_close hbit
      have hxo := (hparts.same x (hsub x hx)).trans
        (hparts.same _ (f.close t).oldest_mem_firsts).symm
      exact hkx.trans (hxo.mono (Nat.min_le_left _ _))
    have hsame' : ∀ g ∈ fs, ∃ x ∈ (f.close t).firsts,
        k.SameBits (key x) (min g.bit.toNat bits) := by
      intro g hg
      obtain ⟨x, hx, hkx⟩ := hsame g (List.mem_cons_of_mem _ hg)
      exact ⟨x, hsub x hx, hkx⟩
    rw [Path.fill_cons, ih hsorted hfs hturns hsame', enter_close hbit hturn holdest]
    rfl

end

end Shape

/-! ### Insertions -/

section

variable {key : Slot → Key} {k : Key} {bits d : Nat} {path : Path} {c u : Shape} {unique : Bool}
  {new : Slot}

/-- Where a key diverges, the entries there agree further than that. -/
theorem Diverges.lt_span (h : Diverges key k bits path u d) (hsorted : u.Sorted key) :
    d < u.span bits := by
  cases u with
  | leaf i => exact h.lt_bits
  | branch i b l r =>
    rw [Shape.span]
    split
    · exact h.lt_bits
    · next hneg =>
      have hb := Int.not_lt.mp hneg
      refine Nat.lt_min.mpr ⟨?_, h.lt_bits⟩
      obtain ⟨hparts, -, -⟩ := hsorted.of_nonneg hb
      have hl : l.oldest ∈ (Shape.branch i b l r).firsts := by
        rw [Shape.firsts_of_nonneg hb]
        exact List.mem_append_left _ l.oldest_mem_firsts
      have hr : r.oldest ∈ (Shape.branch i b l r).firsts := by
        rw [Shape.firsts_of_nonneg hb]
        exact List.mem_append_right _ r.oldest_mem_firsts
      -- two of its entries have different bits where it decides, and the key's bits before `d`
      obtain ⟨-, hzero, hone⟩ := hparts.sides l.oldest_mem_firsts r.oldest_mem_firsts
      rcases Nat.lt_trichotomy d b.toNat with hlt | rfl | hgt
      · exact hlt
      · have hld := h.differs _ hl
        have hrd := h.differs _ hr
        rw [hzero] at hld
        rw [hone] at hrd
        cases hk : k.bitAt b.toNat with
        | false => exact absurd hk.symm hld
        | true => exact absurd hk.symm hrd
      · have hbit := (h.same _ hl _ hgt).symm.trans (h.same _ hr _ hgt)
        rw [hzero, hone] at hbit
        cases hbit

/-- The function on a shape in which a key diverges. -/
theorem Diverges.enter_eq (h : Diverges key k bits path u d)
    (hsorted : (path.fill u).Sorted key) :
    (path.fill u).enter key unique new k bits =
      (new, path.fill (u.graft new (.ofBit (k.bitAt d)) d)) := by
  have hstop : u.enter key unique new k bits = (new, u.graft new (.ofBit (k.bitAt d)) d) :=
    Shape.enter_of_lt (h.lt_span (hsorted.of_fill h.ordinary)) (h.same _ u.oldest_mem_firsts)
      (h.differs _ u.oldest_mem_firsts)
  have hsame : ∀ f ∈ path, ∃ x ∈ u.firsts, k.SameBits (key x) (min f.bit.toNat bits) := by
    intro f hf
    refine ⟨u.oldest, u.oldest_mem_firsts, (h.same _ u.oldest_mem_firsts).mono ?_⟩
    exact Nat.le_trans (Nat.min_le_left _ _) (Nat.le_of_lt (h.past f hf))
  rw [hsorted.enter_fill h.ordinary h.turns hsame, hstop]

/-- The function on a shape with entries that agree with the key. -/
theorem Meets.enter_fill (h : Meets key k bits path c) (hsorted : (path.fill c).Sorted key) :
    (path.fill c).enter key unique new k bits =
      ((c.enter key unique new k bits).1, path.fill (c.enter key unique new k bits).2) :=
  hsorted.enter_fill h.ordinary h.turns fun _ _ =>
    ⟨c.oldest, c.oldest_mem_firsts, h.agrees.mono (Nat.min_le_right _ _)⟩

end

/-- **An insertion does to a tree what the function does to its shape**, and gives the same
entry. -/
theorem Inserts.eq_entered {p q : Plot} {new len r : Nat} {o o' : Option Shape}
    (h : Inserts p new len o r o' q) (hp : p.Bears o) :
    (r, o') = Shape.entered p.store.keyAt p.tree.unique new len o := by
  cases h with
  | first h => rfl
  | @turnedDown path i hunique hmeets =>
    have hleaf : (Shape.leaf r).enter p.store.keyAt p.tree.unique new
        ((p.store.keyAt new).truncate len) (8 * len) = (r, .leaf r) :=
      Shape.enter_leaf_of_unique hmeets.agrees hunique
    rw [Shape.entered, hmeets.enter_fill hp.2.sorted, hleaf]
  | @joined path inner c u q hunique hmeets hseam h =>
    obtain ⟨n, hc⟩ := hmeets.tied
    rw [Shape.entered, hmeets.enter_fill hp.2.sorted, hc.enter_eq hmeets.agrees hunique,
      hseam.append_eq]
  | @alone path u d q hdiverges h =>
    rw [Shape.entered, hdiverges.enter_eq hp.2.sorted, hdiverges.bitAt_truncate]

end BitTrie
