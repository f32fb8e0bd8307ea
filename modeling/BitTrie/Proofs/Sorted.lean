import BitTrie.Proofs.KeyOrder
import BitTrie.Proofs.Levels

/-!
# Sorted shapes

In a sorted shape the first entries of all groups below a branch agree up to its bit, and the bit
tells those on the left from those on the right.  The key of the branch's own slot is the key of
one of them, so it vouches for all.  Later entries of a group do not matter.

## Main definitions

* `Shape.firsts` — the first entries of the groups, from left to right.
* `Fork.Parts`, `Shape.Parted` — a branch on its proper bit, and a shape of them.
* `Shape.Sorted` — the same, with proper subtrees of equal entries and proper slots of branches.

## Main results

* `Shape.Parted.pairwise` — **the first entries ascend** from left to right.
* `Path.sorted_fill_of` — a part of a sorted shape may be replaced by one that fits.
* `Shape.Sorted.parts` — what every branch on a way down says of the entries at its end.
-/

namespace BitTrie

namespace Shape

/-- The first entries of the groups. -/
def firsts (t : Shape) : List Slot := t.clumps.map oldest

variable {t : Shape} {k : Nat}

theorem firsts_of_nonneg {i : Slot} {b : Int} {l r : Shape} (h : 0 ≤ b) :
    (branch i b l r).firsts = l.firsts ++ r.firsts := by
  rw [firsts, clumps_of_nonneg h, List.map_append]
  rfl

theorem firsts_of_neg {i : Slot} {b : Int} {l r : Shape} (h : b < 0) :
    (branch i b l r).firsts = [l.oldest] := by
  rw [firsts, clumps_of_neg h]
  rfl

theorem Tied.firsts_eq (h : Tied k t) : t.firsts = [t.oldest] := by
  rw [firsts, h.clumps_eq]
  rfl

theorem mem_leaves_of_mem_firsts {i : Slot} (h : i ∈ t.firsts) : i ∈ t.leaves := by
  obtain ⟨c, hc, rfl⟩ := List.mem_map.mp h
  exact mem_leaves_of_mem_clumps hc c.oldest_mem_leaves

theorem firsts_ne_nil (t : Shape) : t.firsts ≠ [] :=
  fun h => t.clumps_ne_nil (List.map_eq_nil_iff.mp h)

/-- The leftmost entry is the first of the leftmost group. -/
theorem head?_firsts (t : Shape) : t.firsts.head? = some t.oldest := by
  induction t with
  | leaf i => rfl
  | branch i b l r ihl ihr =>
    rcases Int.lt_or_le b 0 with hb | hb
    · rw [firsts, clumps_of_neg hb]
      rfl
    · rw [firsts_of_nonneg hb, List.head?_append, ihl]
      rfl

theorem oldest_mem_firsts (t : Shape) : t.oldest ∈ t.firsts :=
  List.mem_of_mem_head? t.head?_firsts

end Shape

theorem Fork.mem_firsts_close {f : Fork} {t : Shape} {i : Slot} (hbit : 0 ≤ f.bit) :
    i ∈ (f.close t).firsts ↔ i ∈ t.firsts ∨ i ∈ f.other.firsts := by
  unfold close
  cases f.side <;> simp only [Shape.firsts_of_nonneg hbit, List.mem_append]
  exact or_comm

/-! ### Branches on their bits -/

/-- A branch stands on the bit that parts the first entries of its two sides, and agrees with all
of them before. -/
structure Fork.Parts (key : Slot → Key) (f : Fork) (t : Shape) : Prop where
  nonneg : 0 ≤ f.bit
  same : ∀ x ∈ (f.close t).firsts, (key x).SameBits (key f.slot) f.bit.toNat
  taken : ∀ x ∈ t.firsts, (key x).bitAt f.bit.toNat = f.side.bit
  other : ∀ x ∈ f.other.firsts, (key x).bitAt f.bit.toNat = f.side.opposite.bit

/-- Branches on bits, every one on the proper bit, over entries and over levels of any kind. -/
inductive Shape.Parted (key : Slot → Key) : Shape → Prop where
  /-- An entry. -/
  | leaf (i : Slot) : Parted key (.leaf i)
  /-- A level. -/
  | level {i : Slot} {b : Int} {l r : Shape} (hb : b < 0) : Parted key (.branch i b l r)
  /-- A decision on a bit. -/
  | bit {i : Slot} {b : Int} {l r : Shape} (hparts : Fork.Parts key ⟨i, b, .left, r⟩ l)
    (hl : Parted key l) (hr : Parted key r) : Parted key (.branch i b l r)

/-- Branches on bits over subtrees of equal entries, every branch on the proper bit, and with the
first entry of one of its groups as its own. -/
inductive Shape.Sorted (key : Slot → Key) : Shape → Prop where
  /-- Equal entries. -/
  | tied {t : Shape} {k : Nat} (h : t.Tied k) : Sorted key t
  /-- A decision on a bit. -/
  | branch {i : Slot} {b : Int} {l r : Shape} (hparts : Fork.Parts key ⟨i, b, .left, r⟩ l)
    (hown : i ∈ l.firsts ++ r.firsts) (hl : Sorted key l) (hr : Sorted key r) :
    Sorted key (.branch i b l r)

section

variable {key : Slot → Key} {t u : Shape} {f : Fork} {path : Path}

theorem Shape.Sorted.leaf (i : Slot) : (Shape.leaf i).Sorted key := .tied (.leaf i)

/-- A branch parts its sides whichever of them is taken. -/
theorem Fork.Parts.swap {i : Slot} {b : Int} {l r : Shape}
    (h : Fork.Parts key ⟨i, b, .left, r⟩ l) : Fork.Parts key ⟨i, b, .right, l⟩ r :=
  ⟨h.nonneg, h.same, h.other, h.taken⟩

theorem Fork.Parts.swap' {i : Slot} {b : Int} {l r : Shape}
    (h : Fork.Parts key ⟨i, b, .right, l⟩ r) : Fork.Parts key ⟨i, b, .left, r⟩ l :=
  ⟨h.nonneg, h.same, h.other, h.taken⟩

/-- First entries on the two sides of a branch agree before its bit, and differ there. -/
theorem Fork.Parts.sides {i x y : Slot} {b : Int} {l r : Shape}
    (h : Fork.Parts key ⟨i, b, .left, r⟩ l) (hx : x ∈ l.firsts) (hy : y ∈ r.firsts) :
    (key x).SameBits (key y) b.toNat ∧ (key x).bitAt b.toNat = false ∧
      (key y).bitAt b.toNat = true := by
  have hx' := h.same x ((Fork.mem_firsts_close h.nonneg).mpr (Or.inl hx))
  have hy' := h.same y ((Fork.mem_firsts_close h.nonneg).mpr (Or.inr hy))
  exact ⟨hx'.trans hy'.symm, h.taken x hx, h.other y hy⟩

/-! ### Parted shapes -/

/-- The topmost branch of a parted shape, when it is on a bit. -/
theorem Shape.Parted.of_nonneg {i : Slot} {b : Int} {l r : Shape}
    (h : (Shape.branch i b l r).Parted key) (hb : 0 ≤ b) :
    Fork.Parts key ⟨i, b, .left, r⟩ l ∧ l.Parted key ∧ r.Parted key := by
  cases h with
  | level hneg => exact absurd hb (Int.not_le.mpr hneg)
  | bit hparts hl hr => exact ⟨hparts, hl, hr⟩

theorem Shape.Parted.of_close (h : (f.close t).Parted key) (hbit : 0 ≤ f.bit) :
    f.Parts key t ∧ t.Parted key := by
  obtain ⟨i, b, side, other⟩ := f
  cases side with
  | left =>
    obtain ⟨hparts, hl, -⟩ := h.of_nonneg hbit
    exact ⟨hparts, hl⟩
  | right =>
    obtain ⟨hparts, -, hr⟩ := h.of_nonneg hbit
    exact ⟨hparts.swap, hr⟩

theorem Shape.Parted.of_fill (h : (Path.fill path t).Parted key) (hpath : Path.Ordinary path) :
    t.Parted key := by
  induction path generalizing t with
  | nil => exact h
  | cons f fs ih =>
    obtain ⟨hbit, hfs⟩ := Path.ordinary_cons.mp hpath
    exact ((ih h hfs).of_close hbit).2

/-- Up to the bit of a branch, all first entries under it read like its own key. -/
theorem Shape.Parted.sameBits {i : Slot} {b : Int} {l r : Shape}
    (h : (Shape.branch i b l r).Parted key) (hb : 0 ≤ b) :
    ∀ y ∈ (Shape.branch i b l r).firsts, (key y).SameBits (key i) b.toNat :=
  (h.of_nonneg hb).1.same

/-- **The first entries ascend** from left to right. -/
theorem Shape.Parted.pairwise (h : t.Parted key) :
    t.firsts.Pairwise fun x y => (key x).Precedes (key y) := by
  induction h with
  | leaf i => exact List.pairwise_singleton _ _
  | level hb =>
    rw [Shape.firsts_of_neg hb]
    exact List.pairwise_singleton _ _
  | @bit i b l r hparts hl hr ihl ihr =>
    rw [Shape.firsts_of_nonneg hparts.nonneg]
    refine List.pairwise_append.mpr ⟨ihl, ihr, ?_⟩
    intro x hx y hy
    obtain ⟨hsame, hzero, hone⟩ := hparts.sides hx hy
    exact Key.precedes_of_bitAt hsame hzero hone

/-- In a parted shape bits grow on every way down. -/
theorem Shape.Parted.bit_lt {i : Slot} {b : Int} {l r : Shape}
    (h : (f.close (.branch i b l r)).Parted key) (hf : 0 ≤ f.bit) (hb : 0 ≤ b) :
    f.bit.toNat < b.toNat := by
  obtain ⟨hparts, hparted⟩ := h.of_close hf
  obtain ⟨hlr, -, -⟩ := hparted.of_nonneg hb
  have hl : l.oldest ∈ (Shape.branch i b l r).firsts := by
    rw [Shape.firsts_of_nonneg hb]
    exact List.mem_append_left _ l.oldest_mem_firsts
  have hr : r.oldest ∈ (Shape.branch i b l r).firsts := by
    rw [Shape.firsts_of_nonneg hb]
    exact List.mem_append_right _ r.oldest_mem_firsts
  -- the lower bit tells two of its entries apart, which agree up to the upper one
  obtain ⟨-, hzero, hone⟩ := hlr.sides l.oldest_mem_firsts r.oldest_mem_firsts
  have hdiff : (key l.oldest).bitAt b.toNat ≠ (key r.oldest).bitAt b.toNat := by
    rw [hzero, hone]
    exact Bool.false_ne_true
  have hmem : ∀ x ∈ (Shape.branch i b l r).firsts,
      x ∈ (f.close (.branch i b l r)).firsts :=
    fun x hx => (Fork.mem_firsts_close hf).mpr (Or.inl hx)
  rcases Nat.lt_trichotomy f.bit.toNat b.toNat with hlt | heq | hgt
  · exact hlt
  · rw [← heq, hparts.taken _ hl, hparts.taken _ hr] at hdiff
    exact absurd rfl hdiff
  · exact absurd ((hparts.same _ (hmem _ hl) _ hgt).trans
      (hparts.same _ (hmem _ hr) _ hgt).symm) hdiff

/-! ### Sorted shapes -/

theorem Shape.Sorted.parted (h : t.Sorted key) : t.Parted key := by
  induction h with
  | tied h =>
    cases h with
    | leaf i => exact .leaf i
    | branch hlevel hown hl hr hle => exact .level (by omega)
  | branch hparts hown hl hr ihl ihr => exact .bit hparts ihl ihr

theorem Shape.sorted_close (hbit : 0 ≤ f.bit) :
    (f.close t).Sorted key ↔
      f.Parts key t ∧ f.slot ∈ (f.close t).firsts ∧ t.Sorted key ∧ f.other.Sorted key := by
  obtain ⟨i, b, side, other⟩ := f
  cases side with
  | left =>
    constructor
    · intro h
      cases h with
      | tied h => exact absurd hbit (Int.not_le.mpr h.neg)
      | branch hparts hown hl hr =>
        exact ⟨hparts, by rwa [Fork.close, Shape.firsts_of_nonneg hbit], hl, hr⟩
    · rintro ⟨hparts, hown, hl, hr⟩
      rw [Fork.close, Shape.firsts_of_nonneg hbit] at hown
      exact .branch hparts hown hl hr
  | right =>
    constructor
    · intro h
      cases h with
      | tied h => exact absurd hbit (Int.not_le.mpr h.neg)
      | branch hparts hown hl hr =>
        exact ⟨hparts.swap, by rwa [Fork.close, Shape.firsts_of_nonneg hbit], hr, hl⟩
    · rintro ⟨hparts, hown, hr, hl⟩
      rw [Fork.close, Shape.firsts_of_nonneg hbit] at hown
      exact .branch hparts.swap' hown hl hr

/-- A subtree of a sorted shape that is over equal entries. -/
theorem Shape.Sorted.tied_of_neg {i : Slot} {b : Int} {l r : Shape}
    (h : (Shape.branch i b l r).Sorted key) (hb : b < 0) :
    ∃ k, (Shape.branch i b l r).Tied k := by
  cases h with
  | tied h => exact ⟨_, h⟩
  | branch hparts hown hl hr => exact absurd hparts.nonneg (Int.not_le.mpr hb)

/-- The topmost branch of a sorted shape, when it is on a bit. -/
theorem Shape.Sorted.of_nonneg {i : Slot} {b : Int} {l r : Shape}
    (h : (Shape.branch i b l r).Sorted key) (hb : 0 ≤ b) :
    Fork.Parts key ⟨i, b, .left, r⟩ l ∧ i ∈ l.firsts ++ r.firsts ∧ l.Sorted key ∧
      r.Sorted key := by
  cases h with
  | tied h => exact absurd hb (Int.not_le.mpr h.neg)
  | branch hparts hown hl hr => exact ⟨hparts, hown, hl, hr⟩

theorem Shape.Sorted.own_mem {i : Slot} {b : Int} {l r : Shape}
    (h : (Shape.branch i b l r).Sorted key) (hb : 0 ≤ b) : i ∈ (Shape.branch i b l r).firsts := by
  rw [Shape.firsts_of_nonneg hb]
  exact (h.of_nonneg hb).2.1

/-! ### Parts of a sorted shape -/

theorem Shape.Sorted.of_fill (h : (Path.fill path t).Sorted key) (hpath : Path.Ordinary path) :
    t.Sorted key := by
  induction path generalizing t with
  | nil => exact h
  | cons f fs ih =>
    obtain ⟨hbit, hfs⟩ := Path.ordinary_cons.mp hpath
    exact ((Shape.sorted_close hbit).mp (ih h hfs)).2.2.1

/-- Every branch on a way down parts the first entries at its end from those it leaves aside. -/
theorem Shape.Sorted.parts (h : (Path.fill path t).Sorted key) (hpath : Path.Ordinary path)
    (hf : f ∈ path) : f.Parts key t ∧ f.other.Sorted key := by
  induction path generalizing t with
  | nil => cases hf
  | cons g gs ih =>
    obtain ⟨hbit, hgs⟩ := Path.ordinary_cons.mp hpath
    rcases List.mem_cons.mp hf with rfl | hf
    · rw [Path.fill_cons] at h
      obtain ⟨hparts, -, -, hother⟩ := (Shape.sorted_close hbit).mp (h.of_fill hgs)
      exact ⟨hparts, hother⟩
    · obtain ⟨hparts, hother⟩ := ih h hgs hf
      have hsub : ∀ x ∈ t.firsts, x ∈ (g.close t).firsts :=
        fun x hx => (Fork.mem_firsts_close hbit).mpr (Or.inl hx)
      refine ⟨⟨hparts.nonneg, fun x hx => hparts.same x ?_,
        fun x hx => hparts.taken x (hsub x hx), hparts.other⟩, hother⟩
      rcases (Fork.mem_firsts_close hparts.nonneg).mp hx with hx | hx
      · exact (Fork.mem_firsts_close hparts.nonneg).mpr (Or.inl (hsub x hx))
      · exact (Fork.mem_firsts_close hparts.nonneg).mpr (Or.inr hx)

/-- A part of a sorted shape may be replaced by a sorted one that keeps its first entries, and
all of whose first entries agree with one of these up to the bits of the path. -/
theorem Path.sorted_fill_of (h : (Path.fill path t).Sorted key) (hpath : Path.Ordinary path)
    (hu : u.Sorted key) (hsub : t.firsts ⊆ u.firsts)
    (hsame : ∀ y ∈ u.firsts, ∃ x ∈ t.firsts, ∀ f ∈ path,
      (key y).SameBits (key x) (f.bit.toNat + 1)) :
    (Path.fill path u).Sorted key := by
  induction path generalizing t u with
  | nil => exact hu
  | cons f fs ih =>
    obtain ⟨hbit, hfs⟩ := Path.ordinary_cons.mp hpath
    rw [Path.fill_cons] at h
    obtain ⟨hparts, hown, -, hother⟩ := (Shape.sorted_close hbit).mp (h.of_fill hfs)
    -- one branch further up the two conditions hold of the closed parts
    have hsub' : (f.close t).firsts ⊆ (f.close u).firsts := by
      intro x hx
      rw [Fork.mem_firsts_close hbit] at hx ⊢
      exact hx.imp_left fun hx => hsub hx
    have hsame' : ∀ y ∈ (f.close u).firsts, ∃ x ∈ (f.close t).firsts, ∀ g ∈ f :: fs,
        (key y).SameBits (key x) (g.bit.toNat + 1) := by
      intro y hy
      rcases (Fork.mem_firsts_close hbit).mp hy with hy | hy
      · obtain ⟨x, hx, hxy⟩ := hsame y hy
        exact ⟨x, (Fork.mem_firsts_close hbit).mpr (Or.inl hx), hxy⟩
      · exact ⟨y, (Fork.mem_firsts_close hbit).mpr (Or.inr hy), fun g hg p hp => rfl⟩
    refine ih h hfs ((Shape.sorted_close hbit).mpr ⟨?_, hsub' hown, hu, hother⟩) hsub' ?_
    · refine ⟨hbit, ?_, ?_, hparts.other⟩
      · intro y hy
        obtain ⟨x, hx, hxy⟩ := hsame' y hy
        exact ((hxy f List.mem_cons_self).mono (Nat.le_succ _)).trans (hparts.same x hx)
      · intro y hy
        obtain ⟨x, hx, hxy⟩ := hsame y hy
        rw [hxy f List.mem_cons_self f.bit.toNat (Nat.lt_succ_self _)]
        exact hparts.taken x hx
    · intro y hy
      obtain ⟨x, hx, hxy⟩ := hsame' y hy
      exact ⟨x, hx, fun g hg => hxy g (List.mem_cons_of_mem _ hg)⟩

/-- Every group of a sorted shape is a subtree of equal entries. -/
theorem Shape.Sorted.exists_tied {c : Shape} (h : t.Sorted key) (hc : c ∈ t.clumps) :
    ∃ k, c.Tied k := by
  obtain ⟨path, hpath, rfl⟩ := Path.exists_fill_clump hc
  rcases Shape.eq_leaf_or_level_neg hc with ⟨i, rfl⟩ | hneg
  · exact ⟨0, .leaf i⟩
  · cases c with
    | leaf i => exact ⟨0, .leaf i⟩
    | branch i b l r => exact (h.of_fill hpath).tied_of_neg hneg

/-- Below the levels of a sorted shape there are levels only. -/
theorem Shape.Sorted.stratified (h : t.Sorted key) : t.Stratified := by
  intro c hc
  obtain ⟨k, hk⟩ := h.exists_tied hc
  exact hk.levelled

/-- Sortedness depends on the keys of first entries only. -/
theorem Shape.Sorted.congr {key' : Slot → Key} (h : t.Sorted key)
    (hkey : ∀ i ∈ t.leaves, key' i = key i) : t.Sorted key' := by
  induction h with
  | tied h => exact .tied h
  | @branch i b l r hparts hown hl hr ihl ihr =>
    have hfirsts : ∀ x ∈ l.firsts ++ r.firsts, key' x = key x := by
      intro x hx
      apply hkey x
      rcases List.mem_append.mp hx with hx | hx
      · exact List.mem_append_left _ (mem_leaves_of_mem_firsts hx)
      · exact List.mem_append_right _ (mem_leaves_of_mem_firsts hx)
    refine .branch ⟨hparts.nonneg, ?_, ?_, ?_⟩ hown
      (ihl fun i hi => hkey i (List.mem_append_left _ hi))
      (ihr fun i hi => hkey i (List.mem_append_right _ hi))
    · intro x hx
      have hx' : x ∈ l.firsts ++ r.firsts := by
        rwa [Fork.close, Shape.firsts_of_nonneg hparts.nonneg] at hx
      rw [hfirsts x hx', hfirsts i hown]
      exact hparts.same x hx
    · intro x hx
      rw [hfirsts x (List.mem_append_left _ hx)]
      exact hparts.taken x hx
    · intro x hx
      rw [hfirsts x (List.mem_append_right _ hx)]
      exact hparts.other x hx

end

end BitTrie
