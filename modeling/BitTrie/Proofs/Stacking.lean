import BitTrie.Proofs.Outline
import BitTrie.Proofs.Walks
import Mathlib.Data.Nat.Log

/-!
# How equal entries are stacked

Equal entries hang in one form, which their number determines as it does the digits of a binary
counter.  Of `n` entries, the largest power of two below `n` fill the left side of the topmost
level, and the others hang on the right in the form of their own number.  So no entry is further
down than the logarithm of `n`.  Insertions elsewhere move such a subtree about, but do not touch
its form.

## Main definitions

* `Outline.perfect` — all levels below a given one, with entries on the lowest.
* `Outline.stacked` — the form of `n` equal entries.
* `Shape.frame` — the form of a shape, without slots and names.

## Main results

* `Shape.Tied.clog_length_leaves` — the topmost level is the logarithm of the number of entries.
* `Shape.Tied.frame_eq` — equal entries hang in the form of their number.
* `Shape.Tied.length_le_clog` — and no deeper than its logarithm.
* `Forest.calls_stacked` — **the same for every group, after any run**.
-/

namespace BitTrie

/-! ### Forms -/

namespace Outline

/-- The levels from `k` down to the lowest, with two branches on each level for every one above, and
entries without names below them. -/
def perfect : (k : Nat) → Outline
  | 0 => .leaf #[]
  | k + 1 => .branch (-(k + 1 : Nat)) (perfect k) (perfect k)

/-- The form of `n` equal entries: the topmost level is the logarithm of their number, rounded up;
on its left hang as many as fit there, and on its right the others, in the form of their number. -/
def stacked (n : Nat) : Outline :=
  if 2 ≤ n then
    .branch (-(Nat.clog 2 n : Nat)) (perfect (Nat.clog 2 n - 1))
      (stacked (n - 2 ^ (Nat.clog 2 n - 1)))
  else .leaf #[]
termination_by n
decreasing_by
  have hpos := Nat.two_pow_pos (Nat.clog 2 n - 1)
  omega

theorem stacked_of_lt {n : Nat} (h : n < 2) : stacked n = .leaf #[] := by
  rw [stacked, if_neg (Nat.not_le.mpr h)]

theorem stacked_of_le {n : Nat} (h : 2 ≤ n) : stacked n =
    .branch (-(Nat.clog 2 n : Nat)) (perfect (Nat.clog 2 n - 1))
      (stacked (n - 2 ^ (Nat.clog 2 n - 1))) := by
  rw [stacked, if_pos h]

end Outline

/-- The form of a shape: its outline, with no name at any entry. -/
def Shape.frame (t : Shape) : Outline := t.outline fun _ => #[]

/-! ### Equal entries -/

namespace Shape

variable {t : Shape} {k : Nat}

theorem Perfect.frame_eq (h : Perfect k t) : t.frame = .perfect k := by
  induction h with
  | leaf i => rfl
  | branch hlevel hown hl hr ihl ihr =>
    rw [frame] at ihl ihr ⊢
    rw [outline, ihl, ihr, hlevel]
    rfl

/-- The topmost level of equal entries is the logarithm of their number. -/
theorem Tied.clog_length_leaves (h : Tied k t) : Nat.clog 2 t.leaves.length = k := by
  have hle : Nat.clog 2 t.leaves.length ≤ k := Nat.clog_le_of_le_pow h.length_leaves_le
  cases k with
  | zero => exact Nat.le_zero.mp hle
  | succ k =>
    exact Nat.le_antisymm hle ((Nat.lt_clog_iff_pow_lt Nat.one_lt_two).mpr h.lt_length_leaves)

/-- **Equal entries hang in the form of their number.** -/
theorem Tied.frame_eq (h : Tied k t) : t.frame = .stacked t.leaves.length := by
  induction h with
  | leaf i => exact (Outline.stacked_of_lt Nat.one_lt_two).symm
  | @branch i b l r k m hlevel hown hl hr hle ih =>
    have hclog := (Tied.branch hlevel hown hl hr hle).clog_length_leaves
    have hlength : (Shape.branch i b l r).leaves.length = 2 ^ k + r.leaves.length := by
      rw [leaves_branch, List.length_append, hl.length_leaves_eq]
    have htwo : 2 ≤ (Shape.branch i b l r).leaves.length := by
      have hleft := Nat.two_pow_pos k
      have hright := List.length_pos_iff.mpr r.leaves_ne_nil
      omega
    -- the left side is full, so what is left of the number is that of the right side
    rw [Outline.stacked_of_le htwo, hclog, hlength, Nat.add_sub_cancel, Nat.add_sub_cancel_left,
      ← hl.frame_eq, ← ih, hlevel]
    rfl

theorem Perfect.height_le (h : Perfect k t) : t.height ≤ k := by
  induction h with
  | leaf i => exact Nat.le_refl 0
  | branch hlevel hown hl hr ihl ihr => exact Nat.succ_le_succ (Nat.max_le.mpr ⟨ihl, ihr⟩)

theorem Tied.height_le (h : Tied k t) : t.height ≤ k := by
  induction h with
  | leaf i => exact Nat.le_refl 0
  | branch hlevel hown hl hr hle ih =>
    exact Nat.succ_le_succ (Nat.max_le.mpr ⟨hl.height_le, Nat.le_trans ih hle⟩)

end Shape

/-- What is at the end of a path is no further down than the shape is high. -/
theorem Path.length_add_height_le (path : Path) (t : Shape) :
    path.length + t.height ≤ (path.fill t).height := by
  induction path generalizing t with
  | nil => exact Nat.le_of_eq (Nat.zero_add _)
  | cons f fs ih =>
    have hclose : t.height + 1 ≤ (f.close t).height := by
      unfold Fork.close
      cases f.side with
      | left => exact Nat.succ_le_succ (Nat.le_max_left _ _)
      | right => exact Nat.succ_le_succ (Nat.le_max_right _ _)
    rw [fill_cons, List.length_cons]
    exact Nat.le_trans (by omega) (ih (f.close t))

/-- **No entry is deeper than the logarithm of the number of entries.** -/
theorem Shape.Tied.length_le_clog {t : Shape} {k : Nat} (h : t.Tied k) {inner : Path} {i : Slot}
    (hinner : inner.fill (.leaf i) = t) : inner.length ≤ Nat.clog 2 t.leaves.length := by
  have hlength := inner.length_add_height_le (.leaf i)
  rw [hinner] at hlength
  rw [h.clog_length_leaves]
  exact Nat.le_trans (Nat.le_of_add_right_le hlength) h.height_le

/-! ### Runs -/

/-- A group of a tree hangs in its store at the end of a path over bits. -/
theorem Plot.Bears.exists_path {p : Plot} {o : Option Shape} (h : p.Bears o) {c : Shape}
    (hc : c ∈ p.clumps) : ∃ path : Path, path.Ordinary ∧ p.shape? = some (path.fill c) ∧
      p.store.Hangs path.place c ∧ ∃ k, c.Tied k := by
  rw [clumps, h.shape?_eq] at hc
  rw [h.shape?_eq]
  cases o with
  | none => exact absurd hc List.not_mem_nil
  | some t =>
    obtain ⟨path, hpath, rfl⟩ := Path.exists_fill_clump hc
    exact ⟨path, hpath, rfl, (Store.hangs_fill.mp h.1.2).2, h.2.sorted.exists_tied hc⟩

namespace Forest

/-- **Every group is stacked, after any run.**  The groups of a tree have all the records that the
run has hung in it.  Each hangs below branches on bits, wherever these have come to stand; its
entries are in the order in which they were hung, from left to right, and in the form of their
number; and so none of them is further down in it than the logarithm of that number. -/
theorem calls_stacked (uniques : List Bool) (cs : List Call) (t : Nat) (p : Plot)
    (hp : ((fresh uniques).calls cs).plot t = .ok p) :
    (p.clumps.flatMap Shape.leaves).Perm (((fresh uniques).history t cs).map (·.1)) ∧
    ∀ c ∈ p.clumps,
      (∃ path : Path, path.Ordinary ∧ p.shape? = some (path.fill c) ∧
        p.store.Hangs path.place c) ∧
      c.leaves.Sublist (((fresh uniques).history t cs).map (·.1)) ∧
      c.frame = .stacked c.leaves.length ∧
      ∀ (inner : Path) (i : Slot), inner.fill (.leaf i) = c →
        inner.length ≤ Nat.clog 2 c.leaves.length := by
  obtain ⟨shapes, hf⟩ := stands_calls uniques cs
  have hbears := hf.bears_plot hp
  constructor
  · have hperm := entries_calls uniques cs hp
    rw [← p.flatMap_members_groups, Plot.groups, List.flatMap_map] at hperm
    simpa only [Shape.members_group] using hperm
  · intro c hc
    obtain ⟨path, hpath, hshape, hhangs, k, hk⟩ := hbears.exists_path hc
    have horder := members_sublist uniques cs hp c.group (List.mem_map_of_mem hc)
    rw [c.members_group] at horder
    exact ⟨⟨path, hpath, hshape, hhangs⟩, horder, hk.frame_eq, fun inner i => hk.length_le_clog⟩

/-- Three equal entries, the last of them hung after another key has come to stand above the first
two: a level over a pair, and the third entry beside it. -/
theorem calls_stacked_three :
    ∃ p c, ((fresh [false]).calls [.add #[97], .add #[97], .add #[98], .add #[97], .insert 0 0 1,
        .insert 0 1 1, .insert 0 2 1, .insert 0 3 1]).plot 0 = .ok p ∧ c ∈ p.clumps ∧
      c.leaves = [0, 1, 3] ∧
      c.frame = .branch (-2) (.branch (-1) (.leaf #[]) (.leaf #[])) (.leaf #[]) ∧
      ∀ (inner : Path) (i : Slot), inner.fill (.leaf i) = c → inner.length ≤ 2 := by
  have hp := plot_of_lt (t := 0) (f := (fresh [false]).calls [.add #[97], .add #[97], .add #[98],
    .add #[97], .insert 0 0 1, .insert 0 1 1, .insert 0 2 1, .insert 0 3 1]) (by decide +kernel)
  have hclog : Nat.clog 2 3 = 2 := by decide +kernel
  have hthree : Outline.stacked 3 =
      .branch (-2) (.branch (-1) (.leaf #[]) (.leaf #[])) (.leaf #[]) := by
    rw [Outline.stacked_of_le (by decide), hclog, Outline.stacked_of_lt (by decide)]
    rfl
  obtain ⟨-, hstacked⟩ := calls_stacked [false] _ 0 _ hp
  obtain ⟨-, -, hframe, hdepth⟩ := hstacked
    (.branch 3 (-2) (.branch 1 (-1) (.leaf 0) (.leaf 1)) (.leaf 3)) (by decide +kernel)
  exact ⟨_, _, hp, by decide +kernel, rfl, hframe.trans hthree,
    fun inner i hinner => (hdepth inner i hinner).trans_eq hclog⟩

end Forest

end BitTrie
