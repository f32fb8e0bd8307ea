import BitTrie.Proofs.Grafting
import Mathlib.Algebra.Group.Nat.Defs

/-!
# Subtrees of equal entries

A subtree of equal entries has perfect parts of falling heights on its left sides, as the digits
of a binary number do.  A new entry goes beside the first part on its right side that is perfect
as a whole; the branch over the two takes the level that is free above that part.

## Main definitions

* `Shape.Perfect` — all levels down to the leaves are there, on both sides.
* `Shape.Tied` — a subtree of equal entries.
* `Shape.Seam` — where a new entry goes.

## Main results

* `Shape.Tied.exists_seam` — there is such a place.
* `Shape.Seam.tied_graft`, `Shape.Seam.leaves_graft` — **a graft there** makes a subtree of equal
  entries with the new entry after all others.
* `Shape.Tied.lt_length_leaves` — the levels are logarithmic in the number of entries.
* `Edit.append_grafted` — appending makes that graft.
-/

namespace BitTrie

namespace Shape

/-- A subtree of equal entries in which all levels are there. -/
inductive Perfect : Nat → Shape → Prop where
  /-- An entry. -/
  | leaf (i : Slot) : Perfect 0 (.leaf i)
  /-- Two equally high parts, and the next level. -/
  | branch {i : Slot} {b : Int} {l r : Shape} {k : Nat} (hlevel : b = -(k + 1 : Nat))
    (hown : i ∈ r.leaves) (hl : Perfect k l) (hr : Perfect k r) : Perfect (k + 1) (.branch i b l r)

/-- A subtree of equal entries: on the left everything that fits below the topmost level. -/
inductive Tied : Nat → Shape → Prop where
  /-- An entry. -/
  | leaf (i : Slot) : Tied 0 (.leaf i)
  /-- A perfect part, and a part that is no higher. -/
  | branch {i : Slot} {b : Int} {l r : Shape} {k m : Nat} (hlevel : b = -(k + 1 : Nat))
    (hown : i ∈ r.leaves) (hl : Perfect k l) (hr : Tied m r) (hle : m ≤ k) :
    Tied (k + 1) (.branch i b l r)

/-- Where a new entry goes in a subtree of equal entries: at the end of a path, beside the first
part that is perfect. -/
inductive Seam : Shape → Path → Shape → Prop where
  /-- The whole subtree is perfect. -/
  | whole {k : Nat} {t : Shape} (h : Perfect k t) : Seam t [] t
  /-- Its right side is perfect, and a level is free above that. -/
  | right {i : Slot} {l r : Shape} {k m : Nat} {b : Int} (hlevel : b = -(k + 1 : Nat))
    (hr : Perfect m r) (hlt : m < k) : Seam (.branch i b l r) [⟨i, b, .right, l⟩] r
  /-- Its right side is not perfect. -/
  | deeper {i : Slot} {l r u : Shape} {b : Int} {f : Fork} {inner : Path}
    (h : Seam r (f :: inner) u) :
    Seam (.branch i b l r) (f :: (inner ++ [⟨i, b, .right, l⟩])) u

variable {t u : Shape} {k : Nat}

theorem Perfect.tied (h : Perfect k t) : Tied k t := by
  induction h with
  | leaf i => exact .leaf i
  | branch hlevel hown hl hr ihl ihr => exact .branch hlevel hown hl ihr (Nat.le_refl _)

theorem Tied.level_eq (h : Tied k t) : t.level = -k := by
  cases h with
  | leaf i => rfl
  | branch hlevel hown hl hr hle => exact hlevel

/-- A subtree of equal entries has no decision on a bit. -/
theorem Tied.neg {i : Slot} {b : Int} {l r : Shape} (h : Tied k (.branch i b l r)) : b < 0 := by
  cases h
  omega

theorem Perfect.levelled (h : Perfect k t) : t.Levelled := by
  induction h with
  | leaf i => trivial
  | branch hlevel hown hl hr ihl ihr => exact ⟨by omega, ihl, ihr⟩

theorem Tied.levelled (h : Tied k t) : t.Levelled := by
  induction h with
  | leaf i => trivial
  | branch hlevel hown hl hr hle ihr => exact ⟨by omega, hl.levelled, ihr⟩

theorem Perfect.length_leaves_eq (h : Perfect k t) : t.leaves.length = 2 ^ k := by
  induction h with
  | leaf i => rfl
  | branch hlevel hown hl hr ihl ihr =>
    rw [leaves_branch, List.length_append, ihl, ihr]
    omega

/-- The levels are logarithmic in the number of entries. -/
theorem Tied.lt_length_leaves (h : Tied (k + 1) t) : 2 ^ k < t.leaves.length := by
  cases h with
  | @branch i b l r k m hlevel hown hl hr hle =>
    rw [leaves_branch, List.length_append, hl.length_leaves_eq]
    have hpos := List.length_pos_iff.mpr r.leaves_ne_nil
    omega

/-- A subtree of equal entries is one clump. -/
theorem Tied.clumps_eq (h : Tied k t) : t.clumps = [t] := by
  cases h with
  | leaf i => rfl
  | branch hlevel hown hl hr hle => exact clumps_of_neg (by omega)

/-- One branch down in a subtree of equal entries the levels are lower. -/
theorem Tied.of_close {f : Fork} (h : (f.close t).Tied k) :
    f.bit < 0 ∧ ∃ k', t.Tied k' ∧ f.bit < -(k' : Int) := by
  unfold Fork.close at h
  cases hside : f.side with
  | left =>
    rw [hside] at h
    cases h with
    | branch hlevel hown hl hr hle => exact ⟨by omega, _, hl.tied, by omega⟩
  | right =>
    rw [hside] at h
    cases h with
    | branch hlevel hown hl hr hle => exact ⟨by omega, _, hr, by omega⟩

/-! ### Where a new entry goes -/

/-- There is a place for a new entry. -/
theorem Tied.exists_seam (h : Tied k t) : ∃ inner u, Seam t inner u := by
  induction h with
  | leaf i => exact ⟨[], _, .whole (.leaf i)⟩
  | @branch i b l r k m hlevel hown hl hr hle ih =>
    obtain ⟨inner, u, hseam⟩ := ih
    cases inner with
    | cons f inner => exact ⟨_, u, .deeper hseam⟩
    | nil =>
      cases hseam with
      | @whole m' _ hperfect =>
        -- the right side is perfect as a whole: either it is lower than the left one, and the entry
        -- goes on top of it, or the two are equally high, and it goes on top of both
        have heq : m' = m := by
          have h1 := hperfect.tied.level_eq
          have h2 := hr.level_eq
          omega
        subst heq
        rcases Nat.lt_or_eq_of_le hle with hlt | rfl
        · exact ⟨_, r, .right hlevel hperfect hlt⟩
        · exact ⟨[], _, .whole (.branch hlevel hown hl hperfect)⟩

theorem Seam.fill_eq {inner : Path} (h : Seam t inner u) : Path.fill inner u = t := by
  induction h with
  | whole h => rfl
  | right hlevel hr hlt => rfl
  | @deeper i l r u b f inner h ih =>
    rw [← List.cons_append, Path.fill_append, ih]
    rfl

theorem Seam.perfect {inner : Path} (h : Seam t inner u) : ∃ k, Perfect k u := by
  induction h with
  | whole h => exact ⟨_, h⟩
  | right hlevel hr hlt => exact ⟨_, hr⟩
  | deeper h ih => exact ih

/-- A perfect part beside a new entry, on the next level. -/
theorem Perfect.tied_graft (h : Perfect k t) (new : Slot) :
    Tied (k + 1) (t.graft new .right (t.level - 1)) := by
  refine .branch ?_ (List.mem_singleton.mpr rfl) h (.leaf new) (Nat.zero_le k)
  rw [h.tied.level_eq]
  omega

/-- The new entry comes after all others. -/
theorem Seam.leaves_graft {inner : Path} (h : Seam t inner u) (new : Slot) :
    (Path.fill inner (u.graft new .right (u.level - 1))).leaves = t.leaves ++ [new] := by
  induction h with
  | whole h => rfl
  | right hlevel hr hlt => exact (List.append_assoc _ _ _).symm
  | @deeper i l r u b f inner h ih =>
    rw [← List.cons_append, Path.fill_append, leaves_branch, List.append_assoc, ← ih]
    rfl

/-- A graft into a subtree of equal entries that is not perfect makes it no higher. -/
theorem Seam.tied_fill_graft {f : Fork} {inner : Path} (h : Seam t (f :: inner) u)
    (ht : Tied k t) (new : Slot) :
    Tied k (Path.fill (f :: inner) (u.graft new .right (u.level - 1))) := by
  -- the path is generalized, for the induction to go on below its first branch
  generalize hpath : f :: inner = path at h
  induction h generalizing f inner k with
  | whole h => cases hpath
  | @right i l r k' m b hlevel' hr' hlt =>
    cases ht with
    | @branch _ _ _ _ k m hlevel hown hl hr hle =>
      have hgraft := hr'.tied_graft new
      refine .branch hlevel ?_ hl hgraft (by omega)
      exact List.mem_append_left _ hown
  | @deeper i l r u b f' inner' h ih =>
    cases ht with
    | @branch _ _ _ _ k m hlevel hown hl hr hle =>
      rw [← List.cons_append, Path.fill_append]
      refine .branch hlevel ?_ hl (ih hr rfl) hle
      rw [h.leaves_graft]
      exact List.mem_append_left _ hown

/-- A graft into a subtree of equal entries makes one. -/
theorem Seam.tied_graft {inner : Path} (h : Seam t inner u) (ht : Tied k t) (new : Slot) :
    ∃ k', Tied (k' + 1) (Path.fill inner (u.graft new .right (u.level - 1))) := by
  cases inner with
  | nil =>
    obtain ⟨k', hperfect⟩ := h.perfect
    exact ⟨k', hperfect.tied_graft new⟩
  | cons f inner =>
    have htied := h.tied_fill_graft ht new
    cases ht with
    | leaf i => cases h
    | @branch _ _ _ _ k => exact ⟨k, htied⟩

end Shape

/-! ### The right spine -/

namespace Store

variable {s : Store} {place : Place} {t u : Shape} {i : Slot} {k fuel : Nat}

/-- A walk down the right spine, from a branch with a leaf on its right. -/
theorem spineFrom_of_leaf {last j : Slot} (full : Slot) (hlast : last < s.size)
    (hright : s.down last .right = some (.leaf j)) :
    s.spineFrom (fuel + 1) full last = .ok ⟨full, last⟩ := by
  have hfollow : (s.nodeAt last).right.follow = .ok (.leaf j) := follow_eq_ok hright
  rw [spineFrom, node_eq_ok hlast]
  simp only [bind, Except.bind, hfollow]
  rfl

/-- A walk down the right spine, from a branch with a branch on its right. -/
theorem spineFrom_of_branch {last next : Slot} (full : Slot) (hlast : last < s.size)
    (hright : s.down last .right = some (.branch next)) (hnext : next < s.size)
    (hneg : s.levelAt last < 0) :
    s.spineFrom (fuel + 1) full last = s.spineFrom fuel
      (if s.levelAt last + 1 < s.levelAt next then next else full) next := by
  have hfollow : (s.nodeAt last).right.follow = .ok (.branch next) := follow_eq_ok hright
  have hmax : (s.nodeAt last).bit ≠ Int32.maxValue := by
    intro h
    rw [levelAt, h] at hneg
    exact absurd hneg (by decide)
  rw [spineFrom, node_eq_ok hlast]
  simp only [bind, Except.bind, hfollow, node_eq_ok hnext, if_neg hmax]
  simp only [levelAt]
  rfl

/-- The spine of a perfect part skips no level, and ends on the lowest one. -/
theorem Hangs.spineFrom_perfect (h : s.Hangs place t) (ht : t.Perfect k)
    (hroot : t.root = .branch i) (hfuel : t.height ≤ fuel) (full : Slot) :
    ∃ last, s.spineFrom fuel full i = .ok ⟨full, last⟩ ∧ last < s.size ∧ s.levelAt last = -1 := by
  induction ht generalizing place i fuel with
  | leaf j => cases hroot
  | @branch head b l r k hlevel hown hl hr ihl ihr =>
    cases hroot
    obtain ⟨hup, hbit, -, hright, -, hhangs⟩ := h
    have hlast : head < s.size := lt_size_of_up hup
    obtain ⟨fuel, rfl⟩ := Nat.exists_eq_add_one_of_ne_zero
      (show fuel ≠ 0 by simp only [Shape.height] at hfuel; omega)
    cases r with
    | leaf j =>
      cases hr
      exact ⟨head, spineFrom_of_leaf full hlast hright, hlast, by omega⟩
    | branch j c l' r' =>
      have hnext : j < s.size := lt_size_of_up hhangs.up_root
      have hc : s.levelAt j = c := hhangs.2.1
      have hck : c = -(k : Int) := hr.tied.level_eq
      rw [spineFrom_of_branch full hlast hright hnext (by omega), if_neg (by omega)]
      apply ihr hhangs rfl
      simp only [Shape.height] at hfuel ⊢
      omega

/-- The end of a right spine, and its lowest full part `u`.  The part is a leaf under the last
branch, or a branch; where it is the whole of what is walked, `full` is given back. -/
theorem Hangs.spineFrom_seam {inner : Path} (h : s.Hangs place t) (ht : t.Tied k)
    (hseam : t.Seam inner u) (hroot : t.root = .branch i) (hfuel : t.height ≤ fuel)
    (full : Slot) :
    ∃ e, s.spineFrom fuel full i = .ok e ∧ e.last < s.size ∧
      ((∃ j, u = .leaf j ∧ inner.place = .under e.last .right ∧
          s.down e.last .right = some (.leaf j) ∧ s.levelAt e.last < -1) ∨
        (u.root = .branch (if inner = [] then i else e.full) ∧ (inner = [] → e.full = full) ∧
          s.levelAt e.last = -1)) := by
  -- induction on the seam, whose constructors are the steps of the walk
  induction hseam generalizing place i fuel full k with
  | whole hp =>
    obtain ⟨last, hspine, hlast, hlevel⟩ := h.spineFrom_perfect hp hroot hfuel full
    exact ⟨_, hspine, hlast, Or.inr ⟨hroot, fun _ => rfl, hlevel⟩⟩
  | @right head l r k' m b hlevel hr hlt =>
    cases hroot
    obtain ⟨hup, hbit, -, hright, -, hhangs⟩ := h
    have hlast : head < s.size := lt_size_of_up hup
    obtain ⟨fuel, rfl⟩ := Nat.exists_eq_add_one_of_ne_zero
      (show fuel ≠ 0 by simp only [Shape.height] at hfuel; omega)
    cases r with
    | leaf j =>
      refine ⟨_, spineFrom_of_leaf full hlast hright, hlast, Or.inl ⟨j, rfl, rfl, hright, ?_⟩⟩
      have hm : (0 : Int) = -m := hr.tied.level_eq
      show s.levelAt head < -1
      omega
    | branch j c l' r' =>
      have hnext : j < s.size := lt_size_of_up hhangs.up_root
      have hc : s.levelAt j = c := hhangs.2.1
      have hck : c = -(m : Int) := hr.tied.level_eq
      rw [spineFrom_of_branch full hlast hright hnext (by omega), if_pos (by omega)]
      obtain ⟨last, hspine, hlast', hlevel'⟩ := hhangs.spineFrom_perfect hr rfl
        (show _ ≤ fuel by simp only [Shape.height] at hfuel ⊢; omega) j
      exact ⟨_, hspine, hlast', Or.inr ⟨rfl, fun hnil => by simp at hnil, hlevel'⟩⟩
  | @deeper head l r u b f inner hr ih =>
    cases hroot
    obtain ⟨hup, hbit, -, hright, -, hhangs⟩ := h
    have hlast : head < s.size := lt_size_of_up hup
    obtain ⟨fuel, rfl⟩ := Nat.exists_eq_add_one_of_ne_zero
      (show fuel ≠ 0 by simp only [Shape.height] at hfuel; omega)
    cases ht with
    | @branch _ _ _ _ k m hlevel hown hl htr hle =>
      cases r with
      | leaf j => cases hr
      | branch j c l' r' =>
        have hnext : j < s.size := lt_size_of_up hhangs.up_root
        rw [spineFrom_of_branch full hlast hright hnext (by omega)]
        obtain ⟨e, hspine, hlast', hcase⟩ := ih hhangs htr rfl
          (show _ ≤ fuel by simp only [Shape.height] at hfuel ⊢; omega)
          (if s.levelAt head + 1 < s.levelAt j then j else full)
        refine ⟨e, hspine, hlast', ?_⟩
        rcases hcase with ⟨j, hu, hplace, hdown, hlevel⟩ | ⟨hu, -, hlevel⟩
        · exact Or.inl ⟨j, hu, hplace, hdown, hlevel⟩
        · refine Or.inr ⟨?_, fun hnil => by simp at hnil, hlevel⟩
          simpa using hu

end Store

/-! ### Appending -/

/-- A perfect part of a store is not so high that no level is left above it. -/
theorem Store.Hangs.perfect_lt {s : Store} {place : Place} {t : Shape} {k : Nat}
    (h : s.Hangs place t) (ht : t.Perfect k) (hnodup : t.leaves.Nodup) : k < 31 := by
  have hlen : 2 ^ k ≤ s.size := by
    rw [← ht.length_leaves_eq]
    exact Store.length_le_size hnodup h.lt_size.1
  have hlt : 2 ^ k < 2 ^ 31 := by
    have hmax : s.size ≤ maxSlots := s.size_le
    unfold maxSlots at hmax
    omega
  exact (Nat.pow_lt_pow_iff_right (by decide)).mp hlt

namespace Edit

variable {p q : Plot} {head new j : Slot} {e : Spine}

/-- Appending where the last leaf has room above it. -/
theorem append_of_lt (hspine : p.store.spine head = .ok e) (hlast : e.last < p.store.size)
    (hlevel : p.store.levelAt e.last < -1) (hdown : p.store.down e.last .right = some (.leaf j))
    (hq : fillHole e.last j new p = .ok () q) : append head new p = .ok new q := by
  have hask : ask (·.store.spine head) p = .ok e p := ask_of_ok hspine
  have hfollow : (p.store.nodeAt e.last).right.follow = .ok (.leaf j) := Store.follow_eq_ok hdown
  have hneg : (p.store.nodeAt e.last).bit.toInt < -1 := hlevel
  rw [append, bind_of_ok hask, bind_of_ok (node_of_lt hlast), if_pos hneg,
    bind_of_ok (ofOutcome_of_ok hfollow p)]
  exact bind_of_ok hq

/-- Appending where the spine goes down to the lowest level. -/
theorem append_of_lowest (hspine : p.store.spine head = .ok e) (hlast : e.last < p.store.size)
    (hlevel : p.store.levelAt e.last = -1) (hq : stack e.full new p = .ok () q) :
    append head new p = .ok new q := by
  have hask : ask (·.store.spine head) p = .ok e p := ask_of_ok hspine
  have hneg : ¬ (p.store.nodeAt e.last).bit.toInt < -1 := by
    unfold Store.levelAt at hlevel
    omega
  rw [append, bind_of_ok hask, bind_of_ok (node_of_lt hlast), if_neg hneg]
  exact bind_of_ok hq

/-- **Appending** grafts the new leaf beside the first perfect part of the right side. -/
theorem append_grafted {path inner : Path} {t u : Shape} {k : Nat}
    (hhangs : p.store.Hangs .root (Path.fill path t))
    (hdistinct : (Path.fill path t).Distinct) (ht : t.Tied k) (hroot : t.root = .branch head)
    (hseam : t.Seam inner u) (hnew : new < p.store.size) (hleaf : new ∉ t.leaves)
    (hbranch : new ∉ t.branches) :
    ∃ q, append head new p = .ok new q ∧
      Grafted p (Path.place (inner ++ path)) u.root new .right (u.level - 1) q := by
  have hfill : Path.fill (inner ++ path) u = Path.fill path t := by
    rw [Path.fill_append, hseam.fill_eq]
  obtain ⟨huNodup, -, -⟩ := List.nodup_append.mp
    ((Path.leaves_fill_perm (inner ++ path) u).nodup_iff.mp (hfill ▸ hdistinct.leaves))
  obtain ⟨htB, -, -⟩ := List.nodup_append.mp
    ((Path.branches_fill path t).nodup_iff.mp hdistinct.branches)
  have htHangs := (Store.hangs_fill.mp hhangs).2
  obtain ⟨huLines, huHangs⟩ := Store.hangs_fill.mp (hfill ▸ hhangs)
  have huL : u.leaves ⊆ t.leaves := by
    intro i hi
    rw [← hseam.fill_eq]
    exact (Path.leaves_fill_perm inner u).mem_iff.mpr (List.mem_append_left _ hi)
  have huB : u.branches ⊆ t.branches := by
    intro i hi
    rw [← hseam.fill_eq]
    exact (Path.branches_fill inner u).mem_iff.mpr (List.mem_append_left _ hi)
  obtain ⟨e, hspine, hlast, hcase⟩ := htHangs.spineFrom_seam ht hseam hroot
    (Nat.le_succ_of_le (htHangs.height_le htB)) head
  rcases hcase with ⟨j, rfl, hplace, hdown, hlevel⟩ | ⟨hu, hfull, hlevel⟩
  · -- the last leaf hangs right of the last branch, with levels between them left free
    have hplace' : Path.place (inner ++ path) = .under e.last .right := by
      cases inner with
      | nil => simp at hplace
      | cons f fs => exact hplace
    have hold : p.store.up (.leaf j) = some (.under e.last .right) := hplace' ▸ huHangs
    have hne : j ≠ new := fun h => hleaf (h ▸ huL (List.mem_singleton.mpr rfl))
    obtain ⟨q, hq, hgraft⟩ := fillHole_grafted hnew hold hlast hne
    rw [hplace']
    exact ⟨q, append_of_lt hspine hlast hlevel hdown hq, hgraft⟩
  · -- the spine goes down to the lowest level, and the full part is stacked upon
    have hu' : u.root = .branch e.full := by
      rw [hu]
      split
      · next hnil => rw [hfull hnil]
      · rfl
    obtain ⟨k', hperfect⟩ := hseam.perfect
    have hulevel : p.store.levelAt e.full = u.level := huHangs.levelAt_root hu'
    have hk' : k' < 31 := huHangs.perfect_lt hperfect huNodup
    have huk : u.level = -k' := hperfect.tied.level_eq
    have hold : p.store.up (.branch e.full) = some (Path.place (inner ++ path)) := by
      rw [← hu']
      exact huHangs.up_root
    obtain ⟨q, hq, hgraft⟩ := stack_grafted hnew hold (Plot.hasPlace_of_lines huLines)
      (fun h => hbranch (h ▸ huB (Shape.mem_branches_of_root hu'))) (by omega)
    rw [hu', ← hulevel]
    exact ⟨q, append_of_lowest hspine hlast hlevel hq, hgraft⟩

end Edit

end BitTrie
