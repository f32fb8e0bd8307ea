import BitTrie.Proofs.Descent

/-!
# What an insertion does

An insertion into a sound tree does one of four things.  The record becomes the only entry of an
empty tree; it is turned down, because a tree that holds every key once has an entry with an equal
key; it joins the entries with an equal key; or it becomes an entry of its own.  In the last two
cases it is grafted into the tree, and the tree is sound again.

## Main definitions

* `Shape.Sound`, `Plot.Bears` — sound shapes, and the trees that have them.
* `Inserts` — **what an insertion does**, as a shape and in the store.

## Main results

* `Edit.insert_inserts` — an insertion of a record that is in no tree does one of these.
* `Inserts.bears` — and leaves a sound tree behind.
* `Inserts.leaves`, `Inserts.nodeAt_eq` — what it adds, and what it leaves alone.
-/

namespace BitTrie

/-- A sorted shape that meets no slot twice in one role, with every branch among its own leaves,
and only groups of one where every key is held once. -/
structure Shape.Sound (key : Slot → Key) (unique : Bool) (t : Shape) : Prop where
  distinct : t.Distinct
  sorted : t.Sorted key
  single : unique = true → t.Single
  own : t.branches ⊆ t.leaves

/-- A tree is empty, or has a sound shape. -/
def Plot.Bears (p : Plot) : Option Shape → Prop
  | none => p.tree.top = .null
  | some t => p.Holds t ∧ t.Sound p.store.keyAt p.tree.unique

/-- What an insertion of `new` over `len` bytes does to a tree, which entry it gives, and what it
leaves behind. -/
inductive Inserts (p : Plot) (new : Slot) (len : Nat) :
    Option Shape → Slot → Option Shape → Plot → Prop where
  /-- The tree was empty. -/
  | first {q : Plot} (h : Planted p new q) : Inserts p new len none new (some (.leaf new)) q
  /-- An equal key is present, and the tree holds every key once. -/
  | turnedDown {path : Path} {i : Slot} (hunique : p.tree.unique = true)
    (hmeets : Meets p.store.keyAt ((p.store.keyAt new).truncate len) (8 * len) path (.leaf i)) :
    Inserts p new len (some (path.fill (.leaf i))) i (some (path.fill (.leaf i))) p
  /-- There are entries with an equal key, and the new one comes after them. -/
  | joined {path inner : Path} {c u : Shape} {q : Plot} (hunique : p.tree.unique = false)
    (hmeets : Meets p.store.keyAt ((p.store.keyAt new).truncate len) (8 * len) path c)
    (hseam : c.Seam inner u)
    (h : Grafted p (Path.place (inner ++ path)) u.root new .right (u.level - 1) q) :
    Inserts p new len (some (path.fill c)) new
      (some (path.fill (inner.fill (u.graft new .right (u.level - 1))))) q
  /-- No entry has an equal key. -/
  | alone {path : Path} {u : Shape} {d : Nat} {q : Plot}
    (hdiverges : Diverges p.store.keyAt ((p.store.keyAt new).truncate len) (8 * len) path u d)
    (h : Grafted p path.place u.root new (.ofBit ((p.store.keyAt new).bitAt d)) d q) :
    Inserts p new len (some (path.fill u)) new
      (some (path.fill (u.graft new (.ofBit ((p.store.keyAt new).bitAt d)) d))) q

/-! ### Grafts into sound shapes -/

section

variable {key : Slot → Key} {unique : Bool} {path : Path} {u : Shape} {new : Slot}

theorem Shape.Sound.not_mem_branches {t : Shape} (h : t.Sound key unique) (hnew : new ∉ t.leaves) :
    new ∉ t.branches := fun hmem => hnew (h.own hmem)

/-- The branch of a graft is among its leaves. -/
theorem Path.own_fill_graft (h : (path.fill u).branches ⊆ (path.fill u).leaves) (side : Side)
    (bit : Int) : (path.fill (u.graft new side bit)).branches ⊆
      (path.fill (u.graft new side bit)).leaves := by
  intro i hi
  rw [(Path.branches_fill_graft path u new side bit).mem_iff, List.mem_cons] at hi
  rw [(Path.leaves_fill_graft path u new side bit).mem_iff, List.mem_cons]
  exact hi.imp_right fun hi => h hi

theorem Shape.firsts_graft {side : Side} {d : Int} (hd : 0 ≤ d) {x : Slot} :
    x ∈ (u.graft new side d).firsts ↔ x = new ∨ x ∈ u.firsts := by
  cases side with
  | left =>
    rw [graft, firsts_of_nonneg hd, List.mem_append]
    exact or_congr_left List.mem_singleton
  | right =>
    rw [graft, firsts_of_nonneg hd, List.mem_append, or_comm]
    exact or_congr_left List.mem_singleton

/-- A leaf on the side of its bit, beside entries that all have the other bit there. -/
theorem Shape.Sorted.graft (h : u.Sorted key) {d : Nat}
    (hsame : ∀ x ∈ u.firsts, (key x).SameBits (key new) d)
    (hdiff : ∀ x ∈ u.firsts, (key x).bitAt d ≠ (key new).bitAt d) :
    (u.graft new (.ofBit ((key new).bitAt d)) d).Sorted key := by
  have hd : (0 : Int) ≤ d := Int.natCast_nonneg d
  have hall : ∀ side, ∀ x ∈ (u.graft new side d).firsts, (key x).SameBits (key new) d := by
    intro side x hx
    rcases (Shape.firsts_graft hd).mp hx with rfl | hx
    · exact fun p hp => rfl
    · exact hsame x hx
  -- the new leaf goes to the side of its own bit, the others are on the opposite side
  cases hbit : (key new).bitAt d with
  | false =>
    refine .branch ⟨hd, hall .left, ?_, ?_⟩ ?_ (.leaf new) h
    · intro x hx
      rw [List.mem_singleton.mp hx]
      exact hbit
    · intro x hx
      have hx' := hdiff x hx
      rw [hbit, ne_eq, Bool.not_eq_false] at hx'
      exact hx'
    · exact List.mem_append_left _ (List.mem_singleton.mpr rfl)
  | true =>
    refine .branch ⟨hd, hall .right, ?_, ?_⟩ ?_ h (.leaf new)
    · intro x hx
      have hx' := hdiff x hx
      rw [hbit, ne_eq, Bool.not_eq_true] at hx'
      exact hx'
    · intro x hx
      rw [List.mem_singleton.mp hx]
      exact hbit
    · exact List.mem_append_right _ (List.mem_singleton.mpr rfl)

/-- A key that diverges has the same bit there, cut off or not. -/
theorem Diverges.bitAt_truncate {k : Key} {len d : Nat}
    (h : Diverges key (k.truncate len) (8 * len) path u d) :
    (k.truncate len).bitAt d = k.bitAt d := by
  rw [Key.bitAt_truncate, if_pos h.lt_bits]

/-- A graft where a key diverges keeps a shape sorted. -/
theorem Diverges.sorted {len d : Nat}
    (h : Diverges key ((key new).truncate len) (8 * len) path u d)
    (hsorted : (path.fill u).Sorted key) :
    (path.fill (u.graft new (.ofBit ((key new).bitAt d)) d)).Sorted key := by
  have htrunc := Key.sameBits_truncate (key new) len
  have hsame : ∀ x ∈ u.firsts, (key x).SameBits (key new) d := fun x hx =>
    (h.same x hx).symm.trans (htrunc.mono (Nat.le_of_lt h.lt_bits))
  have hdiff : ∀ x ∈ u.firsts, (key x).bitAt d ≠ (key new).bitAt d := by
    intro x hx
    rw [← h.bitAt_truncate]
    exact h.differs x hx
  have hd : (0 : Int) ≤ d := Int.natCast_nonneg d
  refine Path.sorted_fill_of hsorted h.ordinary ((hsorted.of_fill h.ordinary).graft hsame hdiff)
    (fun x hx => (Shape.firsts_graft hd).mpr (Or.inr hx)) ?_
  intro y hy
  rcases (Shape.firsts_graft hd).mp hy with rfl | hy
  · obtain ⟨x, hx⟩ := List.exists_mem_of_ne_nil _ u.firsts_ne_nil
    exact ⟨x, hx, fun f hf => (hsame x hx).symm.mono (h.past f hf)⟩
  · exact ⟨y, hy, fun f hf p hp => rfl⟩

/-- A graft on a bit makes one more group, of one entry. -/
theorem Shape.mem_clumps_fill_graft (hpath : path.Ordinary) {side : Side} {d : Int} (hd : 0 ≤ d)
    {c : Shape} : c ∈ (path.fill (u.graft new side d)).clumps ↔
      c = .leaf new ∨ c ∈ (path.fill u).clumps := by
  rw [Path.clumps_fill hpath, Path.clumps_fill hpath]
  cases side with
  | left =>
    simp only [Shape.graft, Shape.clumps_of_nonneg hd, Shape.clumps_leaf, List.mem_append,
      List.mem_singleton]
    tauto
  | right =>
    simp only [Shape.graft, Shape.clumps_of_nonneg hd, Shape.clumps_leaf, List.mem_append,
      List.mem_singleton]
    tauto

/-- What a graft into equal entries makes is a subtree of equal entries with the same oldest. -/
theorem Shape.Seam.oldest_graft {c : Shape} {inner : Path} (h : c.Seam inner u) (new : Slot) :
    (inner.fill (u.graft new .right (u.level - 1))).oldest = c.oldest := by
  have hleaves := h.leaves_graft new
  rw [leaves_eq_cons, leaves_eq_cons c] at hleaves
  exact (List.cons.inj hleaves).1

/-- A graft into equal entries keeps a shape sorted. -/
theorem Meets.sorted {k : Key} {bits : Nat} {c : Shape} {inner : Path}
    (h : Meets key k bits path c) (hseam : c.Seam inner u) (hsorted : (path.fill c).Sorted key) :
    (path.fill (inner.fill (u.graft new .right (u.level - 1)))).Sorted key := by
  obtain ⟨n, hc⟩ := h.tied
  obtain ⟨n', hc'⟩ := hseam.tied_graft hc new
  have hfirsts : (inner.fill (u.graft new .right (u.level - 1))).firsts = c.firsts := by
    rw [hc'.firsts_eq, hc.firsts_eq, hseam.oldest_graft]
  refine Path.sorted_fill_of hsorted h.ordinary (.tied hc') (by rw [hfirsts]; exact fun _ h => h)
    fun y hy => ⟨y, hfirsts ▸ hy, fun f hf p hp => rfl⟩

end

/-! ### What an insertion leaves behind -/

section

variable {p q : Plot} {new r i len : Nat} {o o' : Option Shape}

/-- A record that is in no tree is no leaf of this one. -/
theorem Store.Hangs.not_mem_of_free {s : Store} {place : Place} {t : Shape}
    (h : s.Hangs place t) (hfree : s.isResident i = .ok false) : i ∉ t.leaves := fun hi =>
  Bool.false_ne_true ((Store.isResident_eq_ok.mp hfree).2.symm.trans (h.up_leaf hi))

/-- **An insertion leaves a sound tree behind.** -/
theorem Inserts.bears (h : Inserts p new len o r o' q) (hp : p.Bears o)
    (hfree : p.store.isResident new = .ok false) : q.Bears o' := by
  cases h with
  | first h =>
    refine ⟨⟨h.top, ?_⟩, ⟨⟨?_, ?_⟩, .leaf new, ?_, ?_⟩⟩
    · show q.store.up (.leaf new) = some .root
      rw [h.up, if_pos rfl]
    · exact List.nodup_singleton new
    · exact List.nodup_nil
    · exact fun _ c hc => ⟨new, List.mem_singleton.mp hc⟩
    · exact fun i hi => absurd hi List.not_mem_nil
  | turnedDown hunique hmeets => exact hp
  | @joined path inner c u q hunique hmeets hseam h =>
    obtain ⟨hholds, hsound⟩ := hp
    have hleaf := hholds.2.not_mem_of_free hfree
    have hbranch := hsound.not_mem_branches hleaf
    -- the seam lies further down, so the path to the graft is the longer one
    have hfill : Path.fill (inner ++ path) u = path.fill c := by
      rw [Path.fill_append, hseam.fill_eq]
    have hsound' := hsound
    rw [← hfill] at hholds hleaf hbranch hsound'
    refine ⟨?_, ⟨?_, ?_, ?_, ?_⟩⟩
    · rw [← Path.fill_append]
      exact h.holds hholds hsound'.distinct hleaf hbranch
    · rw [← Path.fill_append]
      exact Path.distinct_fill_graft hsound'.distinct hleaf hbranch _ _
    · refine (hmeets.sorted hseam hsound.sorted).congr fun i _ => h.key i
    · intro hu
      rw [h.unique, hunique] at hu
      cases hu
    · rw [← Path.fill_append]
      exact Path.own_fill_graft hsound'.own _ _
  | @alone path u d q hdiverges h =>
    obtain ⟨hholds, hsound⟩ := hp
    have hleaf := hholds.2.not_mem_of_free hfree
    have hbranch := hsound.not_mem_branches hleaf
    refine ⟨h.holds hholds hsound.distinct hleaf hbranch,
      ⟨Path.distinct_fill_graft hsound.distinct hleaf hbranch _ _, ?_, ?_,
        Path.own_fill_graft hsound.own _ _⟩⟩
    · exact (hdiverges.sorted hsound.sorted).congr fun i _ => h.key i
    · intro hu c hc
      rcases (Shape.mem_clumps_fill_graft hdiverges.ordinary (Int.natCast_nonneg d)).mp hc
        with rfl | hc
      · exact ⟨new, rfl⟩
      · exact hsound.single (h.unique ▸ hu) c hc

theorem Inserts.unique (h : Inserts p new len o r o' q) : q.tree.unique = p.tree.unique := by
  cases h with
  | first h => exact h.unique
  | turnedDown hunique hmeets => rfl
  | joined hunique hmeets hseam h => exact h.unique
  | alone hdiverges h => exact h.unique

theorem Inserts.size (h : Inserts p new len o r o' q) : q.store.size = p.store.size := by
  cases h with
  | first h => exact h.size
  | turnedDown hunique hmeets => rfl
  | joined hunique hmeets hseam h => exact h.size
  | alone hdiverges h => exact h.size

theorem Inserts.keyAt (h : Inserts p new len o r o' q) (i : Slot) :
    q.store.keyAt i = p.store.keyAt i := by
  cases h with
  | first h => exact h.key i
  | turnedDown hunique hmeets => rfl
  | joined hunique hmeets hseam h => exact h.key i
  | alone hdiverges h => exact h.key i

/-- The entries afterwards: one more, unless the record was turned down. -/
theorem Inserts.leaves (h : Inserts p new len o r o' q) :
    (r = new ∧ ∃ t', o' = some t' ∧ t'.leaves.Perm (new :: (o.map Shape.leaves).getD [])) ∨
      (q = p ∧ o' = o ∧ ∃ t, o = some t ∧ r ∈ t.leaves) := by
  cases h with
  | first h => exact Or.inl ⟨rfl, _, rfl, List.Perm.refl _⟩
  | @turnedDown path i hunique hmeets =>
    refine Or.inr ⟨rfl, rfl, _, rfl, ?_⟩
    rw [(Path.leaves_fill_perm path _).mem_iff]
    exact List.mem_append_left _ (List.mem_singleton.mpr rfl)
  | @joined path inner c u q hunique hmeets hseam h =>
    refine Or.inl ⟨rfl, _, rfl, ?_⟩
    rw [← Path.fill_append]
    refine (Path.leaves_fill_graft (inner ++ path) u new _ _).trans ?_
    rw [Path.fill_append, hseam.fill_eq]
    exact List.Perm.refl _
  | @alone path u d q hdiverges h =>
    exact Or.inl ⟨rfl, _, rfl, Path.leaves_fill_graft path u new _ _⟩

theorem Inserts.mem_leaves (h : Inserts p new len o r o' q) {t' : Shape} (ht' : o' = some t')
    (hi : i ∈ t'.leaves) : i = new ∨ ∃ t, o = some t ∧ i ∈ t.leaves := by
  rcases h.leaves with ⟨-, t, ht, hperm⟩ | ⟨-, ho, -⟩
  · rw [ht', Option.some.injEq] at ht
    subst ht
    rcases List.mem_cons.mp (hperm.mem_iff.mp hi) with hi | hi
    · exact Or.inl hi
    · cases o with
      | none => exact absurd hi List.not_mem_nil
      | some u => exact Or.inr ⟨u, rfl, hi⟩
  · exact Or.inr ⟨t', ho ▸ ht', hi⟩

theorem Inserts.mem_leaves_of_mem (h : Inserts p new len o r o' q) {t : Shape} (ht : o = some t)
    (hi : i ∈ t.leaves) : ∃ t', o' = some t' ∧ i ∈ t'.leaves := by
  rcases h.leaves with ⟨-, t', ht', hperm⟩ | ⟨-, ho, -⟩
  · refine ⟨t', ht', hperm.mem_iff.mpr (List.mem_cons_of_mem _ ?_)⟩
    rw [ht]
    exact hi
  · exact ⟨t, ho.trans ht, hi⟩

/-- A graft touches the new slot and slots of the tree only. -/
theorem Grafted.nodeAt_of_not_mem {path : Path} {u : Shape} {side : Side} {bit : Int}
    (h : Grafted p path.place u.root new side bit q) (hi : i ≠ new)
    (hleaf : i ∉ (path.fill u).leaves) (hbranch : i ∉ (path.fill u).branches) :
    q.store.nodeAt i = p.store.nodeAt i := by
  rw [(Path.leaves_fill_perm path u).mem_iff, List.mem_append, not_or] at hleaf
  rw [(Path.branches_fill path u).mem_iff, List.mem_append, not_or] at hbranch
  refine h.nodeAt_eq hi ?_ ?_
  · intro heq
    cases hroot : u.root with
    | leaf j =>
      rw [hroot] at heq
      exact hleaf.1 (heq ▸ Shape.mem_leaves_of_root hroot)
    | branch j =>
      rw [hroot] at heq
      exact hbranch.1 (heq ▸ Shape.mem_branches_of_root hroot)
  · intro t hplace
    cases path with
    | nil => cases hplace
    | cons f fs =>
      cases hplace
      exact hbranch.2 List.mem_cons_self

/-- An insertion touches the new slot and slots of the tree only. -/
theorem Inserts.nodeAt_eq (h : Inserts p new len o r o' q) (hp : p.Bears o) (hi : i ≠ new)
    (hleaf : ∀ t, o = some t → i ∉ t.leaves) : q.store.nodeAt i = p.store.nodeAt i := by
  cases h with
  | first h => exact h.nodeAt_eq hi
  | turnedDown hunique hmeets => rfl
  | @joined path inner c u q hunique hmeets hseam h =>
    have hfill : Path.fill (inner ++ path) u = path.fill c := by
      rw [Path.fill_append, hseam.fill_eq]
    have hleaf' := hleaf _ rfl
    refine h.nodeAt_of_not_mem hi (hfill ▸ hleaf') ?_
    rw [hfill]
    exact hp.2.not_mem_branches hleaf'
  | @alone path u d q hdiverges h =>
    have hleaf' := hleaf _ rfl
    exact h.nodeAt_of_not_mem hi hleaf' (hp.2.not_mem_branches hleaf')

end

/-! ### The insertion -/

namespace Edit

variable {p : Plot} {new len : Nat} {o : Option Shape}

/-- Where a graft goes there is room for a link, and it is not the new slot's. -/
theorem splice_of_holds {path : Path} {u : Shape} (hp : p.Holds (path.fill u))
    (hnew : new < p.store.size) (hleaf : new ∉ (path.fill u).leaves)
    (hbranch : new ∉ (path.fill u).branches) (side : Side) (bit : Int32) :
    ∃ q, splice path.place u.root new side bit p = .ok () q ∧
      Grafted p path.place u.root new side bit.toInt q := by
  obtain ⟨hlines, hu⟩ := Store.hangs_fill.mp hp.2
  rw [(Path.leaves_fill_perm path u).mem_iff, List.mem_append, not_or] at hleaf
  rw [(Path.branches_fill path u).mem_iff, List.mem_append, not_or] at hbranch
  refine splice_grafted side bit hnew hu.up_root ?_ (Plot.hasPlace_of_lines hlines) ?_
  · intro heq
    cases hroot : u.root with
    | leaf j =>
      rw [hroot] at heq
      exact hleaf.1 (heq ▸ Shape.mem_leaves_of_root hroot)
    | branch j =>
      rw [hroot] at heq
      exact hbranch.1 (heq ▸ Shape.mem_branches_of_root hroot)
  · intro t hplace
    cases path with
    | nil => cases hplace
    | cons f fs =>
      cases hplace
      exact hbranch.2 List.mem_cons_self

/-- Settling at a landing that is right does what an insertion should. -/
theorem settle_inserts {t : Shape} {landing : Landing} (hlen : len ≤ maxKeyLength)
    (hp : p.Bears (some t)) (hfree : p.store.isResident new = .ok false)
    (h : Landed p.store.keyAt ((p.store.keyAt new).truncate len) (8 * len) p.tree.unique t
      landing) :
    ∃ r q o', settle new landing p = .ok r q ∧ Inserts p new len (some t) r o' q := by
  obtain ⟨hholds, hsound⟩ := hp
  have hnew := (Store.isResident_eq_ok.mp hfree).1
  have hleaf := hholds.2.not_mem_of_free hfree
  have hbranch := hsound.not_mem_branches hleaf
  cases h with
  | @present path i hunique hmeets => exact ⟨i, p, _, rfl, .turnedDown hunique hmeets⟩
  | @append path c head hunique hroot hmeets =>
    obtain ⟨n, hc⟩ := hmeets.tied
    obtain ⟨inner, u, hseam⟩ := hc.exists_seam
    rw [(Path.leaves_fill_perm path c).mem_iff, List.mem_append, not_or] at hleaf
    rw [(Path.branches_fill path c).mem_iff, List.mem_append, not_or] at hbranch
    obtain ⟨q, hq, hgraft⟩ := append_grafted hholds.2 hsound.distinct hc hroot hseam hnew
      hleaf.1 hbranch.1
    exact ⟨new, q, _, hq, .joined hunique hmeets hseam hgraft⟩
  | @pair path i hunique hmeets =>
    obtain ⟨q, hq, hgraft⟩ := splice_of_holds hholds hnew hleaf hbranch .right (-1)
    exact ⟨new, q, _, bind_of_ok hq, .joined hunique hmeets (.whole (.leaf i)) hgraft⟩
  | @apart path u d hdiverges =>
    -- a bit position below the length of a key fits a node
    have hd : (Int32.ofNat d).toInt = d := by
      have hlt := hdiverges.lt_bits
      unfold maxKeyLength at hlen
      exact Int32.toInt_ofNat_of_lt (by omega)
    obtain ⟨q, hq, hgraft⟩ := splice_of_holds hholds hnew hleaf hbranch
      (.ofBit ((p.store.keyAt new).bitAt d)) (Int32.ofNat d)
    rw [hd] at hgraft
    rw [← hdiverges.bitAt_truncate] at hq
    exact ⟨new, q, _, bind_of_ok hq, .alone hdiverges hgraft⟩

/-- **An insertion** of a record that is in no tree, over no more bytes than a key can have. -/
theorem insert_inserts (hlen : len ≤ maxKeyLength) (hp : p.Bears o)
    (hfree : p.store.isResident new = .ok false) :
    ∃ r q o', insert new len p = .ok r q ∧ Inserts p new len o r o' q := by
  have hnew := (Store.isResident_eq_ok.mp hfree).1
  have hbits : Key.bitLength len = .ok (8 * len) := if_pos hlen
  have hempty : ask (fun p => .ok p.tree.isEmpty) p = .ok p.tree.isEmpty p := ask_of_ok rfl
  have hkey : ask (·.store.key new) p = .ok (p.store.keyAt new) p :=
    ask_of_ok (Store.key_eq_ok hnew)
  rw [insert, bind_of_ok (ask_of_ok hfree)]
  simp only [Bool.false_eq_true, if_false]
  rw [bind_of_ok (ofOutcome_of_ok hbits p), bind_of_ok hempty]
  cases o with
  | none =>
    have htop : p.tree.top = .null := hp
    obtain ⟨q, hq, hplanted⟩ := plant_planted hnew htop
    have hisEmpty : p.tree.isEmpty = true := by rw [Tree.isEmpty, htop]; rfl
    rw [if_pos hisEmpty]
    exact ⟨new, q, _, hq, .first hplanted⟩
  | some t =>
    obtain ⟨hholds, hsound⟩ := hp
    have hisEmpty : ¬ p.tree.isEmpty = true := hholds.not_isEmpty
    obtain ⟨landing, hlanding, hlanded⟩ := Plot.landing_landed
      (k := (p.store.keyAt new).truncate len) hlen hholds hsound.distinct.branches hsound.sorted
      hsound.single
    have hask : ask (·.landing ((p.store.keyAt new).truncate len) (8 * len)) p = .ok landing p :=
      ask_of_ok hlanding
    rw [if_neg hisEmpty, bind_of_ok hkey, bind_of_ok hask]
    exact settle_inserts hlen ⟨hholds, hsound⟩ hfree hlanded

end Edit

end BitTrie
