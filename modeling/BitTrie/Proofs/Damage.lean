import BitTrie.Proofs.Certified
import BitTrie.Proofs.Mirrored

/-!
# What an audit says of a damaged tree

One field of a slot that is in use is overwritten: a child link, a link back, or the bit of a
branch on a bit.  Then the audit of the tree meets a flaw, whatever the field is overwritten with.
A child link that leads elsewhere meets no link back; a link back no longer names the place that
the links down lead to; and a branch on another bit no longer parts the entries below it.

## Main definitions

* `Plot.overwrite`, `Plot.Damaged` — a changed node, and one live field changed.

## Main results

* `Plot.Holds.not_passes_child`, `Plot.Holds.not_passes_up`, `Plot.Holds.not_passes_bit` — no
  shape passes in a damaged tree.
* `Forest.calls_audit_damaged` — **every single damage is detected**, after any run.
-/

namespace BitTrie

/-! ### Changed nodes -/

/-- The tree with one node of its store changed. -/
def Plot.overwrite (p : Plot) (i : Slot) (f : Node → Node) : Plot :=
  { p with store := p.store.modifyNode i f }

/-- One field of a slot that serves in the tree is overwritten with another value. -/
inductive Plot.Damaged (p : Plot) : Plot → Prop where
  /-- A child link of a branch. -/
  | child {i : Slot} {side : Side} {link : ChildLink} (hi : i ∈ p.branches)
    (hne : link ≠ (p.store.nodeAt i).child side) :
    Damaged p (p.overwrite i fun n => n.setChild side link)
  /-- The link back of a branch. -/
  | branchUp {i : Slot} {link : ParentLink} (hi : i ∈ p.branches)
    (hne : link ≠ (p.store.nodeAt i).branchUp) :
    Damaged p (p.overwrite i fun n => { n with branchUp := link })
  /-- The link back of an entry. -/
  | leafUp {i : Slot} {link : ParentLink} (hi : i ∈ p.entries)
    (hne : link ≠ (p.store.nodeAt i).leafUp) :
    Damaged p (p.overwrite i fun n => { n with leafUp := link })
  /-- The bit of a branch on a bit. -/
  | bit {i : Slot} {bit : Int32} (hi : i ∈ p.branches) (hbit : 0 ≤ p.store.levelAt i)
    (hne : bit ≠ (p.store.nodeAt i).bit) :
    Damaged p (p.overwrite i fun n => { n with bit := bit })

section

variable {p : Plot} {i j : Slot} {side : Side} {c : Child} {f : Node → Node}

theorem Plot.nodeAt_overwrite (hi : i < p.store.size) (j : Slot) :
    (p.overwrite i f).store.nodeAt j =
      if i = j then f (p.store.nodeAt j) else p.store.nodeAt j := by
  rw [overwrite, Store.nodeAt_modifyNode]
  simp only [hi, and_true]

theorem Plot.keyAt_overwrite (j : Slot) :
    (p.overwrite i f).store.keyAt j = p.store.keyAt j := Store.keyAt_modifyNode _ _ _ _

/-- A change that keeps links back is not seen in them. -/
theorem Plot.up_overwrite (hi : i < p.store.size) (hf : ∀ n r, (f n).up r = n.up r) (c : Child) :
    (p.overwrite i f).store.up c = p.store.up c := by
  rw [Store.up, nodeAt_overwrite hi]
  split
  · rw [hf]
    rfl
  · rfl

/-- A change that keeps child links is not seen in them. -/
theorem Plot.down_overwrite (hi : i < p.store.size) (hf : ∀ n, (f n).child side = n.child side)
    (j : Slot) : (p.overwrite i f).store.down j side = p.store.down j side := by
  rw [Store.down, nodeAt_overwrite hi]
  split
  · rw [hf]
    rfl
  · rfl

/-- A change that keeps bits is not seen in them. -/
theorem Plot.levelAt_overwrite (hi : i < p.store.size) (hf : ∀ n, (f n).bit = n.bit) (j : Slot) :
    (p.overwrite i f).store.levelAt j = p.store.levelAt j := by
  rw [Store.levelAt, nodeAt_overwrite hi]
  split
  · rw [hf]
    rfl
  · rfl

/-- Another slot is not changed. -/
theorem Plot.nodeAt_overwrite_of_ne (hi : i < p.store.size) (hij : j ≠ i) :
    (p.overwrite i f).store.nodeAt j = p.store.nodeAt j := by
  rw [nodeAt_overwrite hi, if_neg hij.symm]

end

/-! ### Links -/

namespace Plot

variable {p : Plot} {t t' : Shape} {i : Slot}

/-- What hangs at the top of a damaged tree is what hung there before. -/
theorem Holds.root_eq {f : Node → Node} (h : p.Holds t) (h' : (p.overwrite i f).Holds t') :
    t'.root = t.root := Option.some.inj (h'.1.symm.trans h.1)

/-- With another child link a branch leads to something that does not link back. -/
theorem Holds.not_passes_child {side : Side} {link : ChildLink} (h : p.Holds t)
    (hi : i ∈ t.branches)
    (hmirrored : ∀ c i side, p.store.up c = some (.under i side) → p.store.down i side = some c)
    (hne : link ≠ (p.store.nodeAt i).child side) :
    ¬ (p.overwrite i fun n => n.setChild side link).Passes t' := by
  intro h'
  have hlt := h.2.lt_size.2 i hi
  -- the branch is still met, since the links down to it have not changed
  have hi' : i ∈ t'.branches := by
    refine h.2.mem_branches_of_root h'.holds.2 (h.root_eq h'.holds) hi fun j hj side' => ?_
    rw [Store.down, nodeAt_overwrite_of_ne hlt hj]
    rfl
  obtain ⟨c, hdown, hup⟩ := h'.holds.2.up_down hi' side
  rw [up_overwrite hlt (fun n r => Node.up_setChild n side link r)] at hup
  have hold := hmirrored c i side hup
  rw [Store.down, nodeAt_overwrite hlt, if_pos rfl, Node.child_setChild_self] at hdown
  exact hne (ChildLink.ext_child? (hdown.trans hold.symm))

/-- With another link back a slot does not name the place it is met at. -/
theorem Holds.not_passes_up {c : Child} {link : ParentLink} (h : p.Holds t) (hc : t.Has c)
    (hne : link ≠ (p.store.nodeAt c.slot).up c.role) :
    ¬ (p.overwrite c.slot fun n => n.setUp c.role link).Passes t' := by
  intro h'
  have hlt : c.slot < p.store.size := by
    cases c with
    | leaf i => exact h.2.lt_size.1 i hc
    | branch i => exact h.2.lt_size.2 i hc
  -- the links down spell out the same shape as before
  obtain rfl : t' = t := by
    refine h.2.eq_of_root h'.holds.2 (h.root_eq h'.holds) fun j _ => ⟨?_, fun side => ?_⟩
    · exact levelAt_overwrite hlt (fun n => Node.bit_setUp n _ _) j
    · exact down_overwrite hlt (fun n => Node.child_setUp n _ _ _) j
  have hup := h.2.up_eq h'.holds.2 hc
  rw [Store.up, nodeAt_overwrite hlt, if_pos rfl, Node.up_setUp, if_pos rfl] at hup
  exact hne (ParentLink.ext_place? hup)

end Plot

/-! ### Bits -/

/-- Every branch is at the end of a path. -/
theorem Shape.exists_path_branch {t : Shape} {i : Slot} (hi : i ∈ t.branches) :
    ∃ (path : Path) (b : Int) (l r : Shape), path.fill (.branch i b l r) = t := by
  induction t with
  | leaf j => exact absurd hi List.not_mem_nil
  | branch j b l r ihl ihr =>
    rcases List.mem_cons.mp hi with rfl | hi
    · exact ⟨[], b, l, r, rfl⟩
    · rcases List.mem_append.mp hi with hi | hi
      · obtain ⟨path, b', l', r', hpath⟩ := ihl hi
        exact ⟨path ++ [⟨j, b, .left, r⟩], b', l', r', by rw [Path.fill_append, hpath]; rfl⟩
      · obtain ⟨path, b', l', r', hpath⟩ := ihr hi
        exact ⟨path ++ [⟨j, b, .right, l⟩], b', l', r', by rw [Path.fill_append, hpath]; rfl⟩

/-- A path in a sorted shape passes no level, or ends among equal entries. -/
theorem Shape.Sorted.ordinary_or_tied {key : Slot → Key} {path : Path} {t : Shape}
    (h : (path.fill t).Sorted key) : path.Ordinary ∨ ∃ k, t.Tied k := by
  induction path generalizing t with
  | nil => exact Or.inl fun f hf => absurd hf List.not_mem_nil
  | cons f fs ih =>
    have htied : (∃ k, (f.close t).Tied k) → ∃ k, t.Tied k := by
      rintro ⟨k, hk⟩
      obtain ⟨-, k', hk', -⟩ := hk.of_close
      exact ⟨k', hk'⟩
    rcases ih h with hfs | hclose
    · rcases Int.lt_or_le f.bit 0 with hneg | hnonneg
      · rw [Path.fill_cons] at h
        have hclose := h.of_fill hfs
        exact Or.inr (htied (hclose.tied_of_close hneg))
      · exact Or.inl (Path.ordinary_cons.mpr ⟨hnonneg, hfs⟩)
    · exact Or.inr (htied hclose)

section

variable {key : Slot → Key} {i : Slot} {b b' : Int} {l r : Shape}

/-- The two sides of a branch cannot be parted on two bits. -/
theorem Shape.Parted.bit_unique (h : (branch i b l r).Parted key)
    (h' : (branch i b' l r).Parted key) (hb : 0 ≤ b) (hb' : 0 ≤ b') : b' = b := by
  -- the leftmost entries of the two sides agree before either bit, and differ on both
  obtain ⟨hsame, hzero, hone⟩ :=
    (h.of_nonneg hb).1.sides l.oldest_mem_firsts r.oldest_mem_firsts
  obtain ⟨hsame', hzero', hone'⟩ :=
    (h'.of_nonneg hb').1.sides l.oldest_mem_firsts r.oldest_mem_firsts
  rcases Nat.lt_trichotomy b'.toNat b.toNat with hlt | heq | hgt
  · have hbit := hsame _ hlt
    rw [hzero', hone'] at hbit
    cases hbit
  · omega
  · have hbit := hsame' _ hgt
    rw [hzero, hone] at hbit
    cases hbit

/-- A bit past the end of a key is not set. -/
theorem Key.lt_of_bitAt {k : Key} {p : Nat} (h : k.bitAt p = true) : p < 8 * k.size := by
  by_contra hge
  rw [bitAt, byteAt_of_size_le (by omega)] at h
  exact absurd h (by simp)

/-- The two sides of a branch on a bit are not one uniform group. -/
theorem Shape.Parted.not_uniform (h : (branch i b l r).Parted key) (hb : 0 ≤ b) :
    ¬ (branch i b' l r).group.Uniform key := by
  intro huniform
  obtain ⟨hparts, -, -⟩ := h.of_nonneg hb
  -- the oldest entry on the right has a one where the oldest of all has none
  have hmem : r.oldest ∈ (branch i b' l r).group.later := by
    show r.oldest ∈ (l.leaves ++ r.leaves).tail
    rw [l.leaves_eq_cons]
    exact List.mem_append_right _ r.oldest_mem_leaves
  obtain ⟨-, hzero, hone⟩ := hparts.sides l.oldest_mem_firsts r.oldest_mem_firsts
  have halike := Key.alike_iff_sameBits.mp (huniform _ hmem) _ (Key.lt_of_bitAt hone)
  rw [hone] at halike
  exact absurd (halike.trans hzero) (by decide)

end

namespace Plot

variable {p : Plot} {t t' : Shape} {i : Slot}

/-- With another bit in a branch, the links spell out the same shape but for the bit. -/
theorem Holds.hangs_bit {path : Path} {b : Int} {l r : Shape} {bit : Int32}
    (h : p.Holds (path.fill (.branch i b l r)))
    (hdistinct : (path.fill (.branch i b l r)).Distinct) :
    (p.overwrite i fun n => { n with bit := bit }).store.Hangs .root
      (path.fill (.branch i bit.toInt l r)) := by
  obtain ⟨hlines, hup, -, hleft, hright, hl, hr⟩ := Store.hangs_fill.mp h.2
  have hlt : i < p.store.size := Store.lt_size_of_up hup
  obtain ⟨hbranch, -, hbeside⟩ := List.nodup_append.mp
    ((Path.branches_fill path _).nodup_iff.mp hdistinct.branches)
  obtain ⟨hnot, -⟩ := List.nodup_cons.mp hbranch
  rw [List.mem_append, not_or] at hnot
  have hups : ∀ c, (p.overwrite i fun n => { n with bit := bit }).store.up c = p.store.up c :=
    up_overwrite hlt fun n role => by cases role <;> rfl
  have hdowns : ∀ j side,
      (p.overwrite i fun n => { n with bit := bit }).store.down j side = p.store.down j side :=
    fun j side => down_overwrite hlt (fun n => by cases side <;> rfl) j
  -- no other branch than the one that is changed has another bit
  have hkept : ∀ j, j ≠ i →
      (p.overwrite i fun n => { n with bit := bit }).store.up (.branch j) = p.store.up (.branch j) ∧
      (p.overwrite i fun n => { n with bit := bit }).store.levelAt j = p.store.levelAt j ∧
      ∀ side, (p.overwrite i fun n => { n with bit := bit }).store.down j side =
        p.store.down j side := by
    intro j hj
    refine ⟨hups _, ?_, hdowns j⟩
    rw [Store.levelAt, nodeAt_overwrite_of_ne hlt hj]
    rfl
  refine Store.hangs_fill.mpr ⟨hlines.congr (fun j _ => hups _) fun j hj => hkept j ?_,
    (hups _).trans hup, ?_, (hdowns _ _).trans hleft, (hdowns _ _).trans hright,
    hl.congr (fun j _ => hups _) fun j hj => hkept j ?_,
    hr.congr (fun j _ => hups _) fun j hj => hkept j ?_⟩
  · exact fun heq => hbeside i List.mem_cons_self j hj heq.symm
  · rw [Store.levelAt, nodeAt_overwrite hlt, if_pos rfl]
  · exact fun heq => hnot.1 (heq ▸ hj)
  · exact fun heq => hnot.2 (heq ▸ hj)

/-- On another bit a branch does not part the entries below it. -/
theorem Holds.not_passes_bit {bit : Int32} (h : p.Holds t) (hdistinct : t.Distinct)
    (hsorted : t.Sorted p.store.keyAt) (hi : i ∈ t.branches) (hbit : 0 ≤ p.store.levelAt i)
    (hne : bit ≠ (p.store.nodeAt i).bit) :
    ¬ (p.overwrite i fun n => { n with bit := bit }).Passes t' := by
  intro h'
  have hlt := h.2.lt_size.2 i hi
  obtain ⟨path, b, l, r, rfl⟩ := Shape.exists_path_branch hi
  have hb : p.store.levelAt i = b := (Store.hangs_fill.mp h.2).2.2.1
  rw [hb] at hbit
  have hpath : path.Ordinary := by
    refine hsorted.ordinary_or_tied.resolve_right ?_
    rintro ⟨k, hk⟩
    exact absurd hk.neg (Int.not_lt.mpr hbit)
  have hroot : t'.root = (path.fill (.branch i bit.toInt l r)).root := by
    rw [h.root_eq h'.holds]
    cases path with
    | nil => rfl
    | cons f fs => exact Path.root_fill_cons f fs _ _
  obtain rfl := (h.hangs_bit hdistinct).eq_of_root h'.holds.2 hroot fun _ _ => ⟨rfl, fun _ => rfl⟩
  have hkey : (p.overwrite i fun n => { n with bit := bit }).store.keyAt = p.store.keyAt :=
    funext keyAt_overwrite
  have hparted := hsorted.parted.of_fill hpath
  have hparted' := h'.parted.of_fill hpath
  rw [hkey] at hparted'
  rcases Int.lt_or_le bit.toInt 0 with hneg | hnonneg
  · have hclump : Shape.branch i bit.toInt l r ∈ (path.fill (.branch i bit.toInt l r)).clumps := by
      rw [Path.clumps_fill hpath, Shape.clumps_of_neg hneg]
      simp
    have huniform := h'.uniform _ hclump
    rw [hkey] at huniform
    exact hparted.not_uniform hbit huniform
  · refine hne (Int32.toInt_inj.mp ?_)
    exact (hparted.bit_unique hparted' hbit hnonneg).trans hb.symm

end Plot

/-- **Every single damage is detected.**  After any run, when one link or bit that serves in a tree
is overwritten with another value, the audit of the tree meets a flaw.  Before that it has counted
the records, if every record was inserted over at least its own key. -/
theorem Forest.calls_audit_damaged (uniques : List Bool) (cs : List Call) (t : Nat) (p p' : Plot)
    (hp : ((fresh uniques).calls cs).plot t = .ok p) (h : p.Damaged p') :
    ((∀ e ∈ (fresh uniques).history t cs, (p.store.keyAt e.1).size ≤ e.2) →
      p.audit = .ok (.ok ((fresh uniques).history t cs).length)) ∧
    ∃ flaw, p'.audit = .ok (.error flaw) := by
  refine ⟨audit_of_covered uniques cs hp, ?_⟩
  obtain ⟨shapes, hf, ha⟩ := anchored_calls uniques cs
  have hbears := hf.bears_plot hp
  have hmirrored : ∀ c i side, p.store.up c = some (.under i side) →
      p.store.down i side = some c := by
    rw [(plot_eq_ok.mp hp).2]
    exact fun c i side => hf.down_of_up ha
  have hbranches := hbears.branches_eq
  have hentries := hbears.entries_eq
  -- a tree without entries has nothing that can be damaged
  cases hshape : shapes t with
  | none =>
    rw [hshape] at hbranches hentries
    cases h with
    | child hi | branchUp hi | bit hi => exact absurd (hbranches ▸ hi) List.not_mem_nil
    | leafUp hi => exact absurd (hentries ▸ hi) List.not_mem_nil
  | some u =>
    rw [hshape] at hbears
    rw [hshape, Option.map_some, Option.getD_some] at hbranches hentries
    obtain ⟨hholds, hsound⟩ := hbears
    have htop : p'.tree.top = p.tree.top := by cases h <;> rfl
    rcases p'.audit_cases with ⟨hnull, -⟩ | hflaw | ⟨t', ht', -⟩
    · have hroot := hholds.1
      rw [← htop, hnull] at hroot
      cases hroot
    · exact hflaw
    · exfalso
      cases h with
      | child hi hne => exact hholds.not_passes_child (hbranches ▸ hi) hmirrored hne ht'
      | branchUp hi hne =>
        exact hholds.not_passes_up (c := .branch _) (hbranches ▸ hi : _ ∈ u.branches) hne ht'
      | leafUp hi hne =>
        exact hholds.not_passes_up (c := .leaf _) (hentries ▸ hi : _ ∈ u.leaves) hne ht'
      | bit hi hbit hne =>
        exact hholds.not_passes_bit hsound.distinct hsound.sorted (hbranches ▸ hi) hbit hne ht'

/-- With the entries `a` and `b` in a tree, the branch over the two is on a bit.  The audit counts
the two, and on a level in the place of the bit it meets a flaw. -/
theorem Forest.calls_audit_damaged_level :
    ∃ p p', ((fresh [false]).calls [.add #[97], .add #[98], .insert 0 0 1, .insert 0 1 1]).plot 0 =
      .ok p ∧ p.Damaged p' ∧ p'.tree.top.child? = some (.branch 1) ∧ p'.store.levelAt 1 = -1 ∧
        p.audit = .ok (.ok 2) ∧ ∃ flaw, p'.audit = .ok (.error flaw) := by
  have hdamaged : ∀ p, ((fresh [false]).calls
      [.add #[97], .add #[98], .insert 0 0 1, .insert 0 1 1]).plot 0 = .ok p →
      1 ∈ p.branches → 0 ≤ p.store.levelAt 1 → (-1 : Int32) ≠ (p.store.nodeAt 1).bit →
      p.Damaged (p.overwrite 1 fun n => { n with bit := -1 }) :=
    fun p _ hi hbit hne => .bit hi hbit hne
  have hlevel := hdamaged _ rfl (by decide +kernel) (by decide +kernel) (by decide +kernel)
  refine ⟨_, _, rfl, hlevel, by decide +kernel, by decide +kernel, ?_⟩
  obtain ⟨hcounted, hflaw⟩ := calls_audit_damaged [false]
    [.add #[97], .add #[98], .insert 0 0 1, .insert 0 1 1] 0 _ _ rfl hlevel
  exact ⟨hcounted (by decide +kernel), hflaw⟩

end BitTrie
