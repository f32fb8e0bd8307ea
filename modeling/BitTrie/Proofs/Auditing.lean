import BitTrie.Audit
import BitTrie.Proofs.History

/-!
# What an audit says of sound trees

In a sound tree every question of an audit is answered as it should be, but one: a later member of
a group may have been inserted over fewer bytes than its key has, and need not agree with the
oldest member over the others.

## Main definitions

* `Group.Uniform` — every member agrees with the oldest as far as its own key goes.
* `Shape.verdict` — the first flaw that an audit meets.
* `Vouched` — what an audit can count on at a place.
* `Survey.after` — what has been met after a part of a tree.

## Main results

* `Plot.inspectBranch_eq`, `Store.inspectEntry_eq` — what is said of a branch and of an entry.
* `Plot.auditFrom_eq` — **an audit of a part** meets its first flaw, or goes on with the rest.
* `Forest.calls_audit` — the audit of a tree after any run.
-/

namespace BitTrie

/-- Every member of a group agrees with the oldest as far as its own key goes. -/
def Group.Uniform (key : Slot → Key) (g : Group) : Prop :=
  ∀ m ∈ g.later, (key m).Alike (key g.oldest) (key m).size

instance {key : Slot → Key} {g : Group} : Decidable (g.Uniform key) :=
  inferInstanceAs (Decidable (∀ m ∈ g.later, (key m).Alike (key g.oldest) (key m).size))

/-- The topmost branch over equal entries on a way down. -/
structure Heading where
  /-- The branch. -/
  head : Slot
  /-- The oldest entry below it. -/
  oldest : Slot

/-- The first flaw in a part of a tree, below the topmost branch over equal entries if there is
one above it. -/
def Shape.verdict (key : Slot → Key) : Option Heading → Shape → Option Flaw
  | none, leaf _ => none
  | some h, leaf i =>
    if (key i).Alike (key h.oldest) (key i).size then none else some (.unequalKeys h.head)
  | h, branch i b l r =>
    let below := h.or (if b < 0 then some ⟨i, l.oldest⟩ else none)
    (l.verdict key below).or (r.verdict key below)

/-- The entries whose keys decide where the entries of a part belong. -/
def Shape.deciders (t : Shape) : Option Heading → List Slot
  | none => t.firsts
  | some h => [h.oldest]

/-- What has been met after a part of a tree. -/
def Survey.after : Shape → Survey → Survey
  | .leaf i, survey => { survey with
    leaves := survey.leaves.setIfInBounds i true, entries := survey.entries + 1 }
  | .branch i _ l r, survey =>
    after r (after l { survey with branches := survey.branches.setIfInBounds i true })

/-- What an audit can count on where `t` hangs, below the decisions `turns` and the heading `h`. -/
structure Vouched (p : Plot) (h : Option Heading) (turns : List Turn) (t : Shape) : Prop where
  hangs : p.store.Hangs (Visit.place ⟨.null, turns⟩) t
  distinct : t.Distinct
  sorted : t.Sorted p.store.keyAt
  tied : h ≠ none → ∃ k, t.Tied k
  single : p.tree.unique = true → h = none ∧ t.Single
  order : ∀ turn ∈ turns.head?, ∀ {i b l r}, t = .branch i b l r →
    (b < 0 → 0 ≤ turn.bit.toInt ∨ turn.bit.toInt < b) ∧
      (0 ≤ b → 0 ≤ turn.bit.toInt ∧ turn.bit.toInt < b)
  heading : (turns.reverse.find? fun turn => decide (turn.bit.toInt < 0)).map (·.branch) =
    h.map (·.head)
  oldest : ∀ x, h = some x → x.head < p.store.size ∧ x.oldest < p.store.size ∧
    ∀ link : ChildLink, link.child? = some (.branch x.head) →
      p.store.outermost .left link = .ok x.oldest
  fits : ∀ turn ∈ turns, 0 ≤ turn.bit.toInt → turn.branch < p.store.size ∧
    ∀ x ∈ t.deciders h,
      (p.store.keyAt x).SameBits (p.store.keyAt turn.branch) turn.bit.toInt.toNat ∧
        (p.store.keyAt x).bitAt turn.bit.toInt.toNat = turn.side.bit

/-! ### One branch further down -/

section

variable {key : Slot → Key} {f : Fork} {t : Shape}

theorem Shape.Sorted.tied_of_close (h : (f.close t).Sorted key) (hneg : f.bit < 0) :
    ∃ k, (f.close t).Tied k := by
  unfold Fork.close at h ⊢
  cases hside : f.side with
  | left => rw [hside] at h; exact h.tied_of_neg hneg
  | right => rw [hside] at h; exact h.tied_of_neg hneg

theorem Shape.Distinct.of_close (h : (f.close t).Distinct) : t.Distinct := by
  obtain ⟨hL, hB⟩ := h
  rw [Fork.close] at hL hB
  cases hside : f.side with
  | left =>
    rw [hside] at hL hB
    exact ⟨(List.nodup_append.mp hL).1, (List.nodup_append.mp (List.nodup_cons.mp hB).2).1⟩
  | right =>
    rw [hside] at hL hB
    exact ⟨(List.nodup_append.mp hL).2.1, (List.nodup_append.mp (List.nodup_cons.mp hB).2).2.1⟩

theorem Shape.Single.of_close (h : (f.close t).Single) : 0 ≤ f.bit ∧ t.Single := by
  obtain ⟨i, b, side, other⟩ := f
  rcases Int.lt_or_le b 0 with hb | hb
  · obtain ⟨j, hj⟩ := h (Fork.close ⟨i, b, side, other⟩ t) (by
      unfold Fork.close
      cases side <;> exact (clumps_of_neg hb).symm ▸ List.mem_singleton.mpr rfl)
    unfold Fork.close at hj
    cases side <;> cases hj
  · refine ⟨hb, fun c hc => h c ?_⟩
    unfold Fork.close
    cases side with
    | left => exact (clumps_of_nonneg hb).symm ▸ List.mem_append_left _ hc
    | right => exact (clumps_of_nonneg hb).symm ▸ List.mem_append_right _ hc

end

section

variable {p : Plot} {h : Option Heading} {turns : List Turn} {f : Fork} {t : Shape}

/-- The way down over a bit. -/
theorem Vouched.down_nonneg (hv : Vouched p h turns (f.close t)) (hbit : 0 ≤ f.bit) :
    h = none ∧
      Vouched p none (⟨f.slot, f.side, (p.store.nodeAt f.slot).bit⟩ :: turns) t := by
  obtain ⟨hup, hlevel, hside, -, -, hhangs⟩ := Store.hangs_close.mp hv.hangs
  have hslot : f.slot < p.store.size := Store.lt_size_of_up hup
  have hbit' : (p.store.nodeAt f.slot).bit.toInt = f.bit := hlevel
  obtain ⟨hparts, -, hsorted, -⟩ := (Shape.sorted_close hbit).mp hv.sorted
  -- under a heading there are levels only
  have hnone : h = none := by
    by_contra hsome
    obtain ⟨k, hk⟩ := hv.tied hsome
    exact absurd hk.of_close.1 (Int.not_lt.mpr hbit)
  subst hnone
  refine ⟨rfl, ⟨hhangs, hv.distinct.of_close, hsorted, fun hne => absurd rfl hne,
    fun hu => ⟨rfl, (hv.single hu).2.of_close.2⟩, ?_, ?_, fun x hx => absurd hx (by simp), ?_⟩⟩
  · intro turn hturn i b l r ht
    obtain rfl := Option.some.inj hturn
    refine ⟨fun _ => Or.inl (hbit'.symm ▸ hbit), fun hb => ⟨hbit'.symm ▸ hbit, ?_⟩⟩
    have hlt := (ht ▸ hv.sorted : (f.close _).Sorted _).parted.bit_lt hbit hb
    show (p.store.nodeAt f.slot).bit.toInt < b
    omega
  -- a turn on a bit is not the first on a level
  · have hold := hv.heading
    rw [List.reverse_cons, List.find?_append]
    rw [Option.map_none, Option.map_eq_none_iff] at hold
    rw [hold, Option.none_or, List.find?_cons_of_neg]
    · rfl
    · simp only [decide_eq_true_eq]
      omega
  · intro turn hturn hnonneg
    rcases List.mem_cons.mp hturn with rfl | hturn
    · refine ⟨hslot, ?_⟩
      intro x hx
      simp only [hbit']
      exact ⟨hparts.same x ((Fork.mem_firsts_close hbit).mpr (Or.inl hx)), hparts.taken x hx⟩
    · obtain ⟨hlt, hfits⟩ := hv.fits turn hturn hnonneg
      exact ⟨hlt, fun x hx => hfits x ((Fork.mem_firsts_close hbit).mpr (Or.inl hx))⟩

/-- The way down over a level. -/
theorem Vouched.down_neg (hv : Vouched p h turns (f.close t)) (hbit : f.bit < 0) :
    Vouched p (h.or (some ⟨f.slot, (f.close t).oldest⟩))
      (⟨f.slot, f.side, (p.store.nodeAt f.slot).bit⟩ :: turns) t := by
  obtain ⟨hup, hlevel, hside, -, -, hhangs⟩ := Store.hangs_close.mp hv.hangs
  have hslot : f.slot < p.store.size := Store.lt_size_of_up hup
  have hbit' : (p.store.nodeAt f.slot).bit.toInt = f.bit := hlevel
  obtain ⟨k, hk⟩ := hv.sorted.tied_of_close hbit
  obtain ⟨-, k', hk', hlt⟩ := hk.of_close
  refine ⟨hhangs, hv.distinct.of_close, .tied hk', fun _ => ⟨k', hk'⟩,
    fun hu => absurd (hv.single hu).2.of_close.1 (Int.not_le.mpr hbit), ?_, ?_, ?_, ?_⟩
  · intro turn hturn i b l r ht
    obtain rfl := Option.some.inj hturn
    subst ht
    have hb : b = -(k' : Int) := hk'.level_eq
    refine ⟨fun _ => Or.inr ?_, fun hb' => absurd hb' (Int.not_le.mpr hk'.neg)⟩
    show (p.store.nodeAt f.slot).bit.toInt < b
    omega
  -- the first turn on a level stays the first, and is this one where there was none
  · have hold := hv.heading
    rw [List.reverse_cons, List.find?_append]
    cases h with
    | none =>
      rw [Option.map_none, Option.map_eq_none_iff] at hold
      rw [hold, Option.none_or, List.find?_cons_of_pos]
      · rfl
      · simp only [decide_eq_true_eq]
        omega
    | some x =>
      obtain ⟨turn, hturn, hhead⟩ := Option.map_eq_some_iff.mp hold
      rw [hturn, Option.some_or, Option.map_some, hhead]
      rfl
  · intro x hx
    cases h with
    | none =>
      obtain rfl := Option.some.inj hx
      refine ⟨hslot, hv.hangs.lt_size.1 _ (Shape.oldest_mem_leaves _), ?_⟩
      intro link hlink
      exact hv.hangs.outermost_left hv.distinct.branches (by rw [Fork.root_close]; exact hlink)
    | some y =>
      obtain rfl := Option.some.inj hx
      exact hv.oldest y rfl
  · intro turn hturn hnonneg
    -- the turns on bits are those from above
    rcases List.mem_cons.mp hturn with rfl | hturn
    · exact absurd hnonneg (by dsimp only; omega)
    · obtain ⟨hlt, hfits⟩ := hv.fits turn hturn hnonneg
      refine ⟨hlt, fun x hx => hfits x ?_⟩
      cases h with
      | none =>
        rw [List.mem_singleton.mp hx]
        exact Shape.oldest_mem_firsts _
      | some y => exact hx

end

/-! ### Branches -/

/-- The way up from a leaf of a part leads through the part to where it hangs. -/
theorem Store.Hangs.climbTo_eq {s : Store} {place : Place} {u : Shape} {i j : Slot}
    (h : s.Hangs place u) (hj : j ∈ u.leaves) (hi : i ∉ u.branches) {up : ParentLink}
    (hup : up.place? = some place) : ∃ d, d ≤ u.height ∧
      ∀ fuel, s.climbTo i (fuel + d) (s.nodeAt j).leafUp = s.climbTo i fuel up := by
  induction u generalizing place up with
  | leaf k =>
    obtain rfl : j = k := List.mem_singleton.mp hj
    have hlink : (s.nodeAt j).leafUp = up := ParentLink.ext_place? (Eq.trans h hup.symm)
    exact ⟨0, Nat.le_refl 0, fun fuel => by rw [hlink, Nat.add_zero]⟩
  | branch k b l r ihl ihr =>
    obtain ⟨hupk, -, -, -, hl, hr⟩ := h
    have hk : k < s.size := lt_size_of_up hupk
    have hlink : (s.nodeAt k).branchUp = up := ParentLink.ext_place? (Eq.trans hupk hup.symm)
    have hne : k ≠ i := fun heq => hi (heq ▸ List.mem_cons_self)
    -- from either side one more link leads to where the branch hangs
    have hstep : ∀ side up', up'.place? = some (.under k side) →
        ∀ fuel, s.climbTo i (fuel + 1) up' = s.climbTo i fuel up := by
      intro side up' hup' fuel
      rw [climbTo, hup']
      simp only [hne, if_false, node_eq_ok hk, hlink]
    have hbelow : ∀ t side, s.Hangs (.under k side) t → ∃ up' : ParentLink,
        up'.place? = some (.under k side) := fun t side ht => ⟨_, ht.up_root⟩
    simp only [Shape.height]
    rcases List.mem_append.mp hj with hj | hj
    · obtain ⟨up', hup'⟩ := hbelow l .left hl
      obtain ⟨d, hd, hclimb⟩ := ihl hl hj
        (fun hmem => hi (List.mem_cons_of_mem _ (List.mem_append_left _ hmem))) hup'
      refine ⟨d + 1, by omega, ?_⟩
      intro fuel
      rw [show fuel + (d + 1) = fuel + 1 + d by omega, hclimb, hstep _ _ hup']
    · obtain ⟨up', hup'⟩ := hbelow r .right hr
      obtain ⟨d, hd, hclimb⟩ := ihr hr hj
        (fun hmem => hi (List.mem_cons_of_mem _ (List.mem_append_right _ hmem))) hup'
      refine ⟨d + 1, by omega, ?_⟩
      intro fuel
      rw [show fuel + (d + 1) = fuel + 1 + d by omega, hclimb, hstep _ _ hup']

/-- A branch of a sorted shape is among its own leaves. -/
theorem Shape.Sorted.own {key : Slot → Key} {i : Slot} {b : Int} {l r : Shape}
    (h : (Shape.branch i b l r).Sorted key) : i ∈ l.leaves ++ r.leaves := by
  cases h with
  | tied h =>
    cases h with
    | branch hlevel hown hl hr hle => exact List.mem_append_right _ hown
  | branch hparts hown hl hr =>
    rcases List.mem_append.mp hown with hown | hown
    · exact List.mem_append_left _ (mem_leaves_of_mem_firsts hown)
    · exact List.mem_append_right _ (mem_leaves_of_mem_firsts hown)

theorem Store.Hangs.ownsLeaf_eq {s : Store} {place : Place} {i : Slot} {b : Int} {l r : Shape}
    (h : s.Hangs place (.branch i b l r)) (hown : i ∈ l.leaves ++ r.leaves)
    (hnodup : (Shape.branch i b l r).branches.Nodup) :
    s.ownsLeaf i (s.nodeAt i) = .ok true := by
  have hheight := h.height_le hnodup
  obtain ⟨hnot, -⟩ := List.nodup_cons.mp hnodup
  rw [List.mem_append, not_or] at hnot
  obtain ⟨-, -, -, -, hl, hr⟩ := h
  simp only [Shape.height] at hheight
  -- the climb ends at the branch, from either side
  have hend : ∀ side up', up'.place? = some (.under i side) →
      ∀ fuel, s.climbTo i (fuel + 1) up' = .ok true := by
    intro side up' hup' fuel
    rw [climbTo, hup']
    simp only [if_true]
  unfold ownsLeaf
  rcases List.mem_append.mp hown with hown | hown
  · obtain ⟨d, hd, hclimb⟩ := hl.climbTo_eq hown hnot.1 hl.up_root
    rw [show s.size + 1 = s.size - d + 1 + d by omega, hclimb]
    exact hend _ _ hl.up_root _
  · obtain ⟨d, hd, hclimb⟩ := hr.climbTo_eq hown hnot.2 hr.up_root
    rw [show s.size + 1 = s.size - d + 1 + d by omega, hclimb]
    exact hend _ _ hr.up_root _

section

variable {p : Plot} {h : Option Heading} {turns : List Turn} {i : Slot} {survey : Survey}
  {link : ChildLink}

/-- **What is said of a branch**: nothing, and the places below it are next. -/
theorem Plot.inspectBranch_eq {b : Int} {l r : Shape}
    (hv : Vouched p h turns (.branch i b l r)) (hunseen : survey.branches.getD i false = false) :
    p.inspectBranch i (p.store.nodeAt i) ⟨link, turns⟩ survey =
      pure ([⟨(p.store.nodeAt i).left, ⟨i, .left, (p.store.nodeAt i).bit⟩ :: turns⟩,
          ⟨(p.store.nodeAt i).right, ⟨i, .right, (p.store.nodeAt i).bit⟩ :: turns⟩],
        { survey with branches := survey.branches.setIfInBounds i true }) := by
  obtain ⟨hup, hlevel, hleft, hright, -, -⟩ := hv.hangs
  have hplace : ¬ (p.store.nodeAt i).branchUp.place? ≠ some (Visit.place ⟨link, turns⟩) :=
    not_not.mpr hup
  have hbit : (p.store.nodeAt i).bit.toInt = b := hlevel
  -- a branch on a level would be over a group of several
  have hsingle : ((p.store.nodeAt i).overEqualKeys && p.tree.unique) = false := by
    rw [Bool.and_eq_false_imp]
    intro hover
    have hneg : b < 0 := hbit ▸ of_decide_eq_true hover
    by_contra hu
    obtain ⟨-, hsingle⟩ := hv.single (Bool.eq_true_of_not_eq_false hu)
    obtain ⟨j, hj⟩ := hsingle _ (by
      rw [Shape.clumps_of_neg hneg]
      exact List.mem_singleton.mpr rfl)
    cases hj
  have hown := hv.hangs.ownsLeaf_eq hv.sorted.own hv.distinct.branches
  have hrightNull : ¬ (p.store.nodeAt i).right = .null := by
    intro hnull
    rw [Store.down, show (p.store.nodeAt i).child .right = .null from hnull] at hright
    cases hright
  have hleftNull : ¬ (p.store.nodeAt i).left = .null := by
    intro hnull
    rw [Store.down, show (p.store.nodeAt i).child .left = .null from hnull] at hleft
    cases hleft
  unfold inspectBranch
  simp only [hplace, hunseen, hsingle, hown, hrightNull, hleftNull, if_false, Bool.false_eq_true]
  cases turns with
  | nil => rfl
  | cons turn rest =>
    have horder : bitsInOrder turn.bit (p.store.nodeAt i).bit = true := by
      obtain ⟨hneg, hnonneg⟩ := hv.order turn rfl rfl
      rcases Int.lt_or_le b 0 with hb | hb
      · exact (bitsInOrder_of_neg (by omega)).mpr (hbit ▸ hneg hb)
      · exact (bitsInOrder_of_nonneg (by omega)).mpr (hbit ▸ hnonneg hb)
    simp only [horder, Bool.not_true, Bool.false_eq_true, if_false]
    rfl

end

/-! ### Entries -/

section

variable {p : Plot} {h : Option Heading} {turns : List Turn} {i : Slot} {survey : Survey}
  {link : ChildLink}

/-- An entry under no level belongs where its own key says. -/
theorem Store.decisiveKey_of_none {s : Store} (hi : i < s.size)
    (hturns : turns.find? (fun turn => decide (turn.bit.toInt < 0)) = none) :
    s.decisiveKey i turns = pure (s.keyAt i) := by
  rw [decisiveKey, key_eq_ok hi]
  simp only [hturns]
  rfl

/-- An entry under a level belongs where the key of the oldest entry says, with which it must
agree. -/
theorem Store.decisiveKey_of_some {s : Store} {x : Heading} (hi : i < s.size)
    (hturns : (turns.find? fun turn => decide (turn.bit.toInt < 0)).map (·.branch) =
      some x.head) (hhead : x.head < s.size) (holdest : x.oldest < s.size)
    (houtermost : ∀ link : ChildLink, link.child? = some (.branch x.head) →
      s.outermost .left link = .ok x.oldest) :
    s.decisiveKey i turns =
      if (s.keyAt i).Alike (s.keyAt x.oldest) (s.keyAt i).size then pure (s.keyAt x.oldest)
      else throw (.unequalKeys x.head) := by
  obtain ⟨turn, hturn, hbranch⟩ := Option.map_eq_some_iff.mp hturns
  obtain ⟨link, hlink, hlink'⟩ :=
    ChildLink.ofChild_eq_ok (c := .branch x.head) (lt_maxSlots hhead)
  rw [decisiveKey, key_eq_ok hi]
  simp only [hturn, hbranch, hlink]
  show (monadLift (s.outermost .left link) >>= _ : Inspection Key) = _
  rw [houtermost _ hlink']
  show (monadLift (s.key x.oldest) >>= _ : Inspection Key) = _
  rw [key_eq_ok holdest]
  by_cases halike : (s.keyAt i).Alike (s.keyAt x.oldest) (s.keyAt i).size
  · rw [if_pos halike]
    rw [Key.alike_iff_agreeOn] at halike
    show (if !_ then _ else _ : Inspection Key) = _
    rw [halike]
    rfl
  · rw [if_neg halike]
    rw [Key.alike_iff_agreeOn, Bool.not_eq_true] at halike
    show (if !_ then _ else _ : Inspection Key) = _
    rw [halike]
    rfl

/-- A key that fits a turn is not complained of there. -/
theorem Store.inspectTurn_eq {s : Store} {key : Key} {turn : Turn}
    (hfits : 0 ≤ turn.bit.toInt → turn.branch < s.size ∧
      key.SameBits (s.keyAt turn.branch) turn.bit.toInt.toNat ∧
        key.bitAt turn.bit.toInt.toNat = turn.side.bit) :
    s.inspectTurn i key turn = pure () := by
  unfold inspectTurn
  by_cases hbit : 0 ≤ turn.bit.toInt
  · obtain ⟨hlt, hsame, hside⟩ := hfits hbit
    have hmax := turn.bit.toInt_lt
    have hle : turn.bit.toInt.toNat ≤ 2147483648 := by omega
    have hscan : ¬ key.firstDiff (s.keyAt turn.branch) 0 turn.bit.toInt.toNat <
        turn.bit.toInt.toNat := fun hdiff =>
      Key.bitAt_ne_of_firstDiff_lt hdiff (hsame _ hdiff)
    simp only [hbit, if_true, key_eq_ok hlt]
    show (monadLift (key.scanDiff (s.keyAt turn.branch) 0 turn.bit.toInt.toNat) >>= _ :
      Inspection Unit) = _
    rw [Key.scanDiff_eq_ok (Nat.zero_le _) hle]
    show (if _ then _ else _ : Inspection Unit) = _
    rw [if_neg hscan]
    show (if _ then _ else _ : Inspection Unit) = _
    rw [if_neg (not_not.mpr hside)]
  · rw [if_neg hbit]

/-- Where all questions are answered, so is their list. -/
theorem forM_eq_pure {α : Type} {ask : α → Inspection Unit} {xs : List α}
    (hxs : ∀ x ∈ xs, ask x = pure ()) : xs.forM ask = pure () := by
  induction xs with
  | nil => rfl
  | cons x xs ih =>
    show (ask x >>= fun _ => xs.forM ask) = pure ()
    rw [hxs x List.mem_cons_self, pure_bind]
    exact ih fun y hy => hxs y (List.mem_cons_of_mem _ hy)

/-- **What is said of an entry**: nothing, or that it is not equal to the oldest. -/
theorem Plot.inspectEntry_eq (hv : Vouched p h turns (.leaf i))
    (hunseen : survey.leaves.getD i false = false) :
    p.store.inspectEntry i (p.store.nodeAt i) ⟨link, turns⟩ survey =
      match (Shape.leaf i).verdict p.store.keyAt h with
      | some flaw => throw flaw
      | none => pure ([], survey.after (.leaf i)) := by
  have hplace : ¬ (p.store.nodeAt i).leafUp.place? ≠ some (Visit.place ⟨link, turns⟩) :=
    not_not.mpr hv.hangs
  -- whichever key decides, it fits all turns on the way down
  have hturns : ∀ x ∈ (Shape.leaf i).deciders h,
      turns.reverse.forM (p.store.inspectTurn i (p.store.keyAt x)) = pure () := fun x hx =>
    forM_eq_pure fun turn hturn => Store.inspectTurn_eq fun hbit => by
      obtain ⟨hlt, hfits⟩ := hv.fits turn (List.mem_reverse.mp hturn) hbit
      exact ⟨hlt, hfits x hx⟩
  have hi : i < p.store.size := Store.lt_size_of_up hv.hangs
  have hheading := hv.heading
  unfold Store.inspectEntry
  simp only [hplace, hunseen, if_false, Bool.false_eq_true]
  cases h with
  | none =>
    rw [Option.map_none, Option.map_eq_none_iff] at hheading
    rw [Store.decisiveKey_of_none hi hheading, pure_bind, hturns i (List.mem_singleton.mpr rfl)]
    rfl
  | some x =>
    obtain ⟨hhead, holdest, houtermost⟩ := hv.oldest x rfl
    rw [Store.decisiveKey_of_some hi hheading hhead holdest houtermost, Shape.verdict]
    split
    · rw [pure_bind, hturns x.oldest (List.mem_singleton.mpr rfl)]
      rfl
    · rfl

end

/-! ### What has been met -/

namespace Survey

variable {t : Shape} {survey : Survey} {j : Slot}

theorem getD_mark {marks : Array Bool} {i j : Slot} :
    (marks.setIfInBounds i true).getD j false =
      (decide (j = i ∧ i < marks.size) || marks.getD j false) := by
  rw [Array.getD_eq_getD_getElem?, Array.getElem?_setIfInBounds, Array.getD_eq_getD_getElem?]
  by_cases hij : i = j
  · subst hij
    by_cases hi : i < marks.size
    · simp [hi]
    · simp [hi]
  · simp [hij, Ne.symm hij]

@[simp] theorem size_leaves_after : (survey.after t).leaves.size = survey.leaves.size := by
  induction t generalizing survey with
  | leaf i => exact Array.size_setIfInBounds
  | branch i b l r ihl ihr => rw [after, ihr, ihl]

@[simp] theorem size_branches_after : (survey.after t).branches.size = survey.branches.size := by
  induction t generalizing survey with
  | leaf i => rfl
  | branch i b l r ihl ihr =>
    rw [after, ihr, ihl]
    exact Array.size_setIfInBounds

theorem leaves_after : (survey.after t).leaves.getD j false =
    (decide (j ∈ t.leaves ∧ j < survey.leaves.size) || survey.leaves.getD j false) := by
  induction t generalizing survey with
  | leaf i =>
    rw [after, getD_mark]
    congr 2
    rw [Shape.leaves_leaf, List.mem_singleton, eq_iff_iff]
    exact and_congr_right fun hj => by rw [hj]
  | branch i b l r ihl ihr =>
    rw [after, ihr, ihl, size_leaves_after, ← Bool.or_assoc, ← Bool.decide_or]
    congr 2
    rw [Shape.leaves_branch, List.mem_append, or_and_right, or_comm]

theorem branches_after : (survey.after t).branches.getD j false =
    (decide (j ∈ t.branches ∧ j < survey.branches.size) || survey.branches.getD j false) := by
  induction t generalizing survey with
  | leaf i => simp [after]
  | branch i b l r ihl ihr =>
    rw [after, ihr, ihl, size_branches_after, getD_mark, ← Bool.or_assoc, ← Bool.or_assoc,
      ← Bool.decide_or, ← Bool.decide_or, Array.size_setIfInBounds]
    congr 2
    rw [Shape.branches_branch, List.mem_cons, List.mem_append, eq_iff_iff]
    constructor
    · rintro ((⟨hj, hlt⟩ | ⟨hj, hlt⟩) | ⟨rfl, hlt⟩)
      · exact ⟨Or.inr (Or.inr hj), hlt⟩
      · exact ⟨Or.inr (Or.inl hj), hlt⟩
      · exact ⟨Or.inl rfl, hlt⟩
    · rintro ⟨rfl | hj | hj, hlt⟩
      · exact Or.inr ⟨rfl, hlt⟩
      · exact Or.inl (Or.inr ⟨hj, hlt⟩)
      · exact Or.inl (Or.inl ⟨hj, hlt⟩)

theorem entries_after : (survey.after t).entries = survey.entries + t.leaves.length := by
  induction t generalizing survey with
  | leaf i => rfl
  | branch i b l r ihl ihr =>
    rw [after, ihr, ihl, Shape.leaves_branch, List.length_append, Nat.add_assoc]

end Survey

/-! ### The audit -/

section

variable {p : Plot} {h : Option Heading} {turns : List Turn}

/-- The way down from a place that is vouched for, on either side. -/
theorem Vouched.down {f : Fork} {t : Shape} (hv : Vouched p h turns (f.close t)) :
    Vouched p (h.or (if f.bit < 0 then some ⟨f.slot, (f.close t).oldest⟩ else none))
      (⟨f.slot, f.side, (p.store.nodeAt f.slot).bit⟩ :: turns) t := by
  rcases Int.lt_or_le f.bit 0 with hbit | hbit
  · rw [if_pos hbit]
    exact hv.down_neg hbit
  · obtain ⟨hnone, hdown⟩ := hv.down_nonneg hbit
    rw [if_neg (Int.not_lt.mpr hbit), hnone]
    exact hdown

theorem Plot.auditFrom_nil (fuel : Nat) (survey : Survey) :
    p.auditFrom fuel [] survey = pure survey.entries := by
  cases fuel <;> rfl

theorem Plot.auditFrom_cons (fuel : Nat) (v : Visit) (rest : List Visit) (survey : Survey) :
    p.auditFrom (fuel + 1) (v :: rest) survey = (do
      let (below, survey) ← p.inspect v survey
      p.auditFrom fuel (below ++ rest) survey) := rfl

/-- Looking at a slot of the store. -/
theorem Plot.inspect_of_child {v : Visit} {c : Child} {survey : Survey}
    (hlink : v.link.child? = some c) (hlt : c.slot < p.store.size) :
    p.inspect v survey = match c with
      | .leaf i => p.store.inspectEntry i (p.store.nodeAt i) v survey
      | .branch i => p.inspectBranch i (p.store.nodeAt i) v survey := by
  rw [inspect, Store.follow_eq_ok hlink]
  show (if _ then _ else _ : Inspection (List Visit × Survey)) = _
  rw [if_neg (Nat.not_le.mpr hlt), Store.node_eq_ok hlt]
  cases c <;> rfl

/-- A step of the audit at an entry. -/
theorem Plot.auditFrom_leaf {i : Slot} {link : ChildLink} {survey : Survey}
    (hv : Vouched p h turns (.leaf i)) (hlink : link.child? = some (.leaf i))
    (hunseen : survey.leaves.getD i false = false) (fuel : Nat) (rest : List Visit) :
    p.auditFrom (fuel + 1) (⟨link, turns⟩ :: rest) survey =
      match (Shape.leaf i).verdict p.store.keyAt h with
      | some flaw => throw flaw
      | none => p.auditFrom fuel rest (survey.after (.leaf i)) := by
  have hi : i < p.store.size := Store.lt_size_of_up hv.hangs
  rw [auditFrom_cons, inspect_of_child (v := ⟨link, turns⟩) (c := .leaf i) hlink hi]
  simp only
  rw [inspectEntry_eq hv hunseen]
  cases (Shape.leaf i).verdict p.store.keyAt h with
  | some flaw => rfl
  | none => simp only [pure_bind, List.nil_append]

/-- A step of the audit at a branch, which goes on with the parts below. -/
theorem Plot.auditFrom_branch {i : Slot} {b : Int} {l r : Shape} {link : ChildLink}
    {survey : Survey} (hv : Vouched p h turns (.branch i b l r))
    (hlink : link.child? = some (.branch i)) (hunseen : survey.branches.getD i false = false)
    (fuel : Nat) (rest : List Visit) :
    p.auditFrom (fuel + 1) (⟨link, turns⟩ :: rest) survey =
      p.auditFrom fuel
        (⟨(p.store.nodeAt i).left, ⟨i, .left, (p.store.nodeAt i).bit⟩ :: turns⟩ ::
          ⟨(p.store.nodeAt i).right, ⟨i, .right, (p.store.nodeAt i).bit⟩ :: turns⟩ :: rest)
        { survey with branches := survey.branches.setIfInBounds i true } := by
  have hi : i < p.store.size := Store.lt_size_of_up hv.hangs.up_root
  rw [auditFrom_cons, inspect_of_child (v := ⟨link, turns⟩) (c := .branch i) hlink hi]
  simp only
  rw [inspectBranch_eq hv hunseen, pure_bind]
  rfl

/-- **The audit of a part** of a tree meets its first flaw, or goes on with the rest. -/
theorem Plot.auditFrom_eq {t : Shape} {link : ChildLink} {survey : Survey}
    (hv : Vouched p h turns t) (hlink : link.child? = some t.root)
    (hleaves : ∀ j ∈ t.leaves, survey.leaves.getD j false = false)
    (hbranches : ∀ j ∈ t.branches, survey.branches.getD j false = false) (fuel : Nat)
    (rest : List Visit) :
    p.auditFrom (fuel + t.leaves.length + t.branches.length) (⟨link, turns⟩ :: rest) survey =
      match t.verdict p.store.keyAt h with
      | some flaw => throw flaw
      | none => p.auditFrom fuel rest (survey.after t) := by
  induction t generalizing h turns link survey fuel rest with
  | leaf i => exact auditFrom_leaf hv hlink (hleaves i List.mem_cons_self) fuel rest
  | branch i b l r ihl ihr =>
    have hvl : Vouched p (h.or (if b < 0 then some ⟨i, l.oldest⟩ else none))
        (⟨i, .left, (p.store.nodeAt i).bit⟩ :: turns) l :=
      Vouched.down (f := ⟨i, b, .left, r⟩) hv
    have hvr : Vouched p (h.or (if b < 0 then some ⟨i, l.oldest⟩ else none))
        (⟨i, .right, (p.store.nodeAt i).bit⟩ :: turns) r :=
      Vouched.down (f := ⟨i, b, .right, l⟩) hv
    obtain ⟨-, -, hleft, hright, -, -⟩ := hv.hangs
    have hleft' : (p.store.nodeAt i).left.child? = some l.root := hleft
    have hright' : (p.store.nodeAt i).right.child? = some r.root := hright
    obtain ⟨-, -, hdisjL⟩ := List.nodup_append.mp hv.distinct.leaves
    obtain ⟨hiB, hB⟩ := List.nodup_cons.mp hv.distinct.branches
    obtain ⟨-, -, hdisjB⟩ := List.nodup_append.mp hB
    -- marking the branch leaves the marks of all below it as they are
    obtain ⟨marked, hmarked⟩ : ∃ marked : Survey,
        marked = { survey with branches := survey.branches.setIfInBounds i true } := ⟨_, rfl⟩
    have hmarkedL : ∀ j ∈ l.leaves ++ r.leaves, marked.leaves.getD j false = false := by
      rw [hmarked]
      exact hleaves
    have hmarkedB : ∀ j ∈ l.branches ++ r.branches, marked.branches.getD j false = false := by
      intro j hj
      have hne : i ≠ j := fun heq => hiB (heq ▸ hj)
      rw [hmarked, Array.getD_eq_getD_getElem?, Array.getElem?_setIfInBounds_ne hne,
        ← Array.getD_eq_getD_getElem?]
      exact hbranches j (List.mem_cons_of_mem _ hj)
    have hfuel : fuel + (Shape.branch i b l r).leaves.length +
        (Shape.branch i b l r).branches.length =
        fuel + r.leaves.length + r.branches.length + l.leaves.length + l.branches.length + 1 := by
      simp only [Shape.leaves_branch, Shape.branches_branch, List.length_append, List.length_cons]
      omega
    rw [hfuel, auditFrom_branch hv hlink (hbranches i List.mem_cons_self)]
    simp only [Shape.verdict, Survey.after, ← hmarked]
    rw [ihl hvl hleft' (fun j hj => hmarkedL j (List.mem_append_left _ hj))
      fun j hj => hmarkedB j (List.mem_append_left _ hj)]
    cases hverdict : l.verdict p.store.keyAt
        (h.or (if b < 0 then some ⟨i, l.oldest⟩ else none)) with
    | some flaw => rfl
    | none =>
      -- what the left part marked is not met on the right
      rw [Option.none_or]
      refine ihr hvr hright' ?_ ?_ fuel rest
      · intro j hj
        rw [Survey.leaves_after, decide_eq_false fun h => hdisjL j h.1 j hj rfl, Bool.false_or]
        exact hmarkedL j (List.mem_append_right _ hj)
      · intro j hj
        rw [Survey.branches_after, decide_eq_false fun h => hdisjB j h.1 j hj rfl, Bool.false_or]
        exact hmarkedB j (List.mem_append_right _ hj)

end

/-! ### The verdict -/

section

variable {key : Slot → Key} {t : Shape}

theorem Shape.verdict_some (h : Heading) : t.verdict key (some h) =
    if ∀ m ∈ t.leaves, (key m).Alike (key h.oldest) (key m).size then none
    else some (.unequalKeys h.head) := by
  induction t with
  | leaf i => simp only [verdict, leaves_leaf, List.forall_mem_singleton]
  | branch i b l r ihl ihr =>
    rw [verdict, Option.some_or, ihl, ihr]
    simp only [leaves_branch, List.forall_mem_append]
    by_cases hl : ∀ m ∈ l.leaves, (key m).Alike (key h.oldest) (key m).size
    · rw [if_pos hl, Option.none_or]
      exact if_congr (iff_and_self.mpr fun _ => hl) rfl rfl
    · rw [if_neg hl, Option.some_or, if_neg fun hlr => hl hlr.1]

/-- A subtree over a level is at fault when its group is not uniform. -/
theorem Shape.verdict_of_neg {i : Slot} {b : Int} {l r : Shape} (hb : b < 0) :
    (branch i b l r).verdict key none =
      if (branch i b l r).group.Uniform key then none else some (.unequalKeys i) := by
  have hverdict : (branch i b l r).verdict key none =
      (branch i b l r).verdict key (some ⟨i, l.oldest⟩) := by
    rw [verdict, verdict, if_pos hb]
    rfl
  have huniform : (branch i b l r).group.Uniform key ↔
      ∀ m ∈ (branch i b l r).leaves, (key m).Alike (key l.oldest) (key m).size := by
    rw [leaves_eq_cons (branch i b l r), List.forall_mem_cons]
    exact ⟨fun hu => ⟨fun _ _ => rfl, hu⟩, fun hu => hu.2⟩
  rw [hverdict, verdict_some]
  simp only [huniform]

/-- A shape is at fault when one of its groups is not uniform. -/
theorem Shape.verdict_eq (t : Shape) : t.verdict key none =
    (t.clumps.find? fun c => !decide (c.group.Uniform key)).map
      fun c => .unequalKeys c.root.slot := by
  induction t with
  | leaf i =>
    have huniform : (leaf i).group.Uniform key := fun m hm => absurd hm List.not_mem_nil
    simp [verdict, huniform]
  | branch i b l r ihl ihr =>
    rcases Int.lt_or_le b 0 with hb | hb
    · rw [verdict_of_neg hb, clumps_of_neg hb]
      by_cases hu : (branch i b l r).group.Uniform key <;> simp [hu]
    · rw [verdict, if_neg (Int.not_lt.mpr hb), Option.none_or, ihl, ihr, clumps_of_nonneg hb,
        List.find?_append, Option.map_or]

end

/-- **The audit of a sound tree** names the first branch over a group that is not uniform, or
counts the entries. -/
theorem Plot.Bears.audit_eq {p : Plot} {o : Option Shape} (h : p.Bears o) :
    p.audit = .ok (match p.clumps.find? fun c => !decide (c.group.Uniform p.store.keyAt) with
      | some c => .error (.unequalKeys c.root.slot)
      | none => .ok p.entries.length) := by
  rw [clumps, entries, h.shape?_eq]
  cases o with
  | none =>
    have htop : p.tree.top = .null := h
    exact audit_of_isEmpty (by rw [Tree.isEmpty, htop]; rfl)
  | some t =>
    obtain ⟨hholds, hsound⟩ := h
    have hv : Vouched p none [] t :=
      ⟨hholds.2, hsound.distinct, hsound.sorted, fun hne => absurd rfl hne,
        fun hu => ⟨rfl, hsound.single hu⟩, fun turn hturn => absurd hturn (by simp), rfl,
        fun x hx => absurd hx (by simp), fun turn hturn => absurd hturn List.not_mem_nil⟩
    have hunseen : ∀ j, (Array.replicate p.store.size false).getD j false = false := by
      intro j
      rw [Array.getD_eq_getD_getElem?, Array.getElem?_replicate]
      split <;> rfl
    have hlen := Store.length_le_size hsound.distinct.leaves hholds.2.lt_size.1
    have hbranches := t.length_leaves
    rw [audit, if_neg hholds.not_isEmpty, show 2 * p.store.size + 1 =
      2 * p.store.size + 1 - t.leaves.length - t.branches.length + t.leaves.length +
        t.branches.length by omega]
    show p.auditFrom _ [⟨p.tree.top, []⟩] _ = _
    rw [auditFrom_eq hv hholds.1 (fun j _ => hunseen j) (fun j _ => hunseen j) _ [],
      t.verdict_eq, Option.map_some, Option.getD_some]
    cases t.clumps.find? fun c => !decide (c.group.Uniform p.store.keyAt) with
    | some c => rfl
    | none =>
      have hentries : (Survey.after t ⟨Array.replicate p.store.size false,
          Array.replicate p.store.size false, 0⟩).entries = t.leaves.length := by
        rw [Survey.entries_after]
        exact Nat.zero_add _
      rw [Option.map_none]
      simp only
      rw [auditFrom_nil, hentries]
      rfl

namespace Forest

variable {t : Nat} {p : Plot}

/-- Where every record is inserted over at least its own key, all groups are uniform. -/
theorem uniform_of_covered (uniques : List Bool) (cs : List Call)
    (hp : ((fresh uniques).calls cs).plot t = .ok p)
    (hcovered : ∀ e ∈ (fresh uniques).history t cs, (p.store.keyAt e.1).size ≤ e.2) :
    ∀ c ∈ p.clumps, c.group.Uniform p.store.keyAt := by
  intro c hc m hm
  obtain ⟨len, hmem, halike⟩ :=
    alike_of_mem_later uniques cs hp c.group (List.mem_map_of_mem hc) m hm
  exact (halike.mono (hcovered _ hmem)).symm

/-- Where every record is inserted over at least its own key, the audit counts the records. -/
theorem audit_of_covered (uniques : List Bool) (cs : List Call)
    (hp : ((fresh uniques).calls cs).plot t = .ok p)
    (hcovered : ∀ e ∈ (fresh uniques).history t cs, (p.store.keyAt e.1).size ≤ e.2) :
    p.audit = .ok (.ok ((fresh uniques).history t cs).length) := by
  obtain ⟨shapes, hf⟩ := stands_calls uniques cs
  have huniform := uniform_of_covered uniques cs hp hcovered
  rw [(hf.bears_plot hp).audit_eq, (entries_calls uniques cs hp).length_eq, List.length_map,
    List.find?_eq_none.mpr fun c hc => by simpa using huniform c hc]

/-- **The audit of a tree after any run** counts the records that the run hung in it, or names the
first branch over a group with a member that does not agree with the oldest as far as its own key
goes.  It counts them whenever every record was inserted over at least its own key, and whenever
all were inserted by string and no key goes on after its terminator. -/
theorem calls_audit (uniques : List Bool) (cs : List Call) (t : Nat) (p : Plot)
    (hp : ((fresh uniques).calls cs).plot t = .ok p) :
    (p.audit = .ok (match p.clumps.find? fun c => !decide (c.group.Uniform p.store.keyAt) with
      | some c => .error (.unequalKeys c.root.slot)
      | none => .ok ((fresh uniques).history t cs).length)) ∧
    ((∀ e ∈ (fresh uniques).history t cs, (p.store.keyAt e.1).size ≤ e.2) →
      p.audit = .ok (.ok ((fresh uniques).history t cs).length)) ∧
    ((∀ new len, Call.insert t new len ∉ cs) →
      (∀ i ∈ p.entries, (p.store.keyAt i).size ≤ (p.store.keyAt i).stringLength + 1) →
      p.audit = .ok (.ok ((fresh uniques).history t cs).length)) := by
  obtain ⟨shapes, hf⟩ := stands_calls uniques cs
  have hentries := entries_calls uniques cs hp
  have hlength : p.entries.length = ((fresh uniques).history t cs).length := by
    rw [hentries.length_eq, List.length_map]
  have haudit := (hf.bears_plot hp).audit_eq
  rw [hlength] at haudit
  refine ⟨haudit, audit_of_covered uniques cs hp, fun hstrings hends =>
    audit_of_covered uniques cs hp ?_⟩
  intro e he
  rw [history_of_strings uniques cs hstrings e he, ← (plot_eq_ok.mp hp).2]
  exact hends e.1 (hentries.mem_iff.mpr (List.mem_map_of_mem he))

/-- A record `ab` that is inserted over one byte beside the entry `a` is at fault, and the audit
names the branch over the two. -/
theorem calls_audit_ab :
    ∃ p, ((fresh [false]).calls [.add #[97], .add #[97, 98], .insert 0 0 1,
      .insert 0 1 1]).plot 0 = .ok p ∧ p.audit = .ok (.error (.unequalKeys 1)) := by
  refine ⟨_, rfl, (calls_audit [false] [.add #[97], .add #[97, 98], .insert 0 0 1, .insert 0 1 1]
    0 _ rfl).1.trans ?_⟩
  decide +kernel

end Forest

end BitTrie
