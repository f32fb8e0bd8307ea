import BitTrie.Lookup
import BitTrie.Proofs.History

/-!
# What a lookup finds

A lookup compares with one resident key on each branch, and of that only the bytes between the
last decision and the next one.  What it finds is what a search of the groups finds that compares
all bytes with all oldest entries.

## Main definitions

* `Seeks` — what is known at a place on the way down.
* `Shape.found` — the search of the groups.
* `Plot.Foremost` — what is found, in the order of the keys.

## Main results

* `Key.agreeBefore_iff` — the comparison of the first bits of a byte.
* `Store.findFrom_eq`, `Plot.Holds.find_eq` — **a lookup searches the first entries**.
* `Plot.Bears.find_eq` — **a lookup is a search of the groups**.
* `Plot.Bears.find_eq_some_iff`, `Plot.Bears.find_eq_none_iff` — and finds the foremost one.
* `Plot.Bears.first_eq` — the first entry is the oldest of the first group.
* `Forest.calls_find` — the same after any run.
-/

namespace BitTrie

namespace Key

variable {a b : Key}

/-- Bytes shifted to their first bits are the same when these bits are. -/
theorem agreeBefore_iff {i n : Nat} (hn : n ≤ 8) :
    a.agreeBefore b i n = true ↔ ∀ j, j < n → a.bitAt (8 * i + j) = b.bitAt (8 * i + j) := by
  rw [agreeBefore, beq_iff_eq]
  constructor
  · intro h j hj
    have hbit := congrArg (fun x => x.testBit (n - 1 - j)) h
    simp only [Nat.testBit_shiftRight, show 8 - n + (n - 1 - j) = 7 - j by omega] at hbit
    rwa [bitAt_eq_byteAt_testBit a i (by omega), bitAt_eq_byteAt_testBit b i (by omega)]
  · intro h
    apply Nat.eq_of_testBit_eq
    intro m
    rw [Nat.testBit_shiftRight, Nat.testBit_shiftRight]
    rcases Nat.lt_or_ge m n with hm | hm
    · have hbit := h (n - 1 - m) (by omega)
      rw [bitAt_eq_byteAt_testBit a i (by omega), bitAt_eq_byteAt_testBit b i (by omega),
        show 7 - (n - 1 - m) = 8 - n + m by omega] at hbit
      exact hbit
    · have hpast : ∀ x : UInt8, x.toNat.testBit (8 - n + m) = false := fun x =>
        Nat.testBit_lt_two_pow (Nat.lt_of_lt_of_le x.toNat_lt
          (Nat.pow_le_pow_right (by decide) (by omega)))
      rw [hpast, hpast]

end Key

/-- The oldest entry of the leftmost group that agrees with a query over `len` bytes. -/
def Shape.found (key : Slot → Key) (query : Key) (len : Nat) (t : Shape) : Option Slot :=
  t.firsts.find? fun x => decide ((key x).Alike query len)

/-- A search of the first entries is a search of the groups. -/
theorem Shape.found_eq_groups {key : Slot → Key} {query : Key} {len : Nat} (t : Shape) :
    t.found key query len =
      (t.groups.find? fun g => decide ((key g.oldest).Alike query len)).map (·.oldest) := by
  rw [found, firsts, groups, List.find?_map, List.find?_map, Option.map_map]
  rfl

/-- What is known of a query where `t` hangs: the bytes before `pos` are those of all first
entries, and no branch below decides on a bit before them. -/
structure Seeks (key : Slot → Key) (query : Key) (t : Shape) (pos : Nat) : Prop where
  known : ∀ x ∈ t.firsts, (key x).Alike query pos
  pos_le : ∀ {i b l r}, t = .branch i b l r → 0 ≤ b → pos ≤ b.toNat / 8

section

variable {key : Slot → Key} {query : Key} {len pos : Nat} {t : Shape} {f : Fork}

/-! ### Searching the groups -/

theorem Shape.found_eq_none (h : ∀ x ∈ t.firsts, ¬ (key x).Alike query len) :
    t.found key query len = none :=
  List.find?_eq_none.mpr fun x hx => by simpa using h x hx

/-- Where all first entries agree, the leftmost one is found. -/
theorem Shape.found_eq_oldest (h : ∀ x ∈ t.firsts, (key x).Alike query len) :
    t.found key query len = some t.oldest := by
  have hhead := t.head?_firsts
  cases hfirsts : t.firsts with
  | nil => exact absurd hfirsts t.firsts_ne_nil
  | cons x xs =>
    rw [hfirsts, List.head?_cons, Option.some.injEq] at hhead
    rw [found, hfirsts, List.find?_cons_of_pos (by simpa using h x (hfirsts ▸ List.mem_cons_self)),
      hhead]

/-- On a bit that is asked for, only the side of the query's bit is searched. -/
theorem Shape.found_close (len : Nat) (hparted : (f.close t).Parted key) (hf : 0 ≤ f.bit)
    (hturn : query.bitAt f.bit.toNat = f.side.bit) (hasked : f.bit.toNat < 8 * len) :
    (f.close t).found key query len = t.found key query len := by
  obtain ⟨hparts, -⟩ := hparted.of_close hf
  have hother : f.other.found key query len = none := by
    apply found_eq_none
    intro x hx halike
    have hbit := Key.alike_iff_sameBits.mp halike f.bit.toNat hasked
    rw [hparts.other x hx, hturn] at hbit
    cases hside : f.side <;> simp [hside, Side.opposite, Side.bit] at hbit
  unfold found at hother
  rw [found, found, Fork.close]
  cases f.side with
  | left =>
    simp only
    rw [firsts_of_nonneg hf, List.find?_append, hother, Option.or_none]
  | right =>
    simp only
    rw [firsts_of_nonneg hf, List.find?_append, hother, Option.none_or]

/-! ### One branch further down -/

/-- What the branch's own key has been compared up to is known on both sides. -/
theorem Shape.Parted.seeks (hparted : (f.close t).Parted key) (hf : 0 ≤ f.bit)
    (hknown : (key f.slot).Alike query (f.bit.toNat / 8)) :
    Seeks key query t (f.bit.toNat / 8) := by
  obtain ⟨hparts, -⟩ := hparted.of_close hf
  constructor
  · intro x hx
    have hx' := hparts.same x ((Fork.mem_firsts_close hf).mpr (Or.inl hx))
    have hbytes : (key x).Alike (key f.slot) (f.bit.toNat / 8) :=
      Key.alike_iff_sameBits.mpr (hx'.mono (by omega))
    exact hbytes.trans hknown
  · intro i b l r ht hb
    rw [ht] at hparted
    exact Nat.div_le_div_right (Nat.le_of_lt (hparted.bit_lt hf hb))

end

/-! ### The walk -/

namespace Store

variable {s : Store} {query : Key} {len pos fuel i : Nat} {link : ChildLink} {t : Shape}

theorem findFrom_of_leaf (hlink : link.child? = some (.leaf i)) (hi : i < s.size) :
    s.findFrom query len (fuel + 1) link pos =
      .ok (if (s.keyAt i).agreeOn query pos len then some i else none) := by
  rw [findFrom, follow_eq_ok hlink]
  simp only [bind, Except.bind, Child.slot_leaf, key_eq_ok hi]
  rfl

theorem findFrom_of_neg {o : Slot} (hlink : link.child? = some (.branch i)) (hi : i < s.size)
    (hneg : s.levelAt i < 0) (holdest : s.outermost .left link = .ok o) (ho : o < s.size) :
    s.findFrom query len (fuel + 1) link pos =
      .ok (if (s.keyAt o).agreeOn query pos len then some o else none) := by
  have hover : (s.nodeAt i).overEqualKeys = true := decide_eq_true hneg
  rw [findFrom, follow_eq_ok hlink]
  simp only [bind, Except.bind, Child.slot_branch, key_eq_ok hi, node_eq_ok hi, hover, if_true,
    holdest, key_eq_ok ho]
  rfl

/-- The way down at a branch on a bit, when no bit before `pos` is decided on. -/
theorem findFrom_of_nonneg {bit : Nat} (hlink : link.child? = some (.branch i)) (hi : i < s.size)
    (hbit : s.levelAt i = bit) (hpos : pos ≤ bit / 8) :
    s.findFrom query len (fuel + 1) link pos =
      if !(s.keyAt i).agreeOn query pos (min (bit / 8) len) then .ok none
      else if len ≤ bit / 8 then some <$> s.outermost .left (s.nodeAt i).left
      else if !(s.keyAt i).agreeBefore query (bit / 8) (bit % 8) then .ok none
      else s.findFrom query len fuel ((s.nodeAt i).child (.ofBit (query.bitAt bit))) (bit / 8) := by
  have hover : ¬ (s.nodeAt i).overEqualKeys = true := by
    rw [Node.overEqualKeys, decide_eq_true_eq, ← levelAt, hbit]
    omega
  have hbit' : (s.nodeAt i).bit.toInt.toNat = bit := by
    rw [← levelAt, hbit, Int.toNat_natCast]
  rw [findFrom, follow_eq_ok hlink]
  simp only [bind, Except.bind, Child.slot_branch, key_eq_ok hi, node_eq_ok hi, hover,
    Bool.false_eq_true, if_false, hbit', Nat.max_eq_right hpos, Nat.div_add_mod]
  rfl

end Store

/-- At one group only the bytes from `pos` on are compared, those before agree. -/
theorem Seeks.found_of_firsts {key : Slot → Key} {query : Key} {len pos : Nat} {t : Shape}
    (h : Seeks key query t pos) (ht : t.firsts = [t.oldest]) : t.found key query len =
      if (key t.oldest).agreeOn query pos len then some t.oldest else none := by
  have hiff : (key t.oldest).agreeOn query pos len = true ↔
      (key t.oldest).Alike query len := by
    rw [Key.agreeOn_iff]
    refine ⟨?_, fun hon j _ hj => hon j hj⟩
    intro hon j hj
    rcases Nat.lt_or_ge j pos with hlt | hge
    · exact h.known _ t.oldest_mem_firsts j hlt
    · exact hon j hge hj
  rw [Shape.found, ht]
  by_cases halike : (key t.oldest).Alike query len
  · rw [if_pos (hiff.mpr halike), List.find?_cons_of_pos (by simpa using halike)]
  · rw [if_neg fun hon => halike (hiff.mp hon), List.find?_cons_of_neg (by simpa using halike)]
    rfl

section

variable {key : Slot → Key} {query : Key} {len pos : Nat} {i bit : Nat} {l r : Shape}

/-- Under a branch on a bit, all first entries have the bytes of its own key before that bit. -/
theorem Shape.Parted.alike_own (hparted : (Shape.branch i bit l r).Parted key) :
    ∀ x ∈ (Shape.branch i bit l r).firsts, (key x).Alike (key i) (bit / 8) := by
  intro x hx
  have hsame := hparted.sameBits (Int.natCast_nonneg bit) x hx
  exact Key.alike_iff_sameBits.mpr (hsame.mono (by simp only [Int.toNat_natCast]; omega))

/-- What has been compared once the stored bytes before a branch's bit agree. -/
theorem Seeks.known_own (hseeks : Seeks key query (.branch i bit l r) pos)
    (hparted : (Shape.branch i bit l r).Parted key)
    (hstored : (key i).agreeOn query pos (min (bit / 8) len) = true) :
    (key i).Alike query (min (bit / 8) len) := by
  intro j hj
  rcases Nat.lt_or_ge j pos with hlt | hge
  -- the first bytes of the branch's own key are those of any first entry under it
  · have hpos := hseeks.pos_le rfl (Int.natCast_nonneg bit)
    have hmem := (Shape.branch i bit l r).oldest_mem_firsts
    rw [Int.toNat_natCast] at hpos
    exact ((hparted.alike_own _ hmem) j (by omega)).symm.trans (hseeks.known _ hmem j hlt)
  · exact Key.agreeOn_iff.mp hstored j hge hj

/-- Nothing is found under a branch whose own key has other bytes before its bit. -/
theorem Shape.Parted.found_eq_none_of_stored (hparted : (Shape.branch i bit l r).Parted key)
    (hstored : (key i).agreeOn query pos (min (bit / 8) len) = false) :
    (Shape.branch i bit l r).found key query len = none := by
  apply Shape.found_eq_none
  intro x hx halike
  rw [← Bool.not_eq_true, Key.agreeOn_iff] at hstored
  apply hstored
  intro j _ hj
  rw [← hparted.alike_own x hx j (by omega), halike j (by omega)]

/-- Nothing is found under a branch whose own key has other bits before its bit. -/
theorem Shape.Parted.found_eq_none_of_before (hparted : (Shape.branch i bit l r).Parted key)
    (hlt : bit / 8 < len)
    (hbefore : (key i).agreeBefore query (bit / 8) (bit % 8) = false) :
    (Shape.branch i bit l r).found key query len = none := by
  apply Shape.found_eq_none
  intro x hx halike
  rw [← Bool.not_eq_true, Key.agreeBefore_iff (by omega)] at hbefore
  apply hbefore
  intro j hj
  have hsame := hparted.sameBits (Int.natCast_nonneg bit) x hx
  rw [← hsame _ (by simp only [Int.toNat_natCast]; omega)]
  exact Key.alike_iff_sameBits.mp halike _ (by omega)

end

/-- **The way down** ends, and finds what a search of the groups finds. -/
theorem Store.findFrom_eq {s : Store} {query : Key} {len pos fuel : Nat} {place : Place}
    {link : ChildLink} {t : Shape} (hseeks : Seeks s.keyAt query t pos)
    (hparted : t.Parted s.keyAt) (hhangs : s.Hangs place t) (hnodup : t.branches.Nodup)
    (hlink : link.child? = some t.root) (hfuel : t.height < fuel) :
    s.findFrom query len fuel link pos = .ok (t.found s.keyAt query len) := by
  induction t generalizing place pos link fuel with
  | leaf i =>
    obtain ⟨fuel, rfl⟩ := Nat.exists_eq_add_one_of_ne_zero (Nat.ne_of_gt (Nat.zero_lt_of_lt hfuel))
    rw [findFrom_of_leaf hlink (lt_size_of_up hhangs), hseeks.found_of_firsts rfl]
    rfl
  | branch i b l r ihl ihr =>
    obtain ⟨fuel, rfl⟩ := Nat.exists_eq_add_one_of_ne_zero (Nat.ne_of_gt (Nat.zero_lt_of_lt hfuel))
    have hi : i < s.size := lt_size_of_up hhangs.up_root
    have hb : s.levelAt i = b := hhangs.2.1
    rcases Int.lt_or_le b 0 with hneg | hnonneg
    · have ho := hhangs.lt_size.1 _ (Shape.oldest_mem_leaves _)
      rw [findFrom_of_neg hlink hi (by omega) (hhangs.outermost_left hnodup hlink) ho,
        hseeks.found_of_firsts (Shape.firsts_of_neg hneg)]
    · obtain ⟨bit, rfl⟩ := Int.eq_ofNat_of_zero_le hnonneg
      have hpos : pos ≤ bit / 8 := hseeks.pos_le rfl hnonneg
      obtain ⟨-, hl, hr⟩ := hparted.of_nonneg hnonneg
      obtain ⟨hnodupl, hnodupr, -⟩ := List.nodup_append.mp (List.nodup_cons.mp hnodup).2
      obtain ⟨-, -, hleft, hright, hhangsl, hhangsr⟩ := hhangs
      rw [findFrom_of_nonneg hlink hi hb hpos]
      cases hstored : (s.keyAt i).agreeOn query pos (min (bit / 8) len) with
      | false =>
        rw [Bool.not_false, if_pos rfl, hparted.found_eq_none_of_stored hstored]
      | true =>
        have hknown := hseeks.known_own hparted hstored
        rw [Bool.not_true, if_neg Bool.false_ne_true]
        split
        · next hle =>
          -- the query ends above the bit, and the leftmost entry is as good as any
          have houtermost : s.outermost .left (s.nodeAt i).left = .ok l.oldest :=
            hhangsl.outermost_left hnodupl hleft
          rw [houtermost, Shape.found_eq_oldest fun x hx => ?_]
          · rfl
          · rw [Nat.min_eq_right hle] at hknown
            exact ((hparted.alike_own x hx).mono hle).trans hknown
        · next hlt =>
          rw [Nat.min_eq_left (Nat.le_of_not_le hlt)] at hknown
          cases hbefore : (s.keyAt i).agreeBefore query (bit / 8) (bit % 8) with
          | false =>
            rw [Bool.not_false, if_pos rfl,
              hparted.found_eq_none_of_before (Nat.lt_of_not_le hlt) hbefore]
          | true =>
            rw [Bool.not_true, if_neg Bool.false_ne_true]
            simp only [Shape.height] at hfuel
            -- the branch sends the query to one side, and nothing is found on the other
            cases hside : query.bitAt bit with
            | false =>
              have hfound := Shape.found_close len (f := ⟨i, bit, .left, r⟩) hparted
                hnonneg hside (by simp only [Int.toNat_natCast]; omega)
              exact (ihl (Shape.Parted.seeks (f := ⟨i, bit, .left, r⟩) hparted hnonneg hknown) hl
                hhangsl hnodupl hleft (by omega)).trans (congrArg Except.ok hfound.symm)
            | true =>
              have hfound := Shape.found_close len (f := ⟨i, bit, .right, l⟩) hparted
                hnonneg hside (by simp only [Int.toNat_natCast]; omega)
              exact (ihr (Shape.Parted.seeks (f := ⟨i, bit, .right, l⟩) hparted hnonneg hknown) hr
                hhangsr hnodupr hright (by omega)).trans (congrArg Except.ok hfound.symm)

/-! ### Trees -/

namespace Plot

variable {p : Plot} {o : Option Shape}

/-- The first entry is the oldest of the first group. -/
theorem Bears.first_eq (h : p.Bears o) : p.first = .ok (p.groups.head?.map (·.oldest)) := by
  rw [h.groups_eq, first]
  cases o with
  | none =>
    have htop : p.tree.top = .null := h
    rw [if_pos (by rw [Tree.isEmpty, htop]; rfl)]
    rfl
  | some t =>
    obtain ⟨hholds, hsound⟩ := h
    have hhead := t.head?_firsts
    rw [Shape.firsts, List.head?_map] at hhead
    rw [if_neg hholds.not_isEmpty, hholds.2.outermost_left hsound.distinct.branches hholds.1]
    simp only [Option.map_some, Option.getD_some, Shape.groups, List.head?_map, Option.map_map]
    exact congrArg Except.ok hhead.symm

/-- **A lookup in a parted tree** searches the first entries of its groups. -/
theorem Holds.find_eq {t : Shape} (h : p.Holds t) (hnodup : t.branches.Nodup)
    (hparted : t.Parted p.store.keyAt) (query : Key) (len : Nat) :
    p.find query len = .ok (t.found p.store.keyAt query len) := by
  rcases Nat.eq_zero_or_pos len with rfl | hlen
  · rw [find_zero, first, if_neg h.not_isEmpty, h.2.outermost_left hnodup h.1,
      Shape.found_eq_oldest fun x _ i hi => absurd hi (Nat.not_lt_zero i)]
    rfl
  · have hseeks : Seeks p.store.keyAt query t 0 :=
      ⟨fun x _ i hi => absurd hi (Nat.not_lt_zero i), fun _ _ => Nat.zero_le _⟩
    have hheight := h.2.height_le hnodup
    have hfuel : t.height < (p.store.size + 1) * (p.store.size + 1) := by
      have hle : p.store.size + 1 ≤ (p.store.size + 1) * (p.store.size + 1) :=
        Nat.le_mul_of_pos_left _ (Nat.succ_pos _)
      omega
    rw [find, if_neg (show ¬ len = 0 by omega), if_neg h.not_isEmpty,
      Store.findFrom_eq hseeks hparted h.2 hnodup h.1 hfuel]

/-- **A lookup is a search of the groups.** -/
theorem Bears.find_eq (h : p.Bears o) (query : Key) (len : Nat) :
    p.find query len = .ok ((p.groups.find? fun g =>
      decide ((p.store.keyAt g.oldest).Alike query len)).map (·.oldest)) := by
  rw [h.groups_eq]
  cases o with
  | none =>
    have htop : p.tree.top = .null := h
    rw [find, if_pos (by rw [Tree.isEmpty, htop]; rfl)]
    rfl
  | some t =>
    obtain ⟨hholds, hsound⟩ := h
    rw [hholds.find_eq hsound.distinct.branches hsound.sorted.parted, Shape.found_eq_groups]
    rfl

/-! ### What is found, in the order of the keys -/

/-- A record is the oldest of a group that agrees with a query, and no group that agrees comes
before it in the order of the keys. -/
structure Foremost (p : Plot) (query : Key) (len : Nat) (i : Slot) : Prop where
  oldest : ∃ g ∈ p.groups, g.oldest = i
  agrees : (p.store.keyAt i).Alike query len
  first : ∀ g ∈ p.groups, (p.store.keyAt g.oldest).Alike query len →
    ¬ (p.store.keyAt g.oldest).Precedes (p.store.keyAt i)

variable {query : Key} {len : Nat} {i : Slot}

/-- A lookup ends, and finds the foremost of the groups that agree, if any does. -/
theorem Bears.find_cases (h : p.Bears o) (query : Key) (len : Nat) :
    (p.find query len = .ok none ∧ ∀ g ∈ p.groups, ¬ (p.store.keyAt g.oldest).Alike query len) ∨
      ∃ i, p.find query len = .ok (some i) ∧ p.Foremost query len i := by
  have hascending := h.ascending
  rw [h.find_eq]
  cases hfind : p.groups.find? fun g => decide ((p.store.keyAt g.oldest).Alike query len) with
  | none =>
    refine Or.inl ⟨rfl, fun g hg halike => ?_⟩
    exact List.find?_eq_none.mp hfind g hg (decide_eq_true halike)
  | some g =>
    obtain ⟨hagrees, before, after, hgroups, hbefore⟩ := List.find?_eq_some_iff_append.mp hfind
    refine Or.inr ⟨g.oldest, rfl, ⟨g, List.mem_of_find?_eq_some hfind, rfl⟩,
      of_decide_eq_true hagrees, fun g' hg' halike => ?_⟩
    rw [hgroups] at hg' hascending
    obtain ⟨-, hafter, -⟩ := List.pairwise_append.mp hascending
    -- the groups before it do not agree, and those after it do not come before it
    rcases List.mem_append.mp hg' with hg' | hg'
    · exact absurd halike (by simpa using hbefore g' hg')
    · rcases List.mem_cons.mp hg' with rfl | hg'
      · exact fun hlt => hlt.asymm hlt
      · exact ((List.pairwise_cons.mp hafter).1 g' hg').asymm

/-- Nothing is found when no group agrees. -/
theorem Bears.find_eq_none_iff (h : p.Bears o) : p.find query len = .ok none ↔
    ∀ g ∈ p.groups, ¬ (p.store.keyAt g.oldest).Alike query len := by
  rcases h.find_cases query len with ⟨hfind, hnone⟩ | ⟨i, hfind, ⟨g, hg, rfl⟩, hagrees, -⟩
  · exact iff_of_true hfind hnone
  · rw [hfind]
    exact iff_of_false (fun heq => by cases heq) fun hnone => hnone g hg hagrees

/-- **A lookup finds the foremost group**, and there is no more than one. -/
theorem Bears.find_eq_some_iff (h : p.Bears o) :
    p.find query len = .ok (some i) ↔ p.Foremost query len i := by
  rcases h.find_cases query len with ⟨hfind, hnone⟩ | ⟨j, hfind, hj⟩
  · rw [hfind]
    refine iff_of_false (fun heq => by cases heq) ?_
    rintro ⟨⟨g, hg, rfl⟩, hagrees, -⟩
    exact hnone g hg hagrees
  · rw [hfind]
    refine ⟨fun heq => by cases heq; exact hj, fun hi => ?_⟩
    obtain ⟨⟨g, hg, rfl⟩, hagrees, hfirst⟩ := hi
    obtain ⟨⟨g', hg', rfl⟩, hagrees', hfirst'⟩ := hj
    rcases or_eq_or_of_pairwise h.ascending hg hg' with hlt | rfl | hlt
    · exact absurd hlt (hfirst' g hg hagrees)
    · rfl
    · exact absurd hlt (hfirst g' hg' hagrees')

end Plot

/-- **Lookups after any run** terminate without a fault, and give the oldest entry of the leftmost
group whose oldest entry agrees with the query, or nothing when there is none. -/
theorem Forest.calls_find (uniques : List Bool) (cs : List Call) (t : Nat) (p : Plot)
    (hp : ((fresh uniques).calls cs).plot t = .ok p) (query : Key) (len : Nat) :
    p.find query len = .ok ((p.groups.find? fun g =>
      decide ((p.store.keyAt g.oldest).Alike query len)).map (·.oldest)) := by
  obtain ⟨shapes, hf⟩ := stands_calls uniques cs
  exact (hf.bears_plot hp).find_eq query len

/-- With the entries `a` and `b`, a lookup of `b` over three bytes gives the second. -/
theorem Forest.calls_find_b :
    ∃ p, ((fresh [true]).calls [.add #[97], .add #[98], .insert 0 0 1, .insert 0 1 1]).plot 0 =
      .ok p ∧ p.groups = [⟨0, []⟩, ⟨1, []⟩] ∧ p.find #[98] 3 = .ok (some 1) := by
  refine ⟨_, rfl, by decide +kernel, ?_⟩
  exact (calls_find [true] [.add #[97], .add #[98], .insert 0 0 1, .insert 0 1 1] 0 _ rfl
    #[98] 3).trans (by decide +kernel)

end BitTrie
