import BitTrie.Proofs.Auditing
import BitTrie.Proofs.Finding
import BitTrie.Proofs.Roles
import BitTrie.Proofs.Separation
import BitTrie.Proofs.WordInsertion
import BitTrie.Proofs.WordReading

/-!
# The ranges of bits and levels

The bit of a node is one signed word.  A number that is not negative is a position in a key, and a
negative one is a level over equal entries; were a sum or a conversion to wrap, one would be taken
for the other.  After any run all bits are in their ranges: positions are below the end of the bytes
over which their owner was hung, and levels are few, since they are logarithmic in the number of
entries.  So whatever is done next, nothing overflows.

## Main definitions

* `Plot.Bounded` — no branch is past the bytes of its owner.
* `Plot.InRange` — the bit of a branch is in the range of its kind.
* `Plot.NeverOverflows` — nothing that is done with a tree overflows.

## Main results

* `Store.Hangs.tied_le`, `Store.Hangs.level_mem` — the levels over equal entries of a store.
* `Forest.bounded_calls` — branches are bounded, after any run.
* `Plot.Bears.neverOverflows` — a sound tree gives no reason for an overflow.
* `Forest.calls_in_range` — **no bit wraps, after any run**.
-/

namespace BitTrie

open Checked

/-! ### Levels -/

namespace Store.Hangs

variable {s : Store} {place : Place} {t : Shape} {i : Slot} {k : Nat}

/-- A store has too few slots for equal entries on more than 31 levels. -/
theorem tied_le (h : s.Hangs place t) (ht : t.Tied k) (hnodup : t.leaves.Nodup) : k ≤ 31 := by
  cases ht with
  | leaf i => exact Nat.zero_le 31
  | branch hlevel hown hl hr hle =>
    obtain ⟨-, -, -, -, hleft, -⟩ := h
    exact hleft.perfect_lt hl (List.nodup_append.mp hnodup).1

/-- Equal entries have no levels but those from the topmost one down. -/
theorem level_mem (h : s.Hangs place t) (ht : t.Tied k) (hi : i ∈ t.branches) :
    -(k : Int) ≤ s.levelAt i ∧ s.levelAt i ≤ -1 := by
  induction t generalizing place k with
  | leaf j => exact absurd hi List.not_mem_nil
  | branch j b l r ihl ihr =>
    obtain ⟨-, hbit, -, -, hleft, hright⟩ := h
    cases ht with
    | branch hlevel hown hl hr hle =>
      rcases List.mem_cons.mp hi with rfl | hi
      · omega
      · rcases List.mem_append.mp hi with hi | hi
        · obtain ⟨hlow, hhigh⟩ := ihl hleft hl.tied hi
          omega
        · obtain ⟨hlow, hhigh⟩ := ihr hright hr hi
          omega

end Store.Hangs

/-! ### Bits -/

/-- The branch that an insertion brings is no further on than the bytes that are inserted over. -/
theorem Inserts.of_mem_branches {p q : Plot} {o o' : Option Shape} {new len r i : Nat}
    (h : Inserts p new len o r o' q) (hp : p.Bears o) (hfree : p.store.isResident new = .ok false)
    (hi : i ∈ q.branches) :
    i ∈ p.branches ∨ i = new ∧ r = new ∧ q.store.levelAt new < 8 * len := by
  rw [(h.bears hp hfree).branches_eq] at hi
  rw [hp.branches_eq]
  cases h with
  | first h => exact absurd hi List.not_mem_nil
  | turnedDown hunique hmeets => exact Or.inl hi
  | @joined path inner c u q hunique hmeets hseam h =>
    rw [← Path.fill_append, Option.map_some, Option.getD_some,
      (Path.branches_fill_graft (inner ++ path) u new _ _).mem_iff, Path.fill_append,
      hseam.fill_eq] at hi
    refine (List.mem_cons.mp hi).symm.imp_right fun heq => ⟨heq, rfl, ?_⟩
    obtain ⟨k, hperfect⟩ := hseam.perfect
    have hlevel := hperfect.tied.level_eq
    rw [h.level, if_pos rfl]
    omega
  | @alone path u d q hdiverges h =>
    rw [Option.map_some, Option.getD_some,
      (Path.branches_fill_graft path u new _ _).mem_iff] at hi
    refine (List.mem_cons.mp hi).symm.imp_right fun heq => ⟨heq, rfl, ?_⟩
    have hlt := hdiverges.lt_bits
    rw [h.level, if_pos rfl]
    omega

/-- No branch is past the bytes over which its owner was hung, where `h` says how many these are. -/
def Plot.Bounded (p : Plot) (h : List (Slot × Nat)) : Prop :=
  ∀ i ∈ p.branches, ∃ len : Nat, (i, len) ∈ h ∧ p.store.levelAt i < 8 * len

/-- **Branches are bounded, after any run.** -/
theorem Forest.bounded_calls (uniques : List Bool) (cs : List Call) {t : Nat} {p : Plot}
    (hp : ((fresh uniques).calls cs).plot t = .ok p) :
    p.Bounded ((fresh uniques).history t cs) := by
  suffices hkept : ∀ p, ((fresh uniques).calls cs).plot t = .ok p →
      p.Bounded ([] ++ (fresh uniques).history t cs) from hkept p hp
  refine calls_induction (P := fun f h => ∀ p, f.plot t = .ok p → p.Bounded h) ?_
    (stands_fresh uniques) ?_
  · intro f shapes c h _ hf hP p' hp' i hi
    obtain ⟨shapes', hhappens⟩ := hf.happens c
    obtain ⟨p, hplot, hnotices⟩ := hhappens.exists_notices rfl hp'
    have hbears := hf.bears_plot hplot
    have hbears' := (hhappens.stands hf).bears_plot hp'
    -- a branch that was there keeps its bit, and its owner stays in the history
    have hkept : i ∈ p.branches → ∃ len : Nat, (i, len) ∈ h ++ (f.accepts t c).toList ∧
        p'.store.levelAt i < 8 * len := by
      intro hi
      obtain ⟨len, hmem, hlt⟩ := hP p hplot i hi
      have hup := hf.isSome_up_iff.mpr ⟨t, p, hplot, hbears.branches_subset hi⟩
      rw [(plot_eq_ok.mp hp').2, (hhappens.levelAt hup).1, ← (plot_eq_ok.mp hplot).2]
      exact ⟨len, List.mem_append_left _ hmem, hlt⟩
    generalize shapes t = o at hbears hnotices
    generalize shapes' t = o' at hbears' hnotices
    generalize (f.call c).1 = out at hnotices
    cases hnotices with
    | nothing haccepts hother hunique hkey =>
      rw [hbears'.branches_eq, ← hbears.branches_eq] at hi
      exact hkept hi
    | @insertion new len r _ _ hinsertion haccepts hfree hins =>
      rcases hins.of_mem_branches hbears hfree hi with hi | ⟨rfl, rfl, hlt⟩
      · exact hkept hi
      · rw [haccepts, if_pos rfl]
        exact ⟨len, List.mem_append_right _ (List.mem_singleton.mpr rfl), hlt⟩
  · intro p hp i hi
    rw [((stands_fresh uniques).bears_plot hp).branches_eq] at hi
    exact absurd hi List.not_mem_nil

/-- The bit of a branch is in the range of its kind, where `h` says over how many bytes the records
were hung. -/
inductive Plot.InRange (p : Plot) (h : List (Slot × Nat)) (i : Slot) : Prop where
  /-- The oldest entry of a group owns a decision on a bit.  This is a position in the bytes over
  which that entry was hung, and the same number as a word without a sign. -/
  | ordinary {g : Group} {len : Nat} {pos : UInt32} (hg : g ∈ p.groups) (howner : g.oldest = i)
    (hlen : (i, len) ∈ h) (hmax : len ≤ maxKeyLength) (hnonneg : 0 ≤ p.store.levelAt i)
    (hlt : p.store.levelAt i < 8 * len) (hsame : (pos.toNat : Int) = p.store.levelAt i)
    (hposition : (toPosition (p.store.nodeAt i).bit : Checked Id UInt32) = pure pos)
    (hbit : (toBit pos : Checked Id Int32) = pure (p.store.nodeAt i).bit)
  /-- Another entry of a group owns a level. -/
  | level {g : Group} (hg : g ∈ p.groups) (howner : i ∈ g.later)
    (hlow : -31 ≤ p.store.levelAt i) (hhigh : p.store.levelAt i ≤ -1)

/-- A branch that is not past the bytes of its owner is in its range. -/
theorem Plot.Bears.inRange {p : Plot} {o : Option Shape} (hp : p.Bears o) {h : List (Slot × Nat)}
    {i : Slot} {len : Nat} (hi : i ∈ p.branches) (hlen : (i, len) ∈ h) (hmax : len ≤ maxKeyLength)
    (hlt : p.store.levelAt i < 8 * len) : p.InRange h i := by
  rw [hp.branches_eq] at hi
  cases o with
  | none => exact absurd hi List.not_mem_nil
  | some t =>
    have hgroup : ∀ c ∈ t.clumps, c.group ∈ p.groups := fun c hc => by
      rw [hp.groups_eq]
      exact List.mem_map_of_mem hc
    obtain ⟨⟨-, hhangs⟩, hsound⟩ := hp
    rcases Int.lt_or_le (p.store.levelAt i) 0 with hneg | hnonneg
    · obtain ⟨c, hc, hbranch, hlater⟩ := hsound.sorted.later_of_neg hhangs hi hneg
      obtain ⟨path, -, rfl⟩ := Path.exists_fill_clump hc
      obtain ⟨k, hk⟩ := hsound.sorted.exists_tied hc
      have hclump := (Store.hangs_fill.mp hhangs).2
      have hleaves := (Path.leaves_fill_perm path c).nodup_iff.mp hsound.distinct.leaves
      have hle := hclump.tied_le hk (List.nodup_append.mp hleaves).1
      obtain ⟨hlow, hhigh⟩ := hclump.level_mem hk hbranch
      exact .level (hgroup c hc) hlater (by omega) hhigh
    · obtain ⟨c, hc, howner⟩ := hsound.sorted.oldest_of_nonneg hhangs hi hnonneg
      obtain ⟨hposition, hnat⟩ := toPosition_eq (m := Id) hnonneg
      have hsame : ((p.store.nodeAt i).bit.toUInt32.toNat : Int) = p.store.levelAt i := by
        rw [hnat]
        exact Int.toNat_of_nonneg hnonneg
      exact .ordinary (hgroup c hc) howner hlen hmax hnonneg hlt hsame hposition
        (toBit_toUInt32 hnonneg)

/-! ### What is done with a tree -/

/-- What is done with a tree in words ends as it does in numbers, and no operation overflows. -/
structure Plot.NeverOverflows (p : Plot) : Prop where
  /-- A record that is not refused is inserted. -/
  insert : ∀ new len, p.store.refusal new len = none → ∃ r q,
    Edit.insert new len p = .ok r q ∧ (Edit.insertWords new len).run p = .ok (.ok r) q
  /-- One that is refused is so for the same reason. -/
  refused : ∀ new len e, p.store.refusal new len = some e →
    Edit.insert new len p = .error e p ∧ (Edit.insertWords new len).run p = .error e p
  /-- A lookup gives an answer. -/
  find : ∀ query len, ∃ r, p.find query len = .ok r ∧ (p.findWords query len).run = .ok (.ok r)
  /-- And so does an audit. -/
  audit : ∃ r, p.audit = .ok r ∧ p.auditWords.run.run = .ok (.ok <$> r)

/-- A refusal is never that of a sum or a difference. -/
theorem Store.ne_of_refusal {s : Store} {new len : Nat} {e : Fault}
    (h : s.refusal new len = some e) : e ≠ .sumOverflow ∧ e ≠ .differenceOverflow := by
  unfold refusal at h
  split_ifs at h <;> cases h <;> exact ⟨nofun, nofun⟩

/-- **A sound tree gives no reason for an overflow.** -/
theorem Plot.Bears.neverOverflows {p : Plot} {o : Option Shape} (hp : p.Bears o) :
    p.NeverOverflows := by
  constructor
  case insert =>
    intro new len hnone
    obtain ⟨hfree, hlen⟩ := Store.refusal_eq_none.mp hnone
    obtain ⟨r, q, -, hinsert, -⟩ := Edit.insert_inserts hlen hp hfree
    have hno : ¬ Edit.Overflows (Edit.insert new len) p := by
      rintro ⟨q', hover | hover⟩ <;> cases hinsert.symm.trans hover
    exact ⟨r, q, hinsert, (Edit.insertWords_agrees new len p hno).trans (Edit.plain_of_ok hinsert)⟩
  case refused =>
    intro new len e hrefusal
    have hinsert := Edit.insert_of_refusal hrefusal
    obtain ⟨hsum, hdifference⟩ := Store.ne_of_refusal hrefusal
    have hno : ¬ Edit.Overflows (Edit.insert new len) p := by
      rintro ⟨q', hover | hover⟩ <;> cases hinsert.symm.trans hover
      · exact hsum rfl
      · exact hdifference rfl
    exact ⟨hinsert, (Edit.insertWords_agrees new len p hno).trans (Edit.plain_of_error hinsert)⟩
  case find =>
    intro query len
    refine ⟨_, hp.find_eq query len, ?_⟩
    rw [p.findWords_eq, hp.find_eq]
    rfl
  case audit =>
    obtain ⟨r, haudit⟩ : ∃ r, p.audit = .ok r := ⟨_, hp.audit_eq⟩
    refine ⟨r, haudit, ?_⟩
    rw [p.auditWords_eq, haudit]
    cases r <;> rfl

/-! ### Runs -/

namespace Forest

/-- **No bit wraps, after any run.**  The branches of a tree are on bits of the bytes over which
their owners were hung, once each, or on one of 31 levels.  Lengths and bits of keys never overflow;
and on the tree as it stands, neither does an insertion, a lookup or an audit, with every scan in
them ending at one of the positions of a node or one past them. -/
theorem calls_in_range (uniques : List Bool) (cs : List Call) (t : Nat) (p : Plot)
    (hp : ((fresh uniques).calls cs).plot t = .ok p) :
    (((fresh uniques).history t cs).map (·.1)).Nodup ∧
    (∀ i ∈ p.branches, p.InRange ((fresh uniques).history t cs) i) ∧
    (∀ len, Key.bitLengthWord len = UInt32.ofNat <$> Key.bitLength len) ∧
    (∀ (k : Key) pos, (k.bitWord pos : Checked Id Bool) = pure (k.bitAt pos.toNat)) ∧
    p.NeverOverflows := by
  obtain ⟨shapes, hf⟩ := stands_calls uniques cs
  have hbears := hf.bears_plot hp
  have hnodup := (entries_calls uniques cs hp).nodup_iff.mp hbears.nodup_entries
  refine ⟨hnodup, fun i hi => ?_, Key.bitLengthWord_eq, Key.bitWord_eq, hbears.neverOverflows⟩
  obtain ⟨len, hlen, hlt⟩ := bounded_calls uniques cs hp i hi
  exact hbears.inRange hi hlen (history_le uniques cs _ hlen) hlt

/-- Two equal entries and a third one: the second owns a level, and the third a bit in the only byte
that it was hung over. -/
theorem calls_in_range_three :
    ∃ p, ((fresh [false]).calls [.add #[97], .add #[97], .add #[98], .insert 0 0 1, .insert 0 1 1,
        .insert 0 2 1]).plot 0 = .ok p ∧ p.branches = [2, 1] ∧
      p.store.levelAt 1 = -1 ∧ p.store.levelAt 2 = 6 ∧
      p.InRange [(0, 1), (1, 1), (2, 1)] 1 ∧ p.InRange [(0, 1), (1, 1), (2, 1)] 2 ∧
      p.NeverOverflows := by
  have hp := plot_of_lt (t := 0) (f := (fresh [false]).calls [.add #[97], .add #[97], .add #[98],
    .insert 0 0 1, .insert 0 1 1, .insert 0 2 1]) (by decide +kernel)
  have hhistory : (fresh [false]).history 0 [.add #[97], .add #[97], .add #[98], .insert 0 0 1,
      .insert 0 1 1, .insert 0 2 1] = [(0, 1), (1, 1), (2, 1)] := by decide +kernel
  obtain ⟨-, hrange, -, -, hnever⟩ := calls_in_range [false] _ 0 _ hp
  rw [hhistory] at hrange
  exact ⟨_, hp, by decide +kernel, by decide +kernel, by decide +kernel,
    hrange 1 (by decide +kernel), hrange 2 (by decide +kernel), hnever⟩

end Forest

end BitTrie
