import BitTrie.Proofs.Growth

/-!
# Links in words

The word of a link has the slot in its upper bits and the mark in the lowest.  Near the top of the
range three words stand close together: those of the last slot, the word of the root, and the null
word.  A store that is full to the last slot keeps them apart.

## Main definitions

* `Word.lowest` — a mark as the lowest bit of a word.
* `Word.Names` — what can be read off the word of a slot and a mark.

## Main results

* `Word.pack_eq_or`, `Word.toNat_shiftRight`, `Word.and_one` — packing and reading by shifts and
  masks.
* `Word.pack_inj` — two slots and marks with the same word are the same.
* `Store.exists_add_iff` — which slots a store hands out.
* `links_lossless` — **links lose nothing**, up to the last slot.
-/

namespace BitTrie

namespace Word

variable {i j : Nat} {mark mark' : Bool}

/-! ### Shifts and masks -/

/-- A mark as the lowest bit of a word. -/
def lowest (mark : Bool) : Word := if mark then 1 else 0

theorem toNat_lowest (mark : Bool) : (lowest mark).toNat = mark.toNat := by cases mark <;> rfl

/-- A word is packed by moving the slot up and setting the lowest bit. -/
theorem pack_eq_or (h : i ≤ maxSlots) (mark : Bool) :
    pack i mark = (UInt32.ofNat i <<< 1) ||| lowest mark := by
  unfold maxSlots at h
  have hslot : (UInt32.ofNat i).toNat = i := by
    rw [UInt32.toNat_ofNat']
    exact Nat.mod_eq_of_lt (by omega)
  have hmark : mark.toNat < 2 ^ 1 := Nat.lt_succ_of_le (Bool.toNat_le mark)
  apply UInt32.toNat_inj.mp
  rw [toNat_pack h, UInt32.toNat_or, UInt32.toNat_shiftLeft, hslot, toNat_lowest]
  have hup : i <<< 1 % 2 ^ 32 = i <<< 1 := by
    rw [Nat.shiftLeft_eq]
    exact Nat.mod_eq_of_lt (by omega)
  rw [show (1 : UInt32).toNat % 32 = 1 from rfl, hup, ← Nat.shiftLeft_add_eq_or_of_lt hmark,
    Nat.shiftLeft_eq, Nat.pow_one, Nat.mul_comm]

/-- The slot is read by moving it down again. -/
theorem toNat_shiftRight (w : Word) : (w >>> 1).toNat = w.slot := by
  rw [UInt32.toNat_shiftRight, slot, Nat.shiftRight_eq_div_pow]
  rfl

/-- The mark is read by a mask. -/
theorem and_one (w : Word) : w &&& 1 = lowest w.mark := by
  apply UInt32.toNat_inj.mp
  rw [UInt32.toNat_and, toNat_lowest, mark, show (1 : UInt32).toNat = 1 from rfl,
    Nat.and_one_is_mod]
  rcases Nat.mod_two_eq_zero_or_one w.toNat with h | h <;> rw [h] <;> rfl

/-! ### Words that differ -/

/-- Two slots and marks with the same word are the same. -/
theorem pack_inj (hi : i ≤ maxSlots) (hj : j ≤ maxSlots) (h : pack i mark = pack j mark') :
    i = j ∧ mark = mark' := by
  have hslot := congrArg slot h
  have hmark := congrArg Word.mark h
  rw [slot_pack hi, slot_pack hj] at hslot
  rw [mark_pack hi, mark_pack hj] at hmark
  exact ⟨hslot, hmark⟩

/-- No slot has the word of the root. -/
theorem pack_ne_root (h : i < maxSlots) (mark : Bool) : pack i mark ≠ root :=
  fun heq => Nat.ne_of_lt h (pack_inj (Nat.le_of_lt h) (Nat.le_refl maxSlots) heq).1

/-- What can be read off a word that names the slot `i` with a mark. -/
structure Names (w : Word) (i : Nat) (b : Bool) : Prop where
  /-- The word is the slot, moved up by one bit, with the mark below it. -/
  packed : w = (UInt32.ofNat i <<< 1) ||| lowest b
  /-- The slot is what is left when it is moved down again. -/
  slot : (w >>> 1).toNat = i
  /-- The mark is the lowest bit. -/
  mark : w &&& 1 = lowest b
  /-- The word is not null. -/
  ne_null : w ≠ null
  /-- It is not that of the root. -/
  ne_root : w ≠ root
  /-- It is that of no other slot, and of no other mark. -/
  unique : ∀ j c, j < maxSlots → w = pack j c → j = i ∧ c = b

theorem names_pack (h : i < maxSlots) (mark : Bool) : (pack i mark).Names i mark where
  packed := pack_eq_or (Nat.le_of_lt h) mark
  slot := by rw [toNat_shiftRight, slot_pack (Nat.le_of_lt h)]
  mark := by rw [and_one, mark_pack (Nat.le_of_lt h)]
  ne_null := pack_ne_null (Nat.le_of_lt h) mark
  ne_root := pack_ne_root h mark
  unique := fun j c hj heq => pack_inj (Nat.le_of_lt hj) (Nat.le_of_lt h) heq.symm

end Word

/-! ### Links to slots -/

/-- A store that is not full takes another record, in the slot after its last one. -/
theorem Store.exists_add {s : Store} {i : Slot} (hsize : s.size = i) (h : i < maxSlots)
    (key : Key) : ∃ s', s.add key = .ok (i, s') := by
  subst hsize
  exact ⟨_, dif_pos h⟩

/-- **The slots that a store hands out** are all that links can name. -/
theorem Store.exists_add_iff {i : Slot} :
    (∃ (s : Store) (key : Key) (s' : Store), s.add key = .ok (i, s')) ↔ i < maxSlots := by
  constructor
  · rintro ⟨s, key, s', hadd⟩
    rw [(add_eq_ok hadd).1]
    exact lt_maxSlots_of_add hadd
  · intro h
    have hsize : (Array.replicate i (default : Entry)).size = i := Array.size_replicate
    let s : Store := ⟨.replicate i default, hsize.trans_le (Nat.le_of_lt h)⟩
    exact ⟨s, #[], exists_add (show s.size = i from hsize) h #[]⟩

/-- A child link to a slot is made, and leads there. -/
theorem ChildLink.exists_ofChild {i : Slot} (h : i < maxSlots) (role : Role) :
    ∃ link, ofChild (.of role i) = .ok link ∧ link.follow = .ok (.of role i) ∧
      link.word.Names i role.bit := by
  have hslot : (Child.of role i).slot < maxSlots := by rwa [Child.slot_of]
  refine ⟨of role i h, ?_, ?_, Word.names_pack h role.bit⟩
  · rw [ofChild, dif_pos hslot]
    simp only [Child.role_of, Child.slot_of]
  · rw [follow, child?_of]

/-- A parent link to a side of a slot is made, and names it. -/
theorem ParentLink.exists_ofPlace {i : Slot} (h : i < maxSlots) (side : Side) :
    ∃ link, ofPlace (.under i side) = .ok link ∧ link.follow = .ok (.under i side) ∧
      link.word.Names i side.bit := by
  refine ⟨of i side h, ?_, ?_, Word.names_pack h side.bit⟩
  · rw [ofPlace, dif_pos h]
  · rw [follow, place?_of]

/-- **Links lose nothing.**  The slots that a store can hand out are those up to 2147483645.  For
each of them a link of either kind can be made, leads where it was made to lead, and has a word of
its own, which is neither null nor that of the root; and the link to the root leads to the root, on
the left, and is not null. -/
theorem links_lossless (i : Slot) :
    ((∃ (s : Store) (key : Key) (s' : Store), s.add key = .ok (i, s')) ↔ i ≤ 2147483645) ∧
    (i ≤ 2147483645 →
      (∀ role, ∃ link, ChildLink.ofChild (.of role i) = .ok link ∧
        link.follow = .ok (.of role i) ∧ link.word.Names i role.bit) ∧
      ∀ side, ∃ link, ParentLink.ofPlace (.under i side) = .ok link ∧
        link.follow = .ok (.under i side) ∧ link.word.Names i side.bit) ∧
    ParentLink.ofPlace .root = .ok .root ∧ ParentLink.root.follow = .ok .root ∧
      Side.ofBit ParentLink.root.word.mark = .left ∧ ParentLink.root ≠ .null := by
  have hlast : i < maxSlots ↔ i ≤ 2147483645 := Nat.lt_succ_iff
  refine ⟨Store.exists_add_iff.trans hlast, fun hi => ?_, rfl, ?_, ?_, ?_⟩
  · have h := hlast.mpr hi
    exact ⟨ChildLink.exists_ofChild h, ParentLink.exists_ofPlace h⟩
  · rw [ParentLink.follow, ParentLink.place?_root]
  · decide
  · decide

/-- The last slot stands next to the root, and is not taken for it. -/
theorem links_lossless_last :
    (∃ link, ParentLink.ofPlace (.under 2147483645 .right) = .ok link ∧
      link.follow = .ok (.under 2147483645 .right) ∧ link.word = 4294967291) ∧
    ParentLink.root.word = 4294967292 ∧ Word.null = 4294967295 := by
  obtain ⟨-, hnames, -⟩ := links_lossless 2147483645
  obtain ⟨link, hlink, hfollow, hword⟩ := (hnames (by decide)).2 .right
  refine ⟨⟨link, hlink, hfollow, ?_⟩, by decide, by decide⟩
  rw [hword.packed]
  decide

end BitTrie
