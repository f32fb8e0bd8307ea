import BitTrie.Lookup
import BitTrie.Proofs.Inspections
import BitTrie.Proofs.MachineWords

/-!
# Lookups and audits in machine words

A lookup shifts the byte that holds a decision down to the bit that decides, and counts the bytes
before it one by one.  An audit scans keys up to the bits of branches, and counts entries and turns.
With every operation on words checked, neither overflows, whatever the store looks like.

## Main definitions

* `Approach`, `Key.approach` — the loop over the bytes before a decision, and how it ends.
* `Key.turnWord` — the decision.
* `Store.findWordsFrom`, `Plot.findWords` — the lookup.
* `Store.inspectTurnWords`, `Plot.inspectWords`, `Plot.auditWords` — the audit.

## Main results

* `Key.approach_eq` — the loop ends where the comparison of whole ranges says.
* `Key.turnWord_eq` — the decision is on the bit of the branch.
* `Store.findWordsFrom_eq`, `Plot.findWords_eq` — **a lookup** does not overflow.
* `Plot.inspectWords_eq`, `Plot.auditWordsFrom_eq`, `Plot.auditWords_eq` — **an audit** does not.
-/

namespace BitTrie

open Checked

/-! ### Looking up -/

/-- How the comparison of the bytes before a decision ends. -/
inductive Approach where
  /-- A byte differs. -/
  | differs
  /-- All bytes that are asked for are the same. -/
  | covered
  /-- The bytes before `pos` are the same, and a decision is made on that byte. -/
  | arrived (pos : Nat)
  deriving DecidableEq, Repr, Inhabited

section

variable {m : Type → Type} [Monad m]

/-- The comparison of the bytes from `pos` on that come before `byte`, of `len` bytes in all. -/
def Key.approach (stored query : Key) (len byte pos : Nat) : Checked m Approach :=
  if pos < byte then
    if stored.byteAt pos ≠ query.byteAt pos then pure .differs
    else if pos + 1 < positions then
      if pos + 1 = len then pure .covered else approach stored query len byte (pos + 1)
    else throw .sum
  else pure (.arrived pos)
termination_by byte - pos

/-- The loop, with its checked count. -/
theorem Key.approach_unfold [LawfulMonad m] (stored query : Key) (len byte pos : Nat) :
    (stored.approach query len byte pos : Checked m Approach) =
      if pos < byte then
        if stored.byteAt pos ≠ query.byteAt pos then pure .differs
        else count pos >>= fun pos =>
          if pos = len then pure .covered else stored.approach query len byte pos
      else pure (.arrived pos) := by
  rw [approach.eq_def]
  split
  · split
    · rfl
    · unfold count within
      split
      · rw [pure_bind]
      · rw [ExceptT.bind_throw]
  · rfl

/-- The side that a query takes at a decision on `bit`, which is one of byte `pos`; or `none` if a
key below differs from it in that byte before the bit. -/
def Key.turnWord (stored query : Key) (pos : Nat) (bit : UInt32) : Checked m (Option Side) := do
  let shift ← sub 7 (bit &&& 7)
  let side ← shiftByte (query.byteAt pos) shift
  let other ← shiftByte (stored.byteAt pos) shift
  return if 1 < other ^^^ side then none else some (.ofBit (side &&& 1 == 1))

/-- At most `fuel` links down from `link`, as `Store.findFrom` has it, with positions in words. -/
def Store.findWordsFrom (s : Store) (query : Key) (len : Nat) : (fuel : Nat) → ChildLink →
    (pos : Nat) → Checked Outcome (Option Slot)
  | 0, _, _ => throwThe Fault .endless
  | fuel + 1, link, pos => do
    let child ← link.follow
    let stored ← s.key child.slot
    match child with
    | .leaf i => return if stored.agreeOn query pos len then some i else none
    | .branch i =>
      let n ← s.node i
      if n.overEqualKeys then
        let oldest ← s.outermost .left link
        return if (← s.key oldest).agreeOn query pos len then some oldest else none
      else
        let bit ← toPosition n.bit
        match ← stored.approach query len (bit >>> 3).toNat pos with
        | .differs => return none
        | .covered => return some (← s.outermost .left n.left)
        | .arrived pos =>
          match ← stored.turnWord query pos bit with
          | none => return none
          | some side => findWordsFrom s query len fuel (n.child side) pos

/-- The leftmost entry with the first `len` bytes of the query, with positions in words. -/
def Plot.findWords (p : Plot) (query : Key) (len : Nat) : Checked Outcome (Option Slot) :=
  if p.tree.isEmpty then pure none
  else if len = 0 then some <$> p.store.outermost .left p.tree.top
  else p.store.findWordsFrom query len ((p.store.size + 1) * (p.store.size + 1)) p.tree.top 0

variable [LawfulMonad m]

/-- The loop over bytes ends in one of three ways, and counts no further than the decision. -/
theorem Key.approach_eq (stored query : Key) {len byte pos : Nat} (hbyte : byte < positions)
    (hpos : pos < len) : (stored.approach query len byte pos : Checked m Approach) =
      pure (if !stored.agreeOn query pos (min byte len) then .differs
        else if len ≤ byte then .covered else .arrived (max pos byte)) := by
  induction hleft : byte - pos using Nat.strongRecOn generalizing pos with
  | ind left ih =>
    rw [approach_unfold]
    by_cases hlt : pos < byte
    · by_cases hsame : stored.byteAt pos = query.byteAt pos
      · have hcount : (count pos : Checked m Nat) = pure (pos + 1) := within_eq (by omega) _ _
        have hagree : stored.agreeOn query pos (min byte len) =
            stored.agreeOn query (pos + 1) (min byte len) := by
          rw [Bool.eq_iff_iff, agreeOn_iff, agreeOn_iff]
          refine ⟨fun h i hi => h i (by omega), fun h i hi hstop => ?_⟩
          rcases Nat.lt_or_eq_of_le hi with hi | rfl
          · exact h i hi hstop
          · exact hsame
        rw [if_pos hlt, if_neg (not_not_intro hsame), hcount, pure_bind, hagree]
        by_cases hlast : pos + 1 = len
        · have hempty : stored.agreeOn query (pos + 1) (min byte len) = true :=
            agreeOn_iff.mpr fun i hi hstop => by omega
          rw [if_pos hlast, hempty, if_neg (by decide), if_pos (by omega)]
        · rw [if_neg hlast, ih (byte - (pos + 1)) (by omega) (by omega) rfl,
            show max (pos + 1) byte = max pos byte by omega]
      · have hagree : stored.agreeOn query pos (min byte len) = false := by
          rw [Bool.eq_false_iff]
          exact fun h => hsame (agreeOn_iff.mp h pos (Nat.le_refl _) (by omega))
        rw [if_pos hlt, if_pos hsame, hagree]
        rfl
    · have hempty : stored.agreeOn query pos (min byte len) = true :=
        agreeOn_iff.mpr fun i hi hstop => by omega
      rw [if_neg hlt, hempty, if_neg (by decide), if_neg (by omega),
        show max pos byte = pos by omega]

/-- Two numbers differ in more than their lowest bits when what is above those differs. -/
theorem one_lt_xor_iff (x y : Nat) : 1 < x ^^^ y ↔ x >>> 1 ≠ y >>> 1 := by
  rw [ne_eq, ← Nat.xor_eq_zero_iff, ← Nat.shiftRight_xor_distrib, Nat.shiftRight_eq_div_pow]
  omega

/-- In the byte of a decision on the bit `n`, shifted down to that bit, a key and a query are the
same before it when no more than the lowest bit differs. -/
theorem Key.one_lt_shift_iff {stored query : Key} {pos n : Nat} {x y : UInt8} (hn : n < 8)
    (hx : x.toNat = (stored.byteAt pos).toNat >>> (7 - n))
    (hy : y.toNat = (query.byteAt pos).toNat >>> (7 - n)) :
    1 < x ^^^ y ↔ (!stored.agreeBefore query pos n) = true := by
  rw [UInt8.lt_iff_toNat_lt, UInt8.toNat_xor, show (1 : UInt8).toNat = 1 from rfl, one_lt_xor_iff,
    hx, hy, ← Nat.shiftRight_add, ← Nat.shiftRight_add, show 7 - n + 1 = 8 - n by omega,
    agreeBefore, Bool.not_eq_true', beq_eq_false_iff_ne]

/-- The byte of a decision is shifted down to the bit that decides. -/
theorem Key.turnWord_eq (stored query : Key) (pos : Nat) (bit : UInt32) :
    (stored.turnWord query pos bit : Checked m (Option Side)) =
      pure (if !stored.agreeBefore query pos (bit.toNat % 8) then none
        else some (.ofBit (query.bitAt (8 * pos + bit.toNat % 8)))) := by
  have hlt : bit.toNat % 8 < 8 := Nat.mod_lt _ (by decide)
  obtain ⟨hsub, hshift⟩ := sub_and_seven (m := m) bit
  have hfits : (7 - (bit &&& 7)).toNat < 8 := by omega
  obtain ⟨hside, hx⟩ := shiftByte_eq (m := m) hfits (query.byteAt pos)
  obtain ⟨hother, hy⟩ := shiftByte_eq (m := m) hfits (stored.byteAt pos)
  rw [hshift] at hx hy
  rw [turnWord, hsub, pure_bind, hside, pure_bind, hother, pure_bind]
  simp only [one_lt_shift_iff hlt hy hx]
  rw [and_one_beq, hx, Nat.testBit_shiftRight, Nat.add_zero,
    ← bitAt_eq_byteAt_testBit query pos hlt]

/-- **The way down of a lookup** does not overflow, in any store. -/
theorem Store.findWordsFrom_eq (s : Store) (query : Key) {len : Nat} (fuel : Nat) (link : ChildLink)
    {pos : Nat} (hpos : pos < len) :
    s.findWordsFrom query len fuel link pos = liftM (s.findFrom query len fuel link pos) := by
  induction fuel generalizing link pos with
  | zero => rfl
  | succ fuel ih =>
    rw [findWordsFrom, findFrom, liftM_bind]
    refine bind_congr fun child => ?_
    rw [liftM_bind]
    refine bind_congr fun stored => ?_
    cases child with
    | leaf i => rfl
    | branch i =>
      dsimp only
      rw [liftM_bind]
      refine bind_congr fun n => ?_
      cases hover : n.overEqualKeys with
      | true =>
        rw [if_pos rfl, if_pos rfl, liftM_bind]
        refine bind_congr fun oldest => ?_
        rw [liftM_bind]
        exact bind_congr fun key => rfl
      | false =>
        have hnonneg : 0 ≤ n.bit.toInt := Int.not_lt.mp (of_decide_eq_false hover)
        obtain ⟨hposition, hnat⟩ := toPosition_eq (m := Outcome) hnonneg
        have hbyte : (n.bit.toUInt32 >>> 3).toNat = n.bit.toInt.toNat / 8 := by
          rw [Key.toNat_shiftRight_three, hnat]
        have hlt : n.bit.toInt.toNat / 8 < Key.positions := by
          have := n.bit.toUInt32.toNat_lt
          unfold Key.positions
          omega
        simp only [Bool.false_eq_true, if_false]
        rw [hposition, pure_bind, hbyte, Key.approach_eq stored query hlt hpos, pure_bind]
        cases hagree : stored.agreeOn query pos (min (n.bit.toInt.toNat / 8) len) with
        | false => rfl
        | true =>
          simp only [Bool.not_true, Bool.false_eq_true, if_false]
          by_cases hlen : len ≤ n.bit.toInt.toNat / 8
          · rw [if_pos hlen, if_pos hlen, liftM_bind]
            rfl
          · rw [if_neg hlen, if_neg hlen]
            dsimp only
            rw [Key.turnWord_eq, pure_bind, hnat]
            cases hbefore : stored.agreeBefore query (max pos (n.bit.toInt.toNat / 8))
              (n.bit.toInt.toNat % 8) with
            | false => rfl
            | true =>
              simp only [Bool.not_true, Bool.false_eq_true, if_false]
              exact ih _ (by omega)

end

/-- **A lookup does not overflow.** -/
theorem Plot.findWords_eq (p : Plot) (query : Key) (len : Nat) :
    p.findWords query len = liftM (p.find query len) := by
  unfold findWords find
  split
  · rfl
  · split
    · exact (liftM_map _ _).symm
    · next hlen => exact p.store.findWordsFrom_eq query _ _ (Nat.pos_of_ne_zero hlen)

/-! ### Auditing -/

/-- Whether a key belongs where a turn leads, with positions in words. -/
def Store.inspectTurnWords (s : Store) (leaf : Slot) (key : Key) (t : Turn) :
    Checked Inspection Unit := do
  if 0 ≤ t.bit.toInt then
    let branchKey ← s.key t.branch
    let bit ← toPosition t.bit
    if (← key.boundedScan branchKey 0 bit) < bit then
      throwThe Flaw (.misplaced leaf t.branch t.bit)
    if (← key.bitWord bit) ≠ t.side.bit then
      throwThe Flaw (.wrongSide leaf t.branch t.bit t.side)

/-- The questions asked of an entry. -/
def Store.inspectEntryWords (s : Store) (i : Slot) (n : Node) (v : Visit) (survey : Survey) :
    Checked Inspection (List Visit × Survey) := do
  if n.leafUp.place? ≠ some v.place then throwThe Flaw (.leafElsewhere i v.place)
  if survey.leaves.getD i false then throwThe Flaw (.revisited i)
  let turns := v.turns.reverse
  let key ← s.decisiveKey i turns
  turns.forM (s.inspectTurnWords i key)
  let entries ← count survey.entries
  return ([], { survey with leaves := survey.leaves.setIfInBounds i true, entries := entries })

/-- Look at one place.  The places below a branch are one turn deeper. -/
def Plot.inspectWords (p : Plot) (v : Visit) (survey : Survey) :
    Checked Inspection (List Visit × Survey) := do
  let child ← v.link.follow
  if p.store.size ≤ child.slot then throwThe Flaw (.dangling child.slot)
  let n ← p.store.node child.slot
  match child with
  | .leaf i => p.store.inspectEntryWords i n v survey
  | .branch i =>
    let below ← p.inspectBranch i n v survey
    let _ ← count v.turns.length
    return below

/-- At most `fuel` visits. -/
def Plot.auditWordsFrom (p : Plot) : (fuel : Nat) → List Visit → Survey → Checked Inspection Nat
  | _, [], survey => return survey.entries
  | 0, _ :: _, _ => throwThe Fault .endless
  | fuel + 1, v :: rest, survey => do
    let (below, survey) ← p.inspectWords v survey
    auditWordsFrom p fuel (below ++ rest) survey

/-- The first flaw of a tree, or the number of its entries. -/
def Plot.auditWords (p : Plot) : Checked Inspection Nat :=
  if p.tree.isEmpty then pure 0
  else
    let unseen := Array.replicate p.store.size false
    p.auditWordsFrom (2 * p.store.size + 1) [⟨p.tree.top, []⟩] ⟨unseen, unseen, 0⟩

theorem Store.inspectTurnWords_eq (s : Store) (leaf : Slot) (key : Key) (t : Turn) :
    s.inspectTurnWords leaf key t = liftM (s.inspectTurn leaf key t) := by
  unfold inspectTurnWords inspectTurn
  split
  · next hnonneg =>
    obtain ⟨hposition, hnat⟩ := toPosition_eq (m := Inspection) hnonneg
    have hlt : t.bit.toInt.toNat ≤ 2147483648 := by
      have := t.bit.toInt_lt
      omega
    rw [liftM_bind]
    refine bind_congr fun branchKey => ?_
    have hzero : (0 : UInt32).toNat ≤ 2147483648 := Nat.zero_le _
    have hstop : t.bit.toUInt32.toNat ≤ 2147483648 := hnat.trans_le hlt
    obtain ⟨d, hscan, hd, -⟩ := Key.boundedScan_eq (m := Inspection) key branchKey hzero hstop
    have hdone : key.scanDiff branchKey 0 t.bit.toInt.toNat = pure d.toNat := by
      rw [hd, hnat]
      exact Key.scanDiff_eq_ok (Nat.zero_le _) hlt
    rw [hposition, pure_bind, hscan, pure_bind, Key.bitWord_eq, pure_bind, hdone, liftM_pure,
      pure_bind, hnat]
    simp only [UInt32.lt_iff_toNat_lt, hnat]
    split
    · rfl
    · split <;> rfl
  · rfl

theorem Store.forM_inspectTurnWords (s : Store) (leaf : Slot) (key : Key) (turns : List Turn) :
    turns.forM (s.inspectTurnWords leaf key) = liftM (turns.forM (s.inspectTurn leaf key)) := by
  induction turns with
  | nil => rfl
  | cons t turns ih =>
    show s.inspectTurnWords leaf key t >>= (fun _ => turns.forM (s.inspectTurnWords leaf key)) =
      liftM (s.inspectTurn leaf key t >>= fun _ => turns.forM (s.inspectTurn leaf key))
    rw [liftM_bind, inspectTurnWords_eq, ih]

theorem Store.inspectEntryWords_eq (s : Store) (i : Slot) (n : Node) (v : Visit) {survey : Survey}
    (h : survey.entries + 1 < Key.positions) :
    s.inspectEntryWords i n v survey = liftM (s.inspectEntry i n v survey) := by
  have hcount : (count survey.entries : Checked Inspection Nat) = pure (survey.entries + 1) :=
    within_eq h _ _
  unfold inspectEntryWords inspectEntry
  simp only [hcount, forM_inspectTurnWords, pure_bind]
  split
  · rfl
  · split
    · rfl
    · rw [liftM_bind]
      refine bind_congr fun key => ?_
      rw [liftM_bind]
      rfl

theorem Plot.inspectWords_eq (p : Plot) {v : Visit} {survey : Survey}
    (hentries : survey.entries + 1 < Key.positions) (hturns : v.turns.length + 1 < Key.positions) :
    p.inspectWords v survey = liftM (p.inspect v survey) := by
  have hcount : (count v.turns.length : Checked Inspection Nat) = pure (v.turns.length + 1) :=
    within_eq hturns _ _
  unfold inspectWords inspect
  rw [liftM_bind]
  refine bind_congr fun child => ?_
  dsimp only
  split
  · rfl
  · rw [liftM_bind]
    refine bind_congr fun n => ?_
    cases child with
    | leaf i => exact p.store.inspectEntryWords_eq i n v hentries
    | branch i =>
      dsimp only
      rw [hcount]
      simp only [pure_bind, bind_pure]

/-- **An audit** does not overflow that has not too many visits to make. -/
theorem Plot.auditWordsFrom_eq (p : Plot) {fuel : Nat} {pending : List Visit} {survey : Survey}
    (hentries : survey.entries + fuel < Key.positions)
    (hturns : ∀ v ∈ pending, v.turns.length + fuel < Key.positions) :
    p.auditWordsFrom fuel pending survey = liftM (p.auditFrom fuel pending survey) := by
  induction fuel generalizing pending survey with
  | zero => cases pending <;> rfl
  | succ fuel ih =>
    cases pending with
    | nil => rfl
    | cons v rest =>
      obtain ⟨hv, hrest⟩ := List.forall_mem_cons.mp hturns
      rw [auditWordsFrom, auditFrom, inspectWords_eq p (by omega) (by omega), liftM_bind]
      have hends := p.inspect_ends v survey
      match p.inspect v survey, hends with
      | .error fault, _ => rfl
      | .ok (.error flaw), _ => rfl
      | .ok (.ok (below, after)), hends =>
        have hadvances : p.Advances v survey (below, after) := hends.answer rfl
        refine ih ?_ ?_
        · cases hadvances with
          | entry => simp only [Survey.after]; omega
          | branch => dsimp only; omega
        · have hkept : ∀ w ∈ rest, w.turns.length + fuel < Key.positions := fun w hw => by
            have := hrest w hw
            omega
          cases hadvances with
          | entry => exact hkept
          | branch =>
            refine List.forall_mem_append.mpr ⟨?_, hkept⟩
            simp only [List.forall_mem_cons, List.length_cons]
            exact ⟨by omega, by omega, fun w hw => absurd hw List.not_mem_nil⟩

/-- **An audit does not overflow.**  A store has too few slots for more visits than a word can
count. -/
theorem Plot.auditWords_eq (p : Plot) :
    p.auditWords = liftM (ExceptT.mk p.audit : Inspection Nat) := by
  have hsize : p.store.size ≤ maxSlots := p.store.size_le
  unfold maxSlots at hsize
  unfold auditWords audit
  split
  · rfl
  · refine p.auditWordsFrom_eq ?_ (List.forall_mem_singleton.mpr ?_)
    · show 0 + (2 * p.store.size + 1) < 4294967296
      omega
    · show 0 + (2 * p.store.size + 1) < 4294967296
      omega

end BitTrie
