import BitTrie.Proofs.History

/-!
# Insertion without a memory

The way down of an insertion remembers how far the comparison has come.  It does not look again at
bits that were compared further up, and passes a branch without a look at its key when the
comparison has gone past the branch's bit before.  That is a matter of cost only.  A way down that
forgets, and compares with every key it meets from the first bit on, ends in the same place.

## Main definitions

* `Store.landAfreshFrom`, `Plot.landingAfresh` — the way down that compares afresh.
* `Edit.insertBy`, `Edit.insertAfresh` — an insertion by any way down, and by this one.

## Main results

* `Key.min_firstDiff_eq` — a scan from the first bit ends where one does that starts later.
* `Reached.min_firstDiff_own` — at a branch, what is remembered is what a new comparison finds.
* `Store.landAfreshFrom_eq` — **the two ways down end in the same place**.
* `Edit.insertAfresh_eq` — the two insertions into a sound tree are the same.
* `Forest.calls_insert_afresh` — **the same after any run**.
-/

namespace BitTrie

/-! ### Comparing afresh -/

/-- At most `fuel` links down from `link`, which hangs in `place`, for a key of `bits` bits.  Every
comparison starts at the first bit, and none is left out. -/
def Store.landAfreshFrom (s : Store) (unique : Bool) (key : Key) (bits : Nat) : (fuel : Nat) →
    Place → ChildLink → Outcome Landing
  | 0, _, _ => .error .endless
  | fuel + 1, place, link => do
    let child ← link.follow
    let resident ← s.key child.slot
    match child with
    | .leaf old =>
      let bit ← key.scanDiff resident 0 bits
      if bit < bits then return .apart key place child bit
      else if unique then return .present old
      else return .splice place child .right (-1)
    | .branch old =>
      let n ← s.node old
      if n.overEqualKeys then
        let oldest ← s.key (← s.outermost .left link)
        let bit ← key.scanDiff oldest 0 bits
        if bit < bits then return .apart key place child bit
        else if unique then throw .duplicatesInUnique
        else return .append old
      let limit := min n.bit.toInt.toNat bits
      let bit ← key.scanDiff resident 0 limit
      if bit < limit then return .apart key place child bit
      let side := Side.ofBit (key.bitAt n.bit.toInt.toNat)
      landAfreshFrom s unique key bits fuel (.under old side) (n.child side)

/-- Where a new entry belongs, as `Plot.landing` has it, by comparing afresh. -/
def Plot.landingAfresh (p : Plot) (key : Key) (bits : Nat) : Outcome Landing :=
  p.store.landAfreshFrom p.tree.unique key bits (p.store.size + 1) .root p.tree.top

/-- Insert a record as `Edit.insert` does, with any way down. -/
def Edit.insertBy (landing : Plot → Key → Nat → Outcome Landing) (new : Slot) (len : Nat) :
    Edit Slot := do
  if ← ask (·.store.isResident new) then throw (.alreadyResident new)
  let bits ← ofOutcome (Key.bitLength len)
  if ← ask (fun p => .ok p.tree.isEmpty) then plant new
  else
    let key ← ask (·.store.key new)
    settle new (← ask fun p => landing p (key.truncate len) bits)

theorem Edit.insertBy_landing (new len : Nat) : insertBy Plot.landing new len = insert new len :=
  rfl

/-- Insert a record by comparing afresh. -/
def Edit.insertAfresh (new : Slot) (len : Nat) : Edit Slot := insertBy Plot.landingAfresh new len

/-! ### Scans -/

/-- A scan from the first bit ends at a bit up to which the keys are known to agree, if they differ
there or no more bits are asked for. -/
theorem Key.min_firstDiff_eq {a b : Key} {d stop : Nat} (hsame : SameBits a b d)
    (hdiff : d < stop → a.bitAt d ≠ b.bitAt d) : min (firstDiff a b 0 stop) stop = min d stop := by
  rcases Nat.lt_or_ge d stop with hlt | hge
  · rw [firstDiff_eq hlt hsame (hdiff hlt)]
  · rw [Nat.min_eq_right hge, Nat.min_eq_right (le_firstDiff (hsame.mono hge))]

section

variable {key : Slot → Key} {k : Key} {bits pos : Nat} {path : Path}

/-- At equal entries, the comparison that goes on ends where a new one does. -/
theorem Reached.min_firstDiff_oldest {c : Shape} {n : Nat} (h : Reached key k bits path c pos)
    (hc : c.Tied n) : min (k.firstDiff (key c.oldest) 0 bits) bits =
      min (k.firstDiff (key c.oldest) pos bits) bits :=
  Key.min_firstDiff_eq (Key.sameBits_firstDiff (h.sameBits_oldest hc) bits)
    Key.bitAt_ne_of_firstDiff_lt

/-- At a branch on a bit, the comparison that goes on, or is left out, ends where a new one
does. -/
theorem Reached.min_firstDiff_own {i : Slot} {b : Int} {l r : Shape}
    (h : Reached key k bits path (.branch i b l r) pos)
    (hbranch : (Shape.branch i b l r).Sorted key) (hb : 0 ≤ b) :
    min (k.firstDiff (key i) 0 (min b.toNat bits)) (min b.toNat bits) =
      min (k.reach (key i) pos (min b.toNat bits)) (min b.toNat bits) := by
  rcases Nat.lt_or_ge pos (min b.toNat bits) with hlt | hge
  · exact Key.min_firstDiff_eq (Key.sameBits_reach (h.sameBits_own hbranch hb hlt) _)
      Key.bitAt_ne_of_reach_lt
  -- the record that was compared further up is still below, and so vouches for this branch
  · obtain ⟨x, hx, hknown⟩ := h.known
    have hown := hbranch.parted.sameBits hb x hx
    have hsame : k.SameBits (key i) (min b.toNat bits) :=
      (hknown.mono hge).trans (hown.mono (Nat.min_le_left _ _))
    rw [Key.reach, if_neg (Nat.not_lt.mpr hge), Nat.min_eq_right hge,
      Nat.min_eq_right (Key.le_firstDiff hsame)]

end

/-- What is done below a bound and past it depends on the smaller of the two only. -/
theorem ite_lt_congr {α : Type} {d e n : Nat} {late late' : α} (h : min d n = min e n)
    (early : Nat → α) (hlate : n ≤ e → late = late') :
    (if d < n then early d else late) = if e < n then early e else late' := by
  rcases Nat.lt_or_ge e n with hlt | hge
  · obtain rfl : d = e := by omega
    rw [if_pos hlt, if_pos hlt]
  · rw [if_neg (by omega), if_neg (by omega), hlate hge]

/-! ### The way down -/

namespace Store

variable {s : Store} {k : Key} {bits pos fuel i : Nat} {unique : Bool} {place : Place}
  {link : ChildLink}

/-- At a leaf the two ways down do the same, when nothing is remembered. -/
theorem landAfreshFrom_of_leaf (hlink : link.child? = some (.leaf i)) :
    s.landAfreshFrom unique k bits (fuel + 1) place link =
      s.landFrom unique k bits (fuel + 1) place link 0 := by
  rw [landAfreshFrom, landFrom, follow_eq_ok hlink]
  rfl

/-- And at a branch over equal keys. -/
theorem landAfreshFrom_of_neg (hlink : link.child? = some (.branch i)) (hi : i < s.size)
    (hneg : s.levelAt i < 0) : s.landAfreshFrom unique k bits (fuel + 1) place link =
      s.landFrom unique k bits (fuel + 1) place link 0 := by
  have hover : (s.nodeAt i).overEqualKeys = true := decide_eq_true hneg
  rw [landAfreshFrom, landFrom, follow_eq_ok hlink]
  simp only [bind, Except.bind, Child.slot_branch, node_eq_ok hi, hover, if_true]
  rfl

/-- At a branch on a bit the comparison is made, whatever has been compared before. -/
theorem landAfreshFrom_of_nonneg (hlink : link.child? = some (.branch i)) (hi : i < s.size)
    (hnonneg : 0 ≤ s.levelAt i) (hbits : bits ≤ 2147483648) :
    s.landAfreshFrom unique k bits (fuel + 1) place link =
      if k.firstDiff (s.keyAt i) 0 (min (s.levelAt i).toNat bits) <
          min (s.levelAt i).toNat bits then
        .ok (.apart k place (.branch i)
          (k.firstDiff (s.keyAt i) 0 (min (s.levelAt i).toNat bits)))
      else s.landAfreshFrom unique k bits fuel (.under i (.ofBit (k.bitAt (s.levelAt i).toNat)))
        ((s.nodeAt i).child (.ofBit (k.bitAt (s.levelAt i).toNat))) := by
  have hover : ¬ (s.nodeAt i).overEqualKeys = true :=
    fun h => absurd (of_decide_eq_true h) (Int.not_lt.mpr hnonneg)
  have hmin : min (s.levelAt i).toNat bits ≤ 2147483648 :=
    Nat.le_trans (Nat.min_le_right _ _) hbits
  rw [landAfreshFrom, follow_eq_ok hlink]
  simp only [bind, Except.bind, Child.slot_branch, key_eq_ok hi, node_eq_ok hi, hover,
    Bool.false_eq_true, if_false]
  rw [levelAt] at *
  rw [Key.scanDiff_eq_ok (Nat.zero_le _) hmin]
  rfl

/-- **The two ways down end in the same place**, and with the same bit. -/
theorem landAfreshFrom_eq {len : Nat} {path : Path} {t : Shape} (hlen : len ≤ maxKeyLength)
    (hreached : Reached s.keyAt k (8 * len) path t pos) (hsorted : t.Sorted s.keyAt)
    (hhangs : s.Hangs place t) (hnodup : t.branches.Nodup) (hlink : link.child? = some t.root) :
    s.landAfreshFrom unique k (8 * len) fuel place link =
      s.landFrom unique k (8 * len) fuel place link pos := by
  have hbits : 8 * len ≤ 2147483648 := by
    unfold maxKeyLength at hlen
    omega
  have hlength : ∀ {path t pos}, Reached s.keyAt k (8 * len) path t pos → pos ≤ 2147483648 :=
    fun h => Nat.le_trans h.pos_le hbits
  induction t generalizing path pos place link fuel with
  | leaf i =>
    cases fuel with
    | zero => rfl
    | succ fuel =>
      have hi : i < s.size := lt_size_of_up hhangs
      rw [landAfreshFrom_of_leaf hlink, landFrom_of_leaf hlink hi (Nat.zero_le _) hbits,
        landFrom_of_leaf hlink hi (hlength hreached) hbits]
      exact ite_lt_congr (hreached.min_firstDiff_oldest (.leaf i))
        (fun d => (.ok (.apart k place (.leaf i) d) : Outcome Landing)) fun _ => rfl
  | branch i b l r ihl ihr =>
    cases fuel with
    | zero => rfl
    | succ fuel =>
      have hi : i < s.size := lt_size_of_up hhangs.up_root
      have hb : s.levelAt i = b := hhangs.2.1
      rcases Int.lt_or_le b 0 with hneg | hnonneg
      · obtain ⟨n, htied⟩ := hsorted.tied_of_neg hneg
        have hneg' : s.levelAt i < 0 := hb ▸ hneg
        have ho := hhangs.lt_size.1 _ (Shape.oldest_mem_leaves _)
        have holdest := hhangs.outermost_left hnodup hlink
        rw [landAfreshFrom_of_neg hlink hi hneg',
          landFrom_of_neg hlink hi hneg' holdest ho (Nat.zero_le _) hbits,
          landFrom_of_neg hlink hi hneg' holdest ho (hlength hreached) hbits]
        exact ite_lt_congr (hreached.min_firstDiff_oldest htied)
          (fun d => (.ok (.apart k place (.branch i) d) : Outcome Landing)) fun _ => rfl
      · have hnonneg' : 0 ≤ s.levelAt i := hb ▸ hnonneg
        rw [landAfreshFrom_of_nonneg hlink hi hnonneg' hbits,
          landFrom_of_nonneg hlink hi hnonneg' (hlength hreached) hbits, hb]
        refine ite_lt_congr (hreached.min_firstDiff_own hsorted hnonneg)
          (fun d => (.ok (.apart k place (.branch i) d) : Outcome Landing)) fun hge => ?_
        -- past the branch both go on to the side of the key's bit
        obtain ⟨-, -, hl, hr⟩ := hsorted.of_nonneg hnonneg
        obtain ⟨-, -, hleft, hright, hhangsl, hhangsr⟩ := hhangs
        obtain ⟨hnodupl, hnodupr, -⟩ := List.nodup_append.mp (List.nodup_cons.mp hnodup).2
        cases hside : k.bitAt b.toNat with
        | false =>
          have hdown := Reached.turn (f := ⟨i, b, .left, r⟩) hreached hsorted hnonneg hside hge
          exact ihl hdown hl hhangsl hnodupl hleft
        | true =>
          have hdown := Reached.turn (f := ⟨i, b, .right, l⟩) hreached hsorted hnonneg hside hge
          exact ihr hdown hr hhangsr hnodupr hright

end Store

/-- The landing of a key in a sorted tree is the same by comparing afresh. -/
theorem Plot.Holds.landingAfresh_eq {p : Plot} {t : Shape} (hp : p.Holds t)
    (ht : t.Sound p.store.keyAt p.tree.unique) (k : Key) {len : Nat} (hlen : len ≤ maxKeyLength) :
    p.landingAfresh k (8 * len) = p.landing k (8 * len) :=
  Store.landAfreshFrom_eq hlen (.top p.store.keyAt k (8 * len) t) ht.sorted hp.2
    ht.distinct.branches hp.1

/-! ### The insertion -/

/-- Two edits that begin with questions of the same answer are the same if they are for it. -/
theorem Edit.ask_bind_congr {α β : Type} {read read' : Plot → Outcome α} {f g : α → Edit β}
    {p : Plot} (hread : read p = read' p) (h : ∀ a, read p = .ok a → f a p = g a p) :
    (ask read >>= f) p = (ask read' >>= g) p := by
  cases hanswer : read p with
  | error e =>
    rw [bind_of_error (ask_of_error hanswer), bind_of_error (ask_of_error (hread ▸ hanswer))]
  | ok a =>
    rw [bind_of_ok (ask_of_ok hanswer), bind_of_ok (ask_of_ok (hread ▸ hanswer)), h a hanswer]

/-- An insertion is the same by two ways down that have the same end. -/
theorem Edit.insertBy_congr {landing landing' : Plot → Key → Nat → Outcome Landing} {p : Plot}
    {len : Nat} (h : p.tree.isEmpty = false → len ≤ maxKeyLength →
      ∀ k, landing p k (8 * len) = landing' p k (8 * len)) (new : Slot) :
    insertBy landing new len p = insertBy landing' new len p := by
  rw [insertBy, insertBy]
  refine ask_bind_congr rfl fun resident _ => ?_
  cases resident with
  | true => rfl
  | false =>
    simp only [Bool.false_eq_true, if_false]
    refine ask_bind_congr rfl fun bits hbits => ask_bind_congr rfl fun isEmpty hempty => ?_
    cases isEmpty with
    | true => rfl
    | false =>
      simp only [Bool.false_eq_true, if_false]
      refine ask_bind_congr rfl fun key _ => ask_bind_congr ?_ fun _ _ => rfl
      unfold Key.bitLength at hbits
      split at hbits
      · next hlen =>
        obtain rfl := Except.ok.inj hbits
        exact h (Except.ok.inj hempty) hlen _
      · cases hbits

/-- **The two insertions are the same** in a sound tree. -/
theorem Edit.insertAfresh_eq {p : Plot} {o : Option Shape} (hp : p.Bears o) (new len : Nat) :
    insertAfresh new len p = insert new len p := by
  rw [insertAfresh, ← insertBy_landing]
  refine insertBy_congr (fun hempty hlen k => ?_) new
  cases o with
  | none =>
    have htop : p.tree.top = .null := hp
    rw [Tree.isEmpty, htop] at hempty
    cases hempty
  | some t => exact hp.1.landingAfresh_eq hp.2 k hlen

namespace Forest

/-- **Insertion needs no memory**, after any run.  An insertion that compares with every key on its
way, from the first bit on, has the outcome of one that does not, and leaves the same forest
behind: the same trees, and the same links in every slot.  For a record that is in no tree, and no
more bytes than a key can have, the outcome is an entry. -/
theorem calls_insert_afresh (uniques : List Bool) (cs : List Call) (t new len : Nat) :
    ((fresh uniques).calls cs).edit t (.insertAfresh new len) =
        ((fresh uniques).calls cs).call (.insert t new len) ∧
      ∀ p, ((fresh uniques).calls cs).plot t = .ok p → p.store.isResident new = .ok false →
        len ≤ maxKeyLength →
          ∃ r f', ((fresh uniques).calls cs).edit t (.insertAfresh new len) = (.ok r, f') := by
  obtain ⟨shapes, hf⟩ := stands_calls uniques cs
  have hsame : ((fresh uniques).calls cs).edit t (.insertAfresh new len) =
      ((fresh uniques).calls cs).call (.insert t new len) :=
    edit_congr fun tree ht => Edit.insertAfresh_eq (hf.bears t tree ht) new len
  refine ⟨hsame, fun p hp hfree hlen => ?_⟩
  obtain ⟨r, q, o, hinsert, -⟩ := Edit.insert_inserts hlen (hf.bears_plot hp) hfree
  rw [hsame]
  exact ⟨r, _, (edit_of_plot hp hinsert).1⟩

/-- The last of these records meets a branch on bit `1` that has its own key, and from there passes
a branch on bit `6` unseen, to join the record with its key. -/
theorem calls_insert_afresh_passing :
    let f := (fresh [false]).calls [.add #[32], .add #[97], .add #[98], .add #[97], .insert 0 0 1,
      .insert 0 1 1, .insert 0 2 1]
    f.store.levelAt 1 = 1 ∧ f.store.levelAt 2 = 6 ∧ ∃ r f',
      f.edit 0 (.insertAfresh 3 1) = (.ok r, f') ∧ f.call (.insert 0 3 1) = (.ok r, f') := by
  intro f
  have hp := plot_of_lt (t := 0) (f := f) (by decide +kernel)
  obtain ⟨hsame, hends⟩ := calls_insert_afresh [false] [.add #[32], .add #[97], .add #[98],
    .add #[97], .insert 0 0 1, .insert 0 1 1, .insert 0 2 1] 0 3 1
  obtain ⟨r, f', hedit⟩ := hends _ hp (by decide +kernel) (by decide)
  exact ⟨by decide +kernel, by decide +kernel, r, f', hedit, hsame ▸ hedit⟩

end Forest

end BitTrie
