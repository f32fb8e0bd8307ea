import BitTrie.Proofs.MachineWords
import BitTrie.Proofs.Rescanning

/-!
# Insertions in machine words

An insertion computes with positions and levels.  Here it does so in words, and every sum,
difference and conversion is checked.  On the way down nothing overflows, whatever the store looks
like.  Where an entry is added to equal ones, its level is one below that of another branch; in
words this agrees with numbers wherever the fault of an overflow is not met in numbers.

## Main definitions

* `Key.reachWord`, `Key.orderWord` — what the way down asks of two keys.
* `Store.landWordsFrom`, `Plot.landingWords` — the way down.
* `Edit.appendWords`, `Edit.insertWords` — adding an equal entry, and the insertion.
* `Edit.Agrees` — an edit does in words what another does in numbers.

## Main results

* `Landing.scan_eq` — where a comparison lands.
* `Store.landWordsFrom_eq` — **the way down** does not overflow.
* `Edit.Agrees.bind` — edits that agree step by step agree.
* `Edit.insertWords_agrees` — **the insertion** in words does what the one in numbers does.
-/

namespace BitTrie

open Checked

/-! ### The way down of an insertion -/

namespace Key

variable {m : Type → Type} [Monad m]

/-- How far a comparison has come that goes on from `pos` as long as it is before `limit`. -/
def reachWord (a b : Key) (pos limit : UInt32) : Checked m UInt32 :=
  if pos < limit then a.boundedScan b pos limit else pure pos

/-- The order of two keys that have been compared up to `pos`, over `bits` bits. -/
def orderWord (a b : Key) (pos bits : UInt32) : Checked m Ordering :=
  if pos < bits then a.compareWord b pos else pure .eq

end Key

/-- The landing of a key that stands in an order to those below `old`, which their bits at `pos`
decide; or `tied` if there is no difference. -/
def Landing.ofOrder (place : Place) (old : Child) (pos : UInt32) (tied : Checked Outcome Landing) :
    Ordering → Checked Outcome Landing
  | .lt => return .splice place old .left (← toBit pos)
  | .gt => return .splice place old .right (← toBit pos)
  | .eq => tied

/-- At most `fuel` links down from `link`, as `Store.landFrom` has it, with positions in words. -/
def Store.landWordsFrom (s : Store) (unique : Bool) (key : Key) (bits : UInt32) : (fuel : Nat) →
    Place → ChildLink → (bit : UInt32) → Checked Outcome Landing
  | 0, _, _, _ => throwThe Fault .endless
  | fuel + 1, place, link, bit => do
    let child ← link.follow
    let resident ← s.key child.slot
    match child with
    | .leaf old =>
      let bit ← key.boundedScan resident bit bits
      Landing.ofOrder place child bit
        (if unique then return .present old else return .splice place child .right (-1))
        (← key.orderWord resident bit bits)
    | .branch old =>
      let n ← s.node old
      let append : Checked Outcome Landing :=
        if unique then throwThe Fault .duplicatesInUnique else return .append old
      if n.overEqualKeys then
        let oldest ← s.key (← s.outermost .left link)
        let bit ← key.boundedScan oldest bit bits
        Landing.ofOrder place child bit append (← key.orderWord oldest bit bits)
      else
        let limit := min (← toPosition n.bit) bits
        let bit ← key.reachWord resident bit limit
        if bit < limit then
          Landing.ofOrder place child bit append (← key.orderWord resident bit bits)
        else
          let side := Side.ofBit (← key.bitWord (← toPosition n.bit))
          landWordsFrom s unique key bits fuel (.under old side) (n.child side) bit

/-- Where a new entry belongs, with positions in words. -/
def Plot.landingWords (p : Plot) (key : Key) (bits : UInt32) : Checked Outcome Landing :=
  p.store.landWordsFrom p.tree.unique key bits (p.store.size + 1) .root p.tree.top 0

section

variable {m : Type → Type} [Monad m] [LawfulMonad m]

theorem Key.reachWord_eq (a b : Key) {pos limit : UInt32} (hpos : pos.toNat ≤ 2147483648)
    (hlimit : limit.toNat ≤ 2147483648) : ∃ pos' : UInt32,
      (a.reachWord b pos limit : Checked m UInt32) = pure pos' ∧
      pos'.toNat = a.reach b pos.toNat limit.toNat ∧ pos'.toNat ≤ 2147483648 := by
  unfold reachWord reach
  by_cases hlt : pos < limit
  · rw [if_pos hlt, if_pos (UInt32.lt_iff_toNat_lt.mp hlt)]
    exact boundedScan_eq a b hpos hlimit
  · rw [if_neg hlt, if_neg (UInt32.lt_iff_toNat_lt.not.mp hlt)]
    exact ⟨pos, rfl, rfl, hpos⟩

/-- What is done after a comparison that may be left out. -/
theorem Key.reach_bind {α : Type} (a b : Key) {pos limit : Nat} (hpos : pos ≤ 2147483648)
    (hlimit : limit ≤ 2147483648) (f : Nat → Outcome α) :
    (if pos < limit then a.scanDiff b pos limit >>= f else pure pos >>= f) =
      f (a.reach b pos limit) := by
  unfold reach
  split
  · rw [scanDiff_eq_ok hpos hlimit]
    rfl
  · rfl

/-- Keys that are known to differ where they have been compared to, if that is before their end,
land apart there or are tied. -/
theorem Landing.ofOrder_eq {key met : Key} {place : Place} {old : Child} {pos bits : UInt32}
    {tied : Checked Outcome Landing} (hbits : bits.toNat ≤ 2147483648)
    (hdiff : pos < bits → key.bitAt pos.toNat ≠ met.bitAt pos.toNat) :
    (key.orderWord met pos bits >>= Landing.ofOrder place old pos tied) =
      if pos.toNat < bits.toNat then pure (.apart key place old pos.toNat) else tied := by
  unfold Key.orderWord
  by_cases hlt : pos < bits
  · have hlt' := UInt32.lt_iff_toNat_lt.mp hlt
    have hbit : (toBit pos : Checked Outcome Int32) = pure (Int32.ofNat pos.toNat) :=
      toBit_eq (by omega)
    have hne := hdiff hlt
    rw [if_pos hlt, if_pos hlt', Key.compareWord_eq, pure_bind, Key.compareAt, apart]
    cases hkey : key.bitAt pos.toNat <;> cases hmet : met.bitAt pos.toNat
    case false.true => simp only [ofOrder, hbit, pure_bind]; rfl
    case true.false => simp only [ofOrder, hbit, pure_bind]; rfl
    case false.false | true.true => exact absurd (hkey.trans hmet.symm) hne
  · rw [if_neg hlt, if_neg (UInt32.lt_iff_toNat_lt.not.mp hlt), pure_bind]
    rfl

end

/-- The same after a scan, which ends where the scan in numbers does. -/
theorem Landing.scan_eq {key met : Key} {place : Place} {old : Child} {pos bits : UInt32}
    {tied : Checked Outcome Landing} {tied' : Outcome Landing} (hpos : pos.toNat ≤ 2147483648)
    (hbits : bits.toNat ≤ 2147483648) (htied : tied = liftM tied') :
    (do
      let d ← key.boundedScan met pos bits
      ofOrder place old d tied (← key.orderWord met d bits)) =
    liftM (key.scanDiff met pos.toNat bits.toNat >>= fun d =>
      if d < bits.toNat then pure (apart key place old d) else tied') := by
  obtain ⟨d, hscan, hd, -⟩ := Key.boundedScan_eq (m := Outcome) key met hpos hbits
  have hdiff : d < bits → key.bitAt d.toNat ≠ met.bitAt d.toNat := by
    rw [UInt32.lt_iff_toNat_lt, hd]
    exact Key.bitAt_ne_of_firstDiff_lt
  have hdone : key.scanDiff met pos.toNat bits.toNat = pure d.toNat := by
    rw [hd]
    exact Key.scanDiff_eq_ok hpos hbits
  rw [hscan, pure_bind, ofOrder_eq hbits hdiff, hdone, pure_bind, htied]
  split <;> rfl

/-- **The way down of an insertion** does not overflow, in any store. -/
theorem Store.landWordsFrom_eq (s : Store) (unique : Bool) (key : Key) {bits : UInt32}
    (hbits : bits.toNat ≤ 2147483648) (fuel : Nat) (place : Place) (link : ChildLink) {bit : UInt32}
    (hbit : bit.toNat ≤ 2147483648) : s.landWordsFrom unique key bits fuel place link bit =
      liftM (s.landFrom unique key bits.toNat fuel place link bit.toNat) := by
  induction fuel generalizing place link bit with
  | zero => rfl
  | succ fuel ih =>
    rw [landWordsFrom, landFrom, liftM_bind]
    refine bind_congr fun child => ?_
    rw [liftM_bind]
    refine bind_congr fun resident => ?_
    cases child with
    | leaf old => exact Landing.scan_eq hbit hbits (by split <;> rfl)
    | branch old =>
      dsimp only
      rw [liftM_bind]
      refine bind_congr fun n => ?_
      cases hover : n.overEqualKeys with
      | true =>
        rw [if_pos rfl, if_pos rfl, liftM_bind]
        refine bind_congr fun i => ?_
        rw [liftM_bind]
        exact bind_congr fun oldest => Landing.scan_eq hbit hbits (by split <;> rfl)
      | false =>
        have hnonneg : 0 ≤ n.bit.toInt := Int.not_lt.mp (of_decide_eq_false hover)
        obtain ⟨hposition, hnat⟩ := toPosition_eq (m := Outcome) hnonneg
        have hlimit : (min n.bit.toUInt32 bits).toNat = min n.bit.toInt.toNat bits.toNat := by
          rw [toNat_min, hnat]
        have hle : min n.bit.toInt.toNat bits.toNat ≤ bits.toNat := Nat.min_le_right _ _
        have hlimitle : (min n.bit.toUInt32 bits).toNat ≤ 2147483648 := by omega
        obtain ⟨d, hreach, hd, hdle⟩ := Key.reachWord_eq (m := Outcome) key resident hbit hlimitle
        rw [hlimit] at hd
        simp only [Bool.false_eq_true, if_false]
        rw [hposition, pure_bind, hreach, pure_bind, Key.reach_bind key resident hbit (by omega),
          ← hd]
        simp only [UInt32.lt_iff_toNat_lt, hlimit]
        split
        -- the keys part above the branch, and so before the end of the new one
        · next hlt =>
          have hdiff : d < bits → key.bitAt d.toNat ≠ resident.bitAt d.toNat := fun _ => by
            rw [hd] at hlt ⊢
            exact Key.bitAt_ne_of_reach_lt hlt
          rw [Landing.ofOrder_eq hbits hdiff, if_pos (Nat.lt_of_lt_of_le hlt hle)]
          rfl
        · rw [pure_bind, Key.bitWord_eq, pure_bind, hnat]
          exact ih _ _ hdle

/-! ### Insertions -/

/-- At most `fuel` branches down the right spine, with levels in words. -/
def Store.spineWordsFrom (s : Store) : (fuel : Nat) → (full last : Slot) → Checked Outcome Spine
  | 0, _, _ => throwThe Fault .endless
  | fuel + 1, full, last => do
    let above ← s.node last
    match ← above.right.follow with
    | .leaf _ => return ⟨full, last⟩
    | .branch next =>
      let below ← s.node next
      let skips := (← raise above.bit) < below.bit
      spineWordsFrom s fuel (if skips then next else full) next

/-- Two computations agree step by step where the one in numbers does not end in a fault. -/
theorem lift_bind_of_ne {α β : Type} {x : Outcome α} {f : α → Checked Outcome β}
    {g : α → Outcome β} {e : Fault} (h : x >>= g ≠ .error e)
    (hf : ∀ a, g a ≠ .error e → f a = liftM (g a)) : liftM x >>= f = liftM (x >>= g) := by
  rw [liftM_bind]
  cases x with
  | ok a => exact hf a h
  | error e => rfl

/-- Down the right spine, words and numbers agree as long as one more than a level is one. -/
theorem Store.spineWordsFrom_eq (s : Store) (fuel : Nat) (full last : Slot)
    (h : s.spineFrom fuel full last ≠ .error .sumOverflow) :
    s.spineWordsFrom fuel full last = liftM (s.spineFrom fuel full last) := by
  induction fuel generalizing full last with
  | zero => rfl
  | succ fuel ih =>
    rw [spineFrom] at h
    rw [spineWordsFrom, spineFrom]
    refine lift_bind_of_ne h fun above h => lift_bind_of_ne h fun child h => ?_
    cases child with
    | leaf i => rfl
    | branch next =>
      refine lift_bind_of_ne h fun below h => ?_
      dsimp only at h ⊢
      by_cases hhigh : above.bit = Int32.maxValue
      · rw [if_pos hhigh] at h
        exact absurd rfl h
      · obtain ⟨hraise, hnext⟩ := raise_eq (m := Outcome) hhigh
        rw [if_neg hhigh] at h ⊢
        rw [hraise, pure_bind]
        simp only [Int32.lt_iff_toInt_lt, hnext]
        exact ih _ _ h

/-- Where a new entry belongs. -/
theorem Plot.landingWords_eq (p : Plot) (key : Key) {bits : UInt32}
    (hbits : bits.toNat ≤ 2147483648) :
    p.landingWords key bits = liftM (p.landing key bits.toNat) :=
  p.store.landWordsFrom_eq p.tree.unique key hbits _ _ _ (by decide : (0 : UInt32).toNat ≤ _)

namespace Edit

variable {α β : Type}

/-- An edit in which nothing is computed in words. -/
def plain (x : Edit α) : Checked Edit α := ExceptT.lift x

/-- Read from the plot, by operations on words. -/
def askWords (read : Plot → Checked Outcome α) : Checked Edit α :=
  ExceptT.mk (ask fun p => (read p).run)

/-- Put `new` above the branch `full`, on the level before. -/
def stackWords (full new : Slot) : Checked Edit Unit := do
  let place := (← plain (node full)).branchUp
  let branchNew ← plain (ofOutcome (ChildLink.ofChild (.branch new)))
  plain (hang place branchNew)
  let leftOfNew ← plain (ofOutcome (ParentLink.ofPlace (.under new .left)))
  let rightOfNew ← plain (ofOutcome (ParentLink.ofPlace (.under new .right)))
  let branchFull ← plain (ofOutcome (ChildLink.ofChild (.branch full)))
  let leafNew ← plain (ofOutcome (ChildLink.ofChild (.leaf new)))
  plain (modifyNode full fun n => { n with branchUp := leftOfNew })
  let bit ← lower (← plain (node full)).bit
  plain (modifyNode new fun _ => ⟨bit, branchFull, leafNew, place, rightOfNew⟩)

/-- Add `new` after every entry of the subtree of equal keys headed by `sub`. -/
def appendWords (sub new : Slot) : Checked Edit Slot := do
  let spine ← askWords fun p => p.store.spineWordsFrom (p.store.size + 1) sub sub
  let last ← plain (node spine.last)
  if last.bit.toInt < -1 then
    let leaf ← plain (ofOutcome last.right.follow)
    plain (fillHole spine.last leaf.slot new)
  else
    stackWords spine.full new
  return new

/-- Hang `new` where it belongs. -/
def settleWords (new : Slot) : Landing → Checked Edit Slot
  | .append head => appendWords head new
  | landing => plain (settle new landing)

/-- Insert a record as `Edit.insert` does, with positions and levels in words. -/
def insertWords (new : Slot) (len : Nat) : Checked Edit Slot := do
  if ← plain (ask (·.store.isResident new)) then plain (throw (.alreadyResident new))
  let bits ← plain (ofOutcome (Key.bitLengthWord len))
  if ← plain (ask fun p => .ok p.tree.isEmpty) then plain (plant new)
  else
    let key ← plain (ask (·.store.key new))
    settleWords new (← askWords (·.landingWords (key.truncate len) bits))

/-- Whether an edit ends in a fault of a sum or a difference. -/
def Overflows (g : Edit α) (p : Plot) : Prop :=
  ∃ q, g p = .error .sumOverflow q ∨ g p = .error .differenceOverflow q

/-- Where an edit does not end in such a fault, another that is made of operations on words does
the same, without an overflow. -/
def Agrees (f : Checked Edit α) (g : Edit α) (p : Plot) : Prop :=
  ¬ Overflows g p → f.run p = (plain g).run p

section

variable {p q : Plot} {x' : Checked Edit α} {x : Edit α} {f : α → Checked Edit β} {g : α → Edit β}
  {a : α} {e : Fault}

theorem plain_of_ok (h : x p = .ok a q) : (plain x).run p = .ok (.ok a) q :=
  bind_of_ok (f := fun a => pure (Except.ok a)) h

theorem plain_of_error (h : x p = .error e q) : (plain x).run p = .error e q :=
  bind_of_error (f := fun a => pure (Except.ok a)) h

theorem run_bind_of_ok (h : x'.run p = .ok (.ok a) q) : (x' >>= f).run p = (f a).run q := by
  rw [ExceptT.run_bind, bind_of_ok h]

theorem run_bind_of_error (h : x'.run p = .error e q) : (x' >>= f).run p = .error e q := by
  rw [ExceptT.run_bind, bind_of_error h]

theorem agrees_plain (x : Edit α) (p : Plot) : Agrees (plain x) x p := fun _ => rfl

/-- One edit after another. -/
theorem Agrees.bind (hx : Agrees x' x p) (h : ∀ a q, x p = .ok a q → Agrees (f a) (g a) q) :
    Agrees (x' >>= f) (x >>= g) p := by
  intro hno
  have hfirst : x'.run p = (plain x).run p := hx fun ⟨q, hover⟩ =>
    hno ⟨q, hover.imp bind_of_error bind_of_error⟩
  cases hstep : x p with
  | ok a q =>
    have hbind : (x >>= g) p = g a q := bind_of_ok hstep
    have hrest : ¬ Overflows (g a) q := fun ⟨r, hover⟩ => hno ⟨r, by rwa [hbind]⟩
    rw [run_bind_of_ok (hfirst.trans (plain_of_ok hstep)), h a q hstep hrest]
    cases hg : g a q with
    | ok b r => rw [plain_of_ok hg, plain_of_ok (hbind.trans hg)]
    | error e r => rw [plain_of_error hg, plain_of_error (hbind.trans hg)]
  | error e q =>
    rw [run_bind_of_error (hfirst.trans (plain_of_error hstep)),
      plain_of_error (bind_of_error hstep)]

/-- A question that is answered by operations on words. -/
theorem agrees_ask {read : Plot → Checked Outcome α} {read' : Plot → Outcome α}
    (h : read' p ≠ .error .sumOverflow → read p = liftM (read' p)) :
    Agrees (askWords read) (ask read') p := by
  intro hno
  have hread : (read p).run = Except.ok <$> read' p :=
    congrArg ExceptT.run (h fun hover => hno ⟨p, Or.inl (ask_of_error hover)⟩)
  cases hanswer : read' p with
  | ok a =>
    rw [plain_of_ok (ask_of_ok hanswer)]
    exact ask_of_ok (hread.trans (by rw [hanswer]; rfl))
  | error e =>
    rw [plain_of_error (ask_of_error hanswer)]
    exact ask_of_error (hread.trans (by rw [hanswer]; rfl))

end

theorem stackWords_agrees (full new : Slot) (p : Plot) :
    Agrees (stackWords full new) (stack full new) p := by
  unfold stackWords stack
  refine (agrees_plain _ _).bind fun above _ _ => ?_
  refine (agrees_plain _ _).bind fun branchNew _ _ => ?_
  refine (agrees_plain _ _).bind fun _ _ _ => ?_
  refine (agrees_plain _ _).bind fun leftOfNew _ _ => ?_
  refine (agrees_plain _ _).bind fun rightOfNew _ _ => ?_
  refine (agrees_plain _ _).bind fun branchFull _ _ => ?_
  refine (agrees_plain _ _).bind fun leafNew _ _ => ?_
  refine (agrees_plain _ _).bind fun _ _ _ => ?_
  refine (agrees_plain _ _).bind fun n q _ => ?_
  dsimp only
  by_cases hlow : n.bit = Int32.minValue
  · rw [if_pos hlow]
    exact fun hno => absurd ⟨q, Or.inr rfl⟩ hno
  · rw [if_neg hlow, lower_eq hlow, pure_bind]
    exact agrees_plain _ _

theorem appendWords_agrees (sub new : Slot) (p : Plot) :
    Agrees (appendWords sub new) (append sub new) p := by
  unfold appendWords append
  refine (agrees_ask fun h => ?_).bind fun spine _ _ => ?_
  · exact p.store.spineWordsFrom_eq _ sub sub h
  refine (agrees_plain _ _).bind fun last q _ => ?_
  split
  · refine (agrees_plain _ _).bind fun leaf _ _ => ?_
    exact (agrees_plain _ _).bind fun _ _ _ => agrees_plain _ _
  · exact (stackWords_agrees _ _ _).bind fun _ _ _ => agrees_plain _ _

theorem settleWords_agrees (new : Slot) (landing : Landing) (p : Plot) :
    Agrees (settleWords new landing) (settle new landing) p := by
  cases landing with
  | append head => exact appendWords_agrees head new p
  | present old => exact agrees_plain _ _
  | splice place old side bit => exact agrees_plain _ _

/-- **An insertion in words** does what one in numbers does, without an overflow, if that ends in no
fault of a sum or a difference. -/
theorem insertWords_agrees (new len : Nat) (p : Plot) :
    Agrees (insertWords new len) (insert new len) p := by
  unfold insertWords insert
  refine (agrees_plain _ _).bind fun resident q _ => ?_
  cases resident with
  | true => exact (agrees_plain (throw _) _).bind fun _ _ h => nomatch h
  | false =>
    simp only [Bool.false_eq_true, if_false]
    rw [Key.bitLengthWord_eq]
    rcases Nat.lt_or_ge maxKeyLength len with hlen | hlen
    · rw [Key.bitLength, if_neg (Nat.not_le.mpr hlen)]
      exact fun _ => rfl
    · rw [Key.bitLength, if_pos hlen]
      have hbits : 8 * len ≤ 2147483648 := by
        unfold maxKeyLength at hlen
        omega
      have hnat : (UInt32.ofNat (8 * len)).toNat = 8 * len :=
        toNat_ofNat (by unfold Key.positions; omega)
      have hwords : plain (ofOutcome (UInt32.ofNat <$> .ok (8 * len))) =
          pure (UInt32.ofNat (8 * len)) := rfl
      have hnumbers : ofOutcome (.ok (8 * len)) = pure (8 * len) := rfl
      rw [hwords, hnumbers, pure_bind, pure_bind]
      refine (agrees_plain _ _).bind fun isEmpty q _ => ?_
      cases isEmpty with
      | true => exact agrees_plain _ _
      | false =>
        simp only [Bool.false_eq_true, if_false]
        refine (agrees_plain _ _).bind fun key q _ => ?_
        refine (agrees_ask fun _ => ?_).bind fun landing q _ => settleWords_agrees new landing q
        have hlanding := q.landingWords_eq (key.truncate len) (hnat.trans_le hbits)
        rwa [hnat] at hlanding

end Edit

end BitTrie
