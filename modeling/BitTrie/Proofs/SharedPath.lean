import BitTrie.Proofs.Inspections

/-!
# The trail that the visits of an audit share

An audit need not keep the way down to every place that it has yet to look at.  It can keep one
trail, that of the place it has looked at last, and with every other place only where it is and how
many decisions lead there.  The places are looked at from left to right, so that what is above the
next one has been left standing on the trail: the trail is cut back to it, and the branch that the
place belongs to comes after it.  The bits of the branches are read again for every entry.

## Main definitions

* `Waiting`, `Trail` — a place that waits to be looked at, and the branches above a place.
* `Trail.leadTo` — the trail to a place, made from the trail to the place before.
* `Plot.inspectAlong`, `Plot.auditAlong` — a visit and an audit with a shared trail.
* `Plot.Along` — **the invariant**: what is above the places to look at is on the trail.

## Main results

* `Trail.leadTo_waiting` — the trail that is made for a place is the way down to it.
* `Plot.inspectAlong_eq`, `Plot.Along.step` — a visit finds the same, and keeps the invariant.
* `Plot.auditAlong_eq` — **an audit with a shared trail** is an audit, whatever the links are.
-/

namespace BitTrie

/-! ### The audit -/

/-- A place that waits to be looked at. -/
structure Waiting where
  /-- The link that hangs there. -/
  link : ChildLink
  /-- The place. -/
  place : Place
  /-- The number of decisions that lead there. -/
  depth : Nat

/-- The branches above a place, the topmost one first, with the side that was taken below each. -/
abbrev Trail := List (Slot × Side)

/-- The trail to a place: the trail is cut back to what is above the branch that the place belongs
to, and the branch comes after it. -/
def Trail.leadTo (trail : Trail) (w : Waiting) : Trail :=
  let above := trail.take (w.depth - 1)
  match w.place with
  | .root => above
  | .under branch side => above ++ [(branch, side)]

/-- The topmost branch over equal keys on a trail. -/
def Store.topmostLevel (s : Store) : Trail → Outcome (Option Slot)
  | [] => return none
  | (branch, _) :: rest => do
    if (← s.node branch).overEqualKeys then return some branch else topmostLevel s rest

/-- The key that decides where an entry at the end of a trail belongs. -/
def Store.decisiveKeyAlong (s : Store) (i : Slot) (trail : Trail) : Inspection Key := do
  let key ← s.key i
  match ← s.topmostLevel trail with
  | none => return key
  | some head =>
    let oldest ← s.key (← s.outermost .left (← ChildLink.ofChild (.branch head)))
    if !key.agreeOn oldest 0 key.size then throw (.unequalKeys head)
    return oldest

/-- Whether a key belongs on a side of a branch. -/
def Store.inspectSide (s : Store) (leaf : Slot) (key : Key) (step : Slot × Side) :
    Inspection Unit := do
  let n ← s.node step.1
  s.inspectTurn leaf key ⟨step.1, step.2, n.bit⟩

/-- The questions asked of an entry at the end of a trail. -/
def Store.inspectEntryAlong (s : Store) (i : Slot) (n : Node) (place : Place) (trail : Trail)
    (survey : Survey) : Inspection (List Waiting × Survey) := do
  if n.leafUp.place? ≠ some place then throw (.leafElsewhere i place)
  if survey.leaves.getD i false then throw (.revisited i)
  let key ← s.decisiveKeyAlong i trail
  trail.forM (s.inspectSide i key)
  return ([], { survey with
    leaves := survey.leaves.setIfInBounds i true, entries := survey.entries + 1 })

/-- The questions asked of a branch, and the two places below it. -/
def Plot.inspectBranchAlong (p : Plot) (i : Slot) (n : Node) (w : Waiting) (survey : Survey) :
    Inspection (List Waiting × Survey) := do
  if n.branchUp.place? ≠ some w.place then throw (.branchElsewhere i w.place)
  if survey.branches.getD i false then throw (.revisited i)
  if n.overEqualKeys && p.tree.unique then throw (.equalKeysInUnique i)
  if let .under above _ := w.place then
    let bit := (← p.store.node above).bit
    if !bitsInOrder bit n.bit then throw (.bitOrder above bit i n.bit)
  match p.store.ownsLeaf i n with
  | .error flaw => throw flaw
  | .ok false => throw (.leafOutside i)
  | .ok true =>
    if n.right = .null then throw (.missingChild i .right)
    if n.left = .null then throw (.missingChild i .left)
    let below (side : Side) : Waiting := ⟨n.child side, .under i side, w.depth + 1⟩
    return ([below .left, below .right],
      { survey with branches := survey.branches.setIfInBounds i true })

/-- Look at one place, and give the places below it and the trail to it. -/
def Plot.inspectAlong (p : Plot) (w : Waiting) (trail : Trail) (survey : Survey) :
    Inspection (List Waiting × Trail × Survey) := do
  let child ← w.link.follow
  if p.store.size ≤ child.slot then throw (.dangling child.slot)
  let trail := trail.leadTo w
  let n ← p.store.node child.slot
  let (below, survey) ← match child with
    | .leaf i => p.store.inspectEntryAlong i n w.place trail survey
    | .branch i => p.inspectBranchAlong i n w survey
  return (below, trail, survey)

/-- At most `fuel` visits, those to make being stacked with the leftmost one on top. -/
def Plot.auditAlongFrom (p : Plot) : (fuel : Nat) → List Waiting → Trail → Survey → Inspection Nat
  | _, [], _, survey => return survey.entries
  | 0, _ :: _, _, _ => throwThe Fault .endless
  | fuel + 1, w :: stack, trail, survey => do
    let (below, trail, survey) ← p.inspectAlong w trail survey
    auditAlongFrom p fuel (below ++ stack) trail survey

/-- The first flaw of a tree, or the number of its entries, found along a shared trail. -/
def Plot.auditAlong (p : Plot) : Outcome (Except Flaw Nat) :=
  if p.tree.isEmpty then .ok (.ok 0)
  else
    let unseen := Array.replicate p.store.size false
    p.auditAlongFrom (2 * p.store.size + 1) [⟨p.tree.top, .root, 0⟩] [] ⟨unseen, unseen, 0⟩

/-! ### Visits and trails -/

/-- The place of a visit, as it waits. -/
def Visit.waiting (v : Visit) : Waiting := ⟨v.link, v.place, v.turns.length⟩

/-- What a visit finds, as it waits. -/
def Visit.stacked (found : List Visit × Survey) : List Waiting × Survey :=
  (found.1.map Visit.waiting, found.2)

/-- The step of a trail that a turn is. -/
def Turn.step (turn : Turn) : Slot × Side := (turn.branch, turn.side)

/-- The trail to the place of a visit. -/
def Visit.trail (v : Visit) : Trail := v.turns.reverse.map Turn.step

/-- The trail to the branch that the place of a visit belongs to. -/
def Visit.trailAbove (v : Visit) : Trail := v.turns.tail.reverse.map Turn.step

/-- A turn is on a branch of the store, and on the bit of the branch. -/
def Store.Records (s : Store) (turn : Turn) : Prop :=
  turn.branch < s.size ∧ (s.nodeAt turn.branch).bit = turn.bit

/-- What is above a place begins the trail to it. -/
theorem Visit.trailAbove_prefix (v : Visit) : v.trailAbove <+: v.trail := by
  unfold trailAbove trail
  cases v.turns with
  | nil => exact List.prefix_refl _
  | cons turn turns =>
    rw [List.reverse_cons, List.map_append]
    exact List.prefix_append _ _

/-- **The trail that is made for a place** is the way down to it, if what is above it is there. -/
theorem Trail.leadTo_waiting {trail : Trail} {v : Visit} (h : v.trailAbove <+: trail) :
    trail.leadTo v.waiting = v.trail := by
  obtain ⟨link, turns⟩ := v
  cases turns with
  | nil => rfl
  | cons turn turns =>
    have habove := List.prefix_iff_eq_take.mp h
    simp only [Visit.trailAbove, List.tail_cons, List.length_map, List.length_reverse] at habove
    show trail.take turns.length ++ [turn.step] = _
    rw [← habove, Visit.trail, List.reverse_cons, List.map_append]
    rfl

/-! ### One visit -/

/-- A question that is cut short when `c` holds, on both sides. -/
theorem Inspection.map_guard {α β : Type} {f : α → β} {c : Prop} [Decidable c] {flaw : Flaw}
    {k : Unit → Inspection α} {k' : Unit → Inspection β} (hk : k' () = f <$> k ()) :
    (if c then throw flaw >>= k' else k' ()) = f <$> (if c then throw flaw >>= k else k ()) := by
  split
  · rfl
  · exact hk

section

variable {s : Store} {turns : List Turn}

theorem Store.topmostLevel_eq (h : ∀ turn ∈ turns, s.Records turn) :
    s.topmostLevel (turns.map Turn.step) =
      .ok ((turns.find? fun turn => decide (turn.bit.toInt < 0)).map (·.branch)) := by
  induction turns with
  | nil => rfl
  | cons turn turns ih =>
    obtain ⟨⟨hlt, hbit⟩, hturns⟩ := List.forall_mem_cons.mp h
    have hover : (s.nodeAt turn.branch).overEqualKeys = decide (turn.bit.toInt < 0) := by
      rw [Node.overEqualKeys, hbit]
    rw [List.map_cons, Turn.step, topmostLevel, node_eq_ok hlt, List.find?_cons]
    simp only [bind, Except.bind, hover]
    cases decide (turn.bit.toInt < 0) with
    | true => rfl
    | false => exact ih hturns

theorem Store.decisiveKeyAlong_eq (h : ∀ turn ∈ turns, s.Records turn) (i : Slot) :
    s.decisiveKeyAlong i (turns.map Turn.step) = s.decisiveKey i turns := by
  unfold decisiveKeyAlong decisiveKey
  rw [topmostLevel_eq h]
  refine bind_congr fun key => ?_
  cases turns.find? fun turn => decide (turn.bit.toInt < 0) <;> rfl

theorem Store.inspectSide_eq {turn : Turn} (h : s.Records turn) (leaf : Slot) (key : Key) :
    s.inspectSide leaf key turn.step = s.inspectTurn leaf key turn := by
  obtain ⟨hlt, hbit⟩ := h
  rw [inspectSide, Turn.step, node_eq_ok hlt]
  show s.inspectTurn leaf key ⟨turn.branch, turn.side, (s.nodeAt turn.branch).bit⟩ = _
  rw [hbit]

theorem Store.forM_inspectSide (h : ∀ turn ∈ turns, s.Records turn) (leaf : Slot) (key : Key) :
    (turns.map Turn.step).forM (s.inspectSide leaf key) =
      turns.forM (s.inspectTurn leaf key) := by
  induction turns with
  | nil => rfl
  | cons turn turns ih =>
    obtain ⟨hturn, hturns⟩ := List.forall_mem_cons.mp h
    show (s.inspectSide leaf key turn.step >>= fun _ =>
      (turns.map Turn.step).forM (s.inspectSide leaf key)) =
        s.inspectTurn leaf key turn >>= fun _ => turns.forM (s.inspectTurn leaf key)
    rw [inspectSide_eq hturn, ih hturns]

variable {p : Plot} {v : Visit}

/-- **The questions asked of an entry** along the trail to it. -/
theorem Store.inspectEntryAlong_eq (h : ∀ turn ∈ v.turns, s.Records turn) (i : Slot) (n : Node)
    (survey : Survey) : s.inspectEntryAlong i n v.place v.trail survey =
      Visit.stacked <$> s.inspectEntry i n v survey := by
  have hturns : ∀ turn ∈ v.turns.reverse, s.Records turn := fun turn hturn =>
    h turn (List.mem_reverse.mp hturn)
  unfold inspectEntryAlong inspectEntry Visit.trail
  simp only [decisiveKeyAlong_eq hturns, forM_inspectSide hturns]
  refine Inspection.map_guard (Inspection.map_guard ?_)
  rw [map_bind]
  refine bind_congr fun key => ?_
  rw [map_bind]
  rfl

/-- A question about the branch above, where there is one, with its bit read again. -/
theorem Inspection.map_above {α β : Type} {f : α → β} {k : Unit → Inspection α}
    {k' : Unit → Inspection β} (order : Int32 → Bool) (flaw : Slot → Int32 → Flaw)
    (h : ∀ turn ∈ v.turns, s.Records turn) (hk : k' () = f <$> k ()) :
    (match v.place with
      | .under above _ => do
        let n ← (monadLift (s.node above) : Inspection Node)
        if !order n.bit then throw (flaw above n.bit) >>= k' else k' ()
      | _ => k' ()) = f <$> (match v.turns with
        | above :: _ =>
          if !order above.bit then throw (flaw above.branch above.bit) >>= k else k ()
        | _ => k ()) := by
  obtain ⟨link, turns⟩ := v
  cases turns with
  | nil => exact hk
  | cons above turns =>
    obtain ⟨hlt, hbit⟩ := h above List.mem_cons_self
    simp only [Visit.place, Store.node_eq_ok hlt, ← hbit]
    exact map_guard hk

/-- **The questions asked of a branch**, with the bit of the one above it read again. -/
theorem Plot.inspectBranchAlong_eq (h : ∀ turn ∈ v.turns, p.store.Records turn) (i : Slot)
    (n : Node) (survey : Survey) : p.inspectBranchAlong i n v.waiting survey =
      Visit.stacked <$> p.inspectBranch i n v survey := by
  unfold inspectBranchAlong inspectBranch
  refine Inspection.map_guard (Inspection.map_guard (Inspection.map_guard
    (Inspection.map_above (fun bit => bitsInOrder bit n.bit)
      (fun above bit => .bitOrder above bit i n.bit) h ?_)))
  dsimp only
  cases p.store.ownsLeaf i n with
  | error flaw => rfl
  | ok owns =>
    cases owns with
    | false => rfl
    | true => exact Inspection.map_guard (Inspection.map_guard rfl)

/-- **A visit** finds the same along the trail to its place, which it leaves behind. -/
theorem Plot.inspectAlong_eq {trail : Trail} (h : ∀ turn ∈ v.turns, p.store.Records turn)
    (habove : v.trailAbove <+: trail) (survey : Survey) :
    p.inspectAlong v.waiting trail survey =
      (fun found => (found.1.map Visit.waiting, v.trail, found.2)) <$> p.inspect v survey := by
  unfold inspectAlong inspect
  rw [map_bind]
  refine bind_congr fun child => Inspection.map_guard ?_
  rw [map_bind]
  refine bind_congr fun n => ?_
  rw [Trail.leadTo_waiting habove]
  cases child with
  | leaf i =>
    show (p.store.inspectEntryAlong i n v.place v.trail survey >>= fun found =>
      pure (found.1, v.trail, found.2)) = _
    rw [Store.inspectEntryAlong_eq h, bind_pure_comp, Functor.map_map]
    rfl
  | branch i =>
    show (p.inspectBranchAlong i n v.waiting survey >>= fun found =>
      pure (found.1, v.trail, found.2)) = _
    rw [inspectBranchAlong_eq h, bind_pure_comp, Functor.map_map]
    rfl

end

/-! ### The run -/

/-- Every trail begins all that come before it. -/
def Trail.Nested (trails : List Trail) : Prop :=
  trails.Pairwise fun longer shorter => shorter <+: longer

/-- The first trail may be listed again. -/
theorem Trail.Nested.again {trail : Trail} {trails : List Trail} (h : Nested (trail :: trails)) :
    Nested (trail :: trail :: trails) :=
  List.pairwise_cons.mpr
    ⟨List.forall_mem_cons.mpr ⟨List.prefix_refl trail, (List.pairwise_cons.mp h).1⟩, h⟩

/-- What relates the trail of an audit to the places it has yet to look at. -/
structure Plot.Along (p : Plot) (trail : Trail) (pending : List Visit) : Prop where
  /-- The turns that lead to the places are on the bits of branches of the store. -/
  records : ∀ v ∈ pending, ∀ turn ∈ v.turns, p.store.Records turn
  /-- What is above a place begins the trail, and begins what is above the places before it. -/
  nested : Trail.Nested (trail :: pending.map Visit.trailAbove)

section

variable {p : Plot} {trail : Trail} {v : Visit} {rest pending : List Visit} {survey : Survey}

/-- **The next visit** leaves behind the trail that the others need. -/
theorem Plot.Along.step {found : List Visit × Survey} (h : p.Along trail (v :: rest))
    (hadvances : p.Advances v survey found) : p.Along v.trail (found.1 ++ rest) := by
  obtain ⟨hrecords, hnested⟩ := h
  obtain ⟨hv, hrest⟩ := List.forall_mem_cons.mp hrecords
  obtain ⟨-, hbelow⟩ := List.pairwise_cons.mp hnested
  obtain ⟨habove, hpairs⟩ := List.pairwise_cons.mp hbelow
  -- what is above the places to the right is above this one
  have htrail : Trail.Nested (v.trail :: rest.map Visit.trailAbove) :=
    List.pairwise_cons.mpr
      ⟨fun shorter hshorter => (habove shorter hshorter).trans v.trailAbove_prefix, hpairs⟩
  cases hadvances with
  | entry => exact ⟨hrest, htrail⟩
  | @branch i hanswered hlt =>
    have hturn : ∀ side, ∀ turn ∈ (⟨i, side, (p.store.nodeAt i).bit⟩ :: v.turns : List Turn),
        p.store.Records turn := fun side => List.forall_mem_cons.mpr ⟨⟨hlt, rfl⟩, hv⟩
    refine ⟨?_, htrail.again.again⟩
    exact List.forall_mem_cons.mpr ⟨hturn .left, List.forall_mem_cons.mpr ⟨hturn .right, hrest⟩⟩

/-- **An audit along a shared trail** finds the same from every state. -/
theorem Plot.auditAlongFrom_eq (fuel : Nat) (h : p.Along trail pending) :
    p.auditAlongFrom fuel (pending.map Visit.waiting) trail survey =
      p.auditFrom fuel pending survey := by
  induction fuel generalizing pending trail survey with
  | zero => cases pending <;> rfl
  | succ fuel ih =>
    cases pending with
    | nil => rfl
    | cons v rest =>
      obtain ⟨hbegins, -⟩ := List.pairwise_cons.mp h.nested
      rw [List.map_cons, auditAlongFrom, auditFrom_cons,
        inspectAlong_eq (h.records v List.mem_cons_self) (hbegins _ List.mem_cons_self)]
      have hends := p.inspect_ends v survey
      match p.inspect v survey, hends with
      | .error fault, _ => rfl
      | .ok (.error flaw), _ => rfl
      | .ok (.ok (below, after)), hends =>
        show p.auditAlongFrom fuel (below.map Visit.waiting ++ rest.map Visit.waiting) v.trail
          after = p.auditFrom fuel (below ++ rest) after
        rw [← List.map_append]
        exact ih (h.step (hends.answer rfl))

end

/-- **An audit along a shared trail is an audit**, whatever the links, the bits and the keys are. -/
theorem Plot.auditAlong_eq (p : Plot) : p.auditAlong = p.audit := by
  unfold auditAlong audit
  split
  · rfl
  · have hstart : p.Along [] [⟨p.tree.top, []⟩] := by
      constructor
      case records =>
        exact List.forall_mem_singleton.mpr fun turn hturn => absurd hturn List.not_mem_nil
      case nested => exact List.pairwise_pair.mpr (List.prefix_refl [])
    exact auditAlongFrom_eq _ hstart

end BitTrie
