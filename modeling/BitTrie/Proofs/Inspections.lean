import BitTrie.Proofs.Auditing

/-!
# The questions of an audit

A question of an audit ends in an answer, in a flaw or in a fault.  For each question there is one
statement of what is known in each of the three cases, whatever the links, the bits and the keys
are: what an answer vouches for, which flaws are met, and what must be wrong with the way down for
the question to end in a fault.

## Main definitions

* `Inspection.Ends` — what holds of an answer, what of a flaw, and what of a fault.
* `Heading.Located`, `Store.Decides` — the oldest entry below a level, and the key that decides.
* `Store.Fits` — a key that belongs where a turn leads.
* `Plot.answered?` — what a visit meets, when it has its link back to the place.
* `Plot.Advances`, `Plot.Objects`, `Plot.Astray` — a visit without a flaw, the flaws that it may
  meet, and what is wrong when it ends in a fault.

## Main results

* `Store.inspectTurn_ends`, `Store.decisiveKey_ends` — how the questions about a key end.
* `Plot.inspectEntry_ends`, `Plot.inspectBranch_ends` — how those about a slot end.
* `Plot.inspect_ends` — **how a visit ends**.
-/

namespace BitTrie

/-! ### Three ways to end -/

namespace Inspection

variable {α β : Type} {P P' : α → Prop} {Q : β → Prop} {E E' : Flaw → Prop} {F F' : Fault → Prop}
  {e : Flaw} {a : α} {x : Inspection α} {k : α → Inspection β}

/-- A question ends in an answer of which `P` holds, in a flaw of which `E` holds, or in a fault of
which `F` holds. -/
def Ends (x : Inspection α) (P : α → Prop) (E : Flaw → Prop) (F : Fault → Prop) : Prop :=
  match x with
  | .ok (.ok a) => P a
  | .ok (.error flaw) => E flaw
  | .error fault => F fault

theorem ends_pure (h : P a) : Ends (pure a) P E F := h

theorem ends_throw (h : E e) : Ends (throw e) P E F := h

/-- What is known of an answer. -/
theorem Ends.answer (h : Ends x P E F) (hx : x = pure a) : P a := by
  subst hx
  exact h

/-- What is known of a flaw. -/
theorem Ends.flaw (h : Ends x P E F) (hx : x = throw e) : E e := by
  subst hx
  exact h

/-- Without a fault there is an answer or a flaw. -/
theorem Ends.cases (h : Ends x P E fun _ => False) :
    (∃ a, x = pure a ∧ P a) ∨ ∃ flaw, x = throw flaw ∧ E flaw := by
  match x, h with
  | .ok (.ok a), h => exact Or.inl ⟨a, rfl, h⟩
  | .ok (.error flaw), h => exact Or.inr ⟨flaw, rfl, h⟩

theorem Ends.imp (h : Ends x P E F) (hanswer : ∀ a, P a → P' a) (hflaw : ∀ flaw, E flaw → E' flaw)
    (hfault : ∀ fault, F fault → F' fault) : Ends x P' E' F' := by
  match x, h with
  | .ok (.ok a), h => exact hanswer a h
  | .ok (.error flaw), h => exact hflaw flaw h
  | .error fault, h => exact hfault fault h

/-- One question after another. -/
theorem Ends.bind (h : Ends x P E F) (hk : ∀ a, P a → Ends (k a) Q E F) :
    Ends (x >>= k) Q E F := by
  match x, h with
  | .ok (.ok a), h => exact hk a h
  | .ok (.error flaw), h => exact h
  | .error fault, h => exact h

/-- What is read from the store. -/
theorem ends_lift {o : Outcome α} (hfault : ∀ fault, o = .error fault → F fault)
    (h : ∀ a, o = .ok a → Ends (k a) Q E F) :
    Ends ((monadLift o : Inspection α) >>= k) Q E F := by
  cases o with
  | ok a => exact h a rfl
  | error fault => exact hfault fault rfl

/-- What can be read. -/
theorem ends_read {o : Outcome α} (ho : o = .ok a) (h : Ends (k a) Q E F) :
    Ends ((monadLift o : Inspection α) >>= k) Q E F := by
  subst ho
  exact h

/-- A key that is read from the store. -/
theorem ends_key {s : Store} {i : Slot} {k : Key → Inspection β}
    (hfault : s.size ≤ i → ∀ fault, F fault) (h : i < s.size → Ends (k (s.keyAt i)) Q E F) :
    Ends ((monadLift (s.key i) : Inspection Key) >>= k) Q E F := by
  rcases Nat.lt_or_ge i s.size with hlt | hge
  · exact ends_read (Store.key_eq_ok hlt) (h hlt)
  · rw [Store.key_eq_error hge]
    exact hfault hge _

/-- A question that is cut short when `c` holds. -/
theorem ends_guard {c : Prop} [Decidable c] {k : Unit → Inspection β} (hflaw : c → E e)
    (h : ¬ c → Ends (k ()) Q E F) : Ends (if c then throw e >>= k else k ()) Q E F := by
  split
  · next hc => exact hflaw hc
  · next hc => exact h hc

/-- A question about the branch above, where there is one. -/
theorem ends_above {turns : List Turn} {order : Turn → Bool} {flaw : Turn → Flaw}
    {k : Unit → Inspection β} (hflaw : ∀ above, E (flaw above))
    (h : (∀ above ∈ turns.head?, order above = true) → Ends (k ()) Q E F) :
    Ends (match turns with
      | above :: _ => if !order above then throw (flaw above) >>= k else k ()
      | _ => k ()) Q E F := by
  cases turns with
  | nil => exact h fun above habove => absurd habove (by simp)
  | cons above rest =>
    refine ends_guard (fun _ => hflaw above) fun horder => h ?_
    intro above' habove
    obtain rfl := Option.some.inj habove
    simpa using horder

/-- A question to be asked of each of several things. -/
theorem ends_forM {ask : α → Inspection Unit} {xs : List α}
    (h : ∀ y ∈ xs, Ends (ask y) (fun _ => P y) E F) :
    Ends (xs.forM ask) (fun _ => ∀ y ∈ xs, P y) E F := by
  induction xs with
  | nil => exact ends_pure fun y hy => absurd hy List.not_mem_nil
  | cons y ys ih =>
    refine (h y List.mem_cons_self).bind fun _ hy => ?_
    refine (ih fun z hz => h z (List.mem_cons_of_mem _ hz)).imp ?_ (fun _ => id) fun _ => id
    exact fun _ hys => List.forall_mem_cons.mpr ⟨hy, hys⟩

end Inspection

/-! ### What is asked of a key -/

/-- The walk from the head of a heading ends at its oldest entry. -/
def Heading.Located (s : Store) (x : Heading) : Prop :=
  x.oldest < s.size ∧ ∀ top : ChildLink, top.child? = some (.branch x.head) →
    s.outermost .left top = .ok x.oldest

/-- There is one oldest entry below a head. -/
theorem Heading.Located.oldest_eq {s : Store} {x y : Heading} (hx : x.Located s)
    (hy : y.Located s) (hhead : x.head = y.head) (hlt : x.head < s.size) :
    x.oldest = y.oldest := by
  obtain ⟨link, -, hlink⟩ :=
    ChildLink.ofChild_eq_ok (c := .branch x.head) (Store.lt_maxSlots hlt)
  exact Except.ok.inj ((hx.2 link hlink).symm.trans (hy.2 link (hhead ▸ hlink)))

/-- The key that decides where an entry belongs: its own, or below a level that of the oldest entry
there, with which its own agrees. -/
inductive Store.Decides (s : Store) (i : Slot) (turns : List Turn) : Key → Prop where
  | own (hhead : turns.find? (fun turn => decide (turn.bit.toInt < 0)) = none) :
    Decides s i turns (s.keyAt i)
  | oldest {head : Turn} {oldest : Slot}
    (hhead : turns.find? (fun turn => decide (turn.bit.toInt < 0)) = some head)
    (hlocated : Heading.Located s ⟨head.branch, oldest⟩)
    (halike : (s.keyAt i).Alike (s.keyAt oldest) (s.keyAt i).size) :
    Decides s i turns (s.keyAt oldest)

/-- A key belongs where a turn on a bit leads: it agrees with the key of the branch before the bit,
and has itself the bit of the side. -/
def Store.Fits (s : Store) (key : Key) (turn : Turn) : Prop :=
  0 ≤ turn.bit.toInt → key.SameBits (s.keyAt turn.branch) turn.bit.toInt.toNat ∧
    key.bitAt turn.bit.toInt.toNat = turn.side.bit

section

open Inspection

variable {s : Store} {i : Slot}

/-- **How the question about a turn ends.** -/
theorem Store.inspectTurn_ends (s : Store) (leaf : Slot) (key : Key) (turn : Turn) :
    Ends (s.inspectTurn leaf key turn) (fun _ => s.Fits key turn)
      (fun flaw => ∀ j, flaw ≠ .revisited j) fun _ => s.size ≤ turn.branch := by
  unfold inspectTurn
  split
  · have hmax := turn.bit.toInt_lt
    have hle : turn.bit.toInt.toNat ≤ 2147483648 := by omega
    refine ends_key (fun hge _ => hge) fun hlt => ?_
    refine ends_read (Key.scanDiff_eq_ok (Nat.zero_le _) hle) ?_
    refine ends_guard (fun _ => nofun) fun hscan => ?_
    split
    · exact ends_throw nofun
    · next hside =>
      refine ends_pure fun _ => ⟨?_, not_not.mp hside⟩
      -- the scan has found no difference before the bit
      have hsame := Key.sameBits_firstDiff (a := key) (b := s.keyAt turn.branch)
        (fun p hp => absurd hp (Nat.not_lt_zero p)) turn.bit.toInt.toNat
      exact hsame.mono (Nat.le_of_not_lt hscan)
  · next hneg => exact ends_pure fun hbit => absurd hbit hneg

/-- **How the question ends which key decides**: in a fault only if the walk to the oldest entry
below the topmost level does not end at an entry. -/
theorem Store.decisiveKey_ends (hi : i < s.size) (turns : List Turn) :
    Ends (s.decisiveKey i turns) (s.Decides i turns) (fun flaw => ∀ j, flaw ≠ .revisited j)
      fun _ => ∃ head, turns.find? (fun turn => decide (turn.bit.toInt < 0)) = some head ∧
        (s.size ≤ head.branch ∨ ∀ oldest, ¬ Heading.Located s ⟨head.branch, oldest⟩) := by
  unfold decisiveKey
  refine ends_key (fun hge => absurd hi (Nat.not_lt.mpr hge)) fun _ => ?_
  split
  · next hhead => exact ends_pure (.own hhead)
  · next head hhead =>
    rcases Nat.lt_or_ge head.branch maxSlots with hlt | hge
    · obtain ⟨link, hlink, hchild⟩ := ChildLink.ofChild_eq_ok (c := .branch head.branch) hlt
      refine ends_read hlink ?_
      refine ends_lift (fun fault hwalk => ⟨head, hhead, Or.inr fun oldest hlocated => ?_⟩)
        fun oldest hwalk => ?_
      · rw [hlocated.2 link hchild] at hwalk
        cases hwalk
      refine ends_key (fun hge _ => ⟨head, hhead, Or.inr fun oldest' hlocated => ?_⟩)
        fun holdest => ?_
      · have heq := (hlocated.2 link hchild).symm.trans hwalk
        obtain rfl : oldest' = oldest := Except.ok.inj heq
        exact absurd hlocated.1 (Nat.not_lt.mpr hge)
      refine ends_guard (fun _ => nofun) fun hagree => ends_pure (.oldest hhead ?_ ?_)
      · refine ⟨holdest, fun top htop => ?_⟩
        rw [ChildLink.ext_child? (htop.trans hchild.symm)]
        exact hwalk
      · exact Key.alike_iff_agreeOn.mpr (by simpa using hagree)
    · have hsize := s.size_le
      exact ends_lift (fun fault _ => ⟨head, hhead, Or.inl (Nat.le_trans hsize hge)⟩)
        fun link hlink => absurd hlink (by simp [ChildLink.ofChild, Nat.not_lt.mpr hge])

end

/-! ### What a visit meets -/

/-- Whether a slot has been met in a role. -/
def Survey.met (survey : Survey) : Child → Bool
  | .leaf i => survey.leaves.getD i false
  | .branch i => survey.branches.getD i false

/-- What a visit meets, when it has its link back to the place of the visit. -/
def Plot.answered? (p : Plot) (v : Visit) : Option Child :=
  v.link.child?.filter fun c => p.store.up c = some v.place

/-- What a visit without a flaw comes to: an entry that belongs where the way down leads, or a
branch that may hang there, with something on both sides. -/
inductive Plot.Advances (p : Plot) (v : Visit) (survey : Survey) : List Visit × Survey → Prop where
  | entry {i : Slot} {key : Key} (hanswered : p.answered? v = some (.leaf i))
    (hlt : i < p.store.size) (hnew : survey.met (.leaf i) = false)
    (hkey : p.store.Decides i v.turns.reverse key)
    (hfits : ∀ turn ∈ v.turns, p.store.Fits key turn) :
    p.Advances v survey ([], survey.after (.leaf i))
  | branch {i : Slot} (hanswered : p.answered? v = some (.branch i)) (hlt : i < p.store.size)
    (hnew : survey.met (.branch i) = false)
    (hequal : ((p.store.nodeAt i).overEqualKeys && p.tree.unique) = false)
    (horder : ∀ above ∈ v.turns.head?, bitsInOrder above.bit (p.store.nodeAt i).bit = true)
    (hown : p.store.ownsLeaf i (p.store.nodeAt i) = .ok true)
    (hright : (p.store.nodeAt i).right ≠ .null) (hleft : (p.store.nodeAt i).left ≠ .null) :
    p.Advances v survey
      ([⟨(p.store.nodeAt i).left, ⟨i, .left, (p.store.nodeAt i).bit⟩ :: v.turns⟩,
          ⟨(p.store.nodeAt i).right, ⟨i, .right, (p.store.nodeAt i).bit⟩ :: v.turns⟩],
        { survey with branches := survey.branches.setIfInBounds i true })

/-- The flaws a visit may meet: that a slot is reached twice is one only if it is. -/
def Plot.Objects (p : Plot) (v : Visit) (survey : Survey) (flaw : Flaw) : Prop :=
  ∀ i, flaw = .revisited i → ∃ c, p.answered? v = some c ∧ survey.met c = true

/-- What is wrong with a visit that ends in a fault. -/
inductive Plot.Astray (p : Plot) (v : Visit) : Prop where
  /-- Nothing hangs there. -/
  | null (hnull : v.link = .null)
  /-- A branch that is passed on the way there is not in the store. -/
  | turn {turn : Turn} (hturn : turn ∈ v.turns) (hge : p.store.size ≤ turn.branch)
  /-- The walk to the oldest entry below the topmost level does not end at an entry. -/
  | oldest {i : Slot} {head : Turn} (hanswered : p.answered? v = some (.leaf i))
    (hhead : v.turns.reverse.find? (fun turn => decide (turn.bit.toInt < 0)) = some head)
    (hlost : ∀ oldest, ¬ Heading.Located p.store ⟨head.branch, oldest⟩)

section

open Inspection

variable {p : Plot} {v : Visit} {survey : Survey} {i : Slot} {c : Child}

theorem Plot.answered?_eq_some :
    p.answered? v = some c ↔ v.link.child? = some c ∧ p.store.up c = some v.place := by
  rw [answered?, Option.filter_eq_some_iff, decide_eq_true_eq]

/-- Any other flaw is one. -/
theorem Plot.Objects.of_ne {flaw : Flaw} (h : ∀ j, flaw ≠ .revisited j) :
    p.Objects v survey flaw := fun j hj => absurd hj (h j)

/-- **How a visit to an entry ends.** -/
theorem Plot.inspectEntry_ends (hlink : v.link.child? = some (.leaf i))
    (hlt : i < p.store.size) :
    Ends (p.store.inspectEntry i (p.store.nodeAt i) v survey) (p.Advances v survey)
      (p.Objects v survey) fun _ => p.Astray v := by
  unfold Store.inspectEntry
  refine ends_guard (fun _ => .of_ne nofun) fun hplace => ?_
  have hanswered : p.answered? v = some (.leaf i) :=
    answered?_eq_some.mpr ⟨hlink, not_not.mp hplace⟩
  refine ends_guard (fun hmet _ _ => ⟨_, hanswered, hmet⟩) fun hnew => ?_
  refine ((Store.decisiveKey_ends hlt _).imp (fun _ => id) (fun _ => .of_ne) ?_).bind
    fun key hkey => ?_
  · rintro _ ⟨head, hhead, hge | hlost⟩
    · exact .turn (List.mem_reverse.mp (List.mem_of_find?_eq_some hhead)) hge
    · exact .oldest hanswered hhead hlost
  refine (ends_forM fun turn hturn => (p.store.inspectTurn_ends i key turn).imp (fun _ => id)
    (fun _ => .of_ne) fun _ => .turn (List.mem_reverse.mp hturn)).bind fun _ hfits => ?_
  exact ends_pure (.entry hanswered hlt (Bool.eq_false_of_not_eq_true hnew) hkey
    fun turn hturn => hfits turn (List.mem_reverse.mpr hturn))

/-- The way up from the entry of a branch's own slot may form a loop, which is another flaw. -/
theorem Store.climbTo_ne_revisited (s : Store) (branch : Slot) (fuel : Nat) (up : ParentLink)
    (j : Slot) : s.climbTo branch fuel up ≠ .error (.revisited j) := by
  induction fuel generalizing up with
  | zero => simp [climbTo]
  | succ fuel ih =>
    rw [climbTo]
    split
    · simp
    · simp
    · split
      · simp
      · split
        · simp
        · exact ih _

/-- **How a visit to a branch ends**: in no fault. -/
theorem Plot.inspectBranch_ends (hlink : v.link.child? = some (.branch i))
    (hlt : i < p.store.size) :
    Ends (p.inspectBranch i (p.store.nodeAt i) v survey) (p.Advances v survey)
      (p.Objects v survey) fun _ => False := by
  unfold inspectBranch
  refine ends_guard (fun _ => .of_ne nofun) fun hplace => ?_
  have hanswered : p.answered? v = some (.branch i) :=
    answered?_eq_some.mpr ⟨hlink, not_not.mp hplace⟩
  refine ends_guard (fun hmet _ _ => ⟨_, hanswered, hmet⟩) fun hnew => ?_
  refine ends_guard (fun _ => .of_ne nofun) fun hequal => ?_
  refine ends_above (fun _ => .of_ne nofun) fun horder => ?_
  split
  · next flaw hclimb =>
    refine ends_throw (.of_ne ?_)
    rintro j rfl
    exact p.store.climbTo_ne_revisited i _ _ j hclimb
  · exact ends_throw (.of_ne nofun)
  · next hown =>
    refine ends_guard (fun _ => .of_ne nofun) fun hright => ?_
    refine ends_guard (fun _ => .of_ne nofun) fun hleft => ?_
    exact ends_pure (.branch hanswered hlt (Bool.eq_false_of_not_eq_true hnew)
      (Bool.eq_false_of_not_eq_true hequal) horder hown hright hleft)

/-- **How a visit ends**, whatever the links, the bits and the keys are. -/
theorem Plot.inspect_ends (p : Plot) (v : Visit) (survey : Survey) :
    Ends (p.inspect v survey) (p.Advances v survey) (p.Objects v survey) fun _ => p.Astray v := by
  cases hlink : v.link.child? with
  | none =>
    rw [inspect, ChildLink.follow, hlink]
    exact Astray.null (ChildLink.ext_child? (hlink.trans ChildLink.child?_null.symm))
  | some c =>
    rcases Nat.lt_or_ge c.slot p.store.size with hlt | hge
    · rw [inspect_of_child hlink hlt]
      cases c with
      | leaf i => exact inspectEntry_ends hlink hlt
      | branch i =>
        exact (inspectBranch_ends hlink hlt).imp (fun _ => id) (fun _ => id) fun _ => False.elim
    · rw [inspect, Store.follow_eq_ok hlink]
      show Ends (if _ then _ else _) _ _ _
      rw [if_pos hge]
      exact ends_throw fun j hj => by cases hj

end

end BitTrie
