import BitTrie.Proofs.Finding
import BitTrie.Proofs.Inspections

/-!
# What an audit without a flaw proves

Of the links of a store nothing is known before an audit.  An audit of any tree comes to an end,
and when it meets no flaw, the links spell out a shape in which every slot is met once, every link
is answered by a link back, and the first entries stand where their bits say.  That is enough for
lookups, whatever the branches over equal keys look like below.

## Main definitions

* `Lead` — where the oldest entry below the topmost level of a way down is to be found.
* `Survey.unseen` — how many slots have not been met, which bounds the visits to come.
* `Expects` — what is known of a place before it is looked at.
* `Cleared` — what has been found out about a part of a tree without a flaw.
* `Plot.Passes` — what an audit without a flaw says of a tree.

## Main results

* `Expects.not_astray`, `Expects.entry` — a visit ends without a fault, and an entry is cleared.
* `Plot.auditFrom_ends` — **the audit of any part** meets a flaw, or clears a shape.
* `Plot.audit_cases` — the audit of any tree ends, in one of three ways.
* `Plot.audit_sound` — **a tree without a flaw** is a tree, and lookups in it are right.
-/

namespace BitTrie

/-! ### Marks -/

namespace Survey

/-- How many slots have not been met, in the two roles together. -/
def unseen (survey : Survey) : Nat := survey.leaves.count false + survey.branches.count false

/-- A mark makes one slot less that has none. -/
theorem count_mark {marks : Array Bool} {i : Slot} (hi : i < marks.size)
    (hunseen : marks.getD i false = false) :
    (marks.setIfInBounds i true).count false + 1 = marks.count false := by
  have hmark : marks[i] = false := by simpa [Array.getD, hi] using hunseen
  have hpos : 0 < marks.count false :=
    Array.count_pos_iff.mpr (hmark ▸ Array.getElem_mem hi)
  rw [Array.setIfInBounds_def, dif_pos hi, Array.count_set hi, hmark]
  simp only [beq_self_eq_true, if_true, Bool.true_beq, Bool.false_eq_true, if_false]
  omega

end Survey

/-! ### Leads -/

/-- Where the oldest entry below the topmost level of a way down is to be found. -/
inductive Lead where
  /-- No level has been passed. -/
  | free
  /-- It is the leftmost entry of what hangs at the end of the way. -/
  | ahead (head : Slot)
  /-- It has been met. -/
  | met (x : Heading)

namespace Lead

/-- The topmost level that has been passed. -/
def head? : Lead → Option Slot
  | free => none
  | ahead head => some head
  | met x => some x.head

/-- The heading of what hangs at the end of the way. -/
def heading : Lead → Shape → Option Heading
  | free, _ => none
  | ahead head, t => some ⟨head, t.oldest⟩
  | met x, _ => some x

/-- The lead on the left of a branch. -/
def enter (i : Slot) (b : Int) : Lead → Lead
  | free => if b < 0 then ahead i else free
  | ahead head => ahead head
  | met x => met x

/-- The lead after a part has been looked at. -/
def leave (t : Shape) : Lead → Lead
  | free => free
  | ahead head => met ⟨head, t.oldest⟩
  | met x => met x

variable {lead : Lead} {i : Slot} {b : Int} {l r t : Shape}

theorem heading_enter : (lead.enter i b).heading l =
    (lead.heading (.branch i b l r)).or (if b < 0 then some ⟨i, l.oldest⟩ else none) := by
  cases lead with
  | free =>
    rw [enter]
    split <;> rfl
  | ahead head => rfl
  | met x => rfl

@[simp] theorem heading_leave : (lead.leave l).heading t = lead.heading l := by
  cases lead <;> rfl

theorem head?_enter : (lead.enter i b).head? = lead.head?.or (if b < 0 then some i else none) := by
  cases lead with
  | free =>
    rw [enter]
    split <;> rfl
  | ahead head => rfl
  | met x => rfl

@[simp] theorem head?_leave : (lead.leave l).head? = lead.head? := by cases lead <;> rfl

theorem head?_eq (lead : Lead) (t : Shape) : lead.head? = (lead.heading t).map (·.head) := by
  cases lead <;> rfl

end Lead

/-- What a lead says is so: the walk to the oldest entry passes `link`, within `depth` steps, or it
has been seen where the walk ends. -/
def Lead.Holds (s : Store) (link : ChildLink) (depth : Nat) : Lead → Prop
  | free => True
  | ahead head => ∃ d, d ≤ depth ∧ ∀ top : ChildLink, top.child? = some (.branch head) →
      ∀ fuel, s.walkDown .left (fuel + d) top = s.walkDown .left fuel link
  | met x => x.Located s

/-- After a part has been looked at, the lead does not depend on the link. -/
theorem Lead.holds_leave {s : Store} {lead : Lead} {t : Shape} {link : ChildLink} {depth : Nat}
    (h : ∀ x, lead.heading t = some x → x.Located s) :
    (lead.leave t).Holds s link depth := by
  cases lead with
  | free => trivial
  | ahead head => exact h _ rfl
  | met x => exact h x rfl

/-! ### What is known before and after a visit -/

/-- What is known of a place before it is looked at: its link is not null, the branches on the way
have been met and are all different, and the lead is right. -/
structure Expects (p : Plot) (survey : Survey) (lead : Lead) (v : Visit) : Prop where
  link : v.link ≠ .null
  leafRoom : survey.leaves.size = p.store.size
  branchRoom : survey.branches.size = p.store.size
  marked : ∀ turn ∈ v.turns,
    turn.branch < p.store.size ∧ survey.branches.getD turn.branch false = true
  nodup : (v.turns.map (·.branch)).Nodup
  head : (v.turns.reverse.find? fun turn => decide (turn.bit.toInt < 0)).map (·.branch) =
    lead.head?
  lead : lead.Holds p.store v.link v.turns.length

/-- What has been found out about a part of a tree without a flaw, below the decisions `turns` and
the heading `h`. -/
structure Cleared (p : Plot) (h : Option Heading) (turns : List Turn) (t : Shape) : Prop where
  hangs : p.store.Hangs (Visit.place ⟨.null, turns⟩) t
  parted : h = none → t.Parted p.store.keyAt
  stratified : t.Stratified
  below : ∀ above ∈ turns.head?, above.bit.toInt < 0 → t.Levelled
  accord : t.verdict p.store.keyAt h = none
  fits : ∀ turn ∈ turns, 0 ≤ turn.bit.toInt → ∀ x ∈ t.deciders h,
    (p.store.keyAt x).SameBits (p.store.keyAt turn.branch) turn.bit.toInt.toNat ∧
      (p.store.keyAt x).bitAt turn.bit.toInt.toNat = turn.side.bit

/-- What the visits of a part clear: the shape that hangs there, which meets no slot that has been
met before. -/
structure Covers (p : Plot) (survey : Survey) (lead : Lead) (v : Visit) (t : Shape) : Prop where
  root : v.link.child? = some t.root
  cleared : Cleared p (lead.heading t) v.turns t
  distinct : t.Distinct
  leaves : ∀ j ∈ t.leaves, survey.leaves.getD j false = false
  branches : ∀ j ∈ t.branches, survey.branches.getD j false = false
  located : ∀ x, lead.heading t = some x → x.Located p.store

section

variable {p : Plot} {survey : Survey} {lead : Lead} {v : Visit} {i : Slot} {t : Shape}

/-- At an entry the oldest entry below the topmost level has been met at last. -/
theorem Expects.located (hv : Expects p survey lead v)
    (hlink : v.link.child? = some (.leaf i)) (hi : i < p.store.size) :
    ∀ x, lead.heading (.leaf i) = some x → x.Located p.store := by
  intro x hx
  have hlead := hv.lead
  cases lead with
  | free => cases hx
  | met y =>
    cases hx
    exact hlead
  | ahead head =>
    cases hx
    obtain ⟨d, hd, hwalk⟩ := hlead
    -- the way down passes no branch twice, so it is no longer than the walk may be
    have hlen : (v.turns.map (·.branch)).length ≤ p.store.size := by
      refine Store.length_le_size hv.nodup fun j hj => ?_
      obtain ⟨turn, hturn, rfl⟩ := List.mem_map.mp hj
      exact (hv.marked turn hturn).1
    rw [List.length_map] at hlen
    refine ⟨hi, fun top htop => ?_⟩
    rw [Store.outermost, show p.store.size + 1 = p.store.size - d + 1 + d by omega, hwalk top htop,
      Store.walkDown, Store.follow_eq_ok hlink]
    rfl

/-- A place is not astray of which something is known. -/
theorem Expects.not_astray (hv : Expects p survey lead v) : ¬ p.Astray v := by
  intro hastray
  cases hastray with
  | null hnull => exact hv.link hnull
  | turn hturn hge => exact absurd (hv.marked _ hturn).1 (Nat.not_lt.mpr hge)
  | @oldest i head hanswered hhead hlost =>
    obtain ⟨hlink, hup⟩ := Plot.answered?_eq_some.mp hanswered
    have hhead' := hv.head
    rw [hhead, lead.head?_eq (.leaf i)] at hhead'
    obtain ⟨x, hx, hbranch : x.head = head.branch⟩ := Option.map_eq_some_iff.mp hhead'.symm
    refine hlost x.oldest ?_
    rw [← hbranch]
    exact hv.located hlink (Store.lt_size_of_up hup) x hx

/-- The key that decides is that of the heading, where there is one. -/
theorem Expects.decides {key : Key} (hv : Expects p survey lead v)
    (hlink : v.link.child? = some (.leaf i)) (hi : i < p.store.size)
    (hkey : p.store.Decides i v.turns.reverse key) :
    (Shape.leaf i).verdict p.store.keyAt (lead.heading (.leaf i)) = none ∧
      ∀ x ∈ (Shape.leaf i).deciders (lead.heading (.leaf i)), key = p.store.keyAt x := by
  have hhead := hv.head
  have hlocated := hv.located hlink hi
  rw [lead.head?_eq (.leaf i)] at hhead
  generalize lead.heading (.leaf i) = h at hhead hlocated
  cases hkey with
  | own hnone =>
    rw [hnone] at hhead
    obtain rfl : h = none := Option.map_eq_none_iff.mp hhead.symm
    exact ⟨rfl, fun x hx => by rw [(List.mem_singleton.mp hx : x = i)]⟩
  | @oldest head oldest hsome hfound halike =>
    rw [hsome] at hhead
    obtain ⟨x, rfl, hbranch : x.head = head.branch⟩ := Option.map_eq_some_iff.mp hhead.symm
    have hlt : head.branch < p.store.size :=
      (hv.marked head (List.mem_reverse.mp (List.mem_of_find?_eq_some hsome))).1
    obtain rfl : oldest = x.oldest := hfound.oldest_eq (hlocated x rfl) hbranch.symm hlt
    exact ⟨if_pos halike, fun y hy => by rw [List.mem_singleton.mp hy]⟩

/-- **An entry that belongs where it is met** is cleared. -/
theorem Expects.entry {key : Key} (hv : Expects p survey lead v)
    (hanswered : p.answered? v = some (.leaf i)) (hi : i < p.store.size)
    (hnew : survey.met (.leaf i) = false) (hkey : p.store.Decides i v.turns.reverse key)
    (hfits : ∀ turn ∈ v.turns, p.store.Fits key turn) : Covers p survey lead v (.leaf i) := by
  obtain ⟨hlink, hup⟩ := Plot.answered?_eq_some.mp hanswered
  obtain ⟨haccord, hdeciders⟩ := hv.decides hlink hi hkey
  refine ⟨hlink, ⟨hup, fun _ => .leaf i, Shape.stratified_leaf i, fun _ _ _ => trivial, haccord,
    ?_⟩, ⟨List.nodup_singleton i, List.nodup_nil⟩, ?_, fun j hj => absurd hj List.not_mem_nil,
    hv.located hlink hi⟩
  · intro turn hturn hbit x hx
    rw [← hdeciders x hx]
    exact hfits turn hturn hbit
  · intro j hj
    rw [List.mem_singleton.mp hj]
    exact hnew

/-! ### One branch further down -/

/-- What is known on the left of a branch. -/
theorem Expects.left (hv : Expects p survey lead v)
    (hlink : v.link.child? = some (.branch i)) (hi : i < p.store.size)
    (hseen : survey.branches.getD i false = false) (hleft : (p.store.nodeAt i).left ≠ .null) :
    Expects p { survey with branches := survey.branches.setIfInBounds i true }
      (lead.enter i (p.store.levelAt i))
      ⟨(p.store.nodeAt i).left, ⟨i, .left, (p.store.nodeAt i).bit⟩ :: v.turns⟩ := by
  refine ⟨hleft, hv.leafRoom, Array.size_setIfInBounds.trans hv.branchRoom, ?_, ?_, ?_, ?_⟩
  · intro turn hturn
    rw [Survey.getD_mark]
    rcases List.mem_cons.mp hturn with rfl | hturn
    · exact ⟨hi, by rw [decide_eq_true ⟨rfl, hv.branchRoom.symm ▸ hi⟩, Bool.true_or]⟩
    · obtain ⟨hlt, hmarked⟩ := hv.marked turn hturn
      exact ⟨hlt, by rw [hmarked, Bool.or_true]⟩
  · rw [List.map_cons, List.nodup_cons]
    refine ⟨?_, hv.nodup⟩
    intro hmem
    obtain ⟨turn, hturn, hbranch⟩ := List.mem_map.mp hmem
    have hmarked := (hv.marked turn hturn).2
    rw [hbranch, hseen] at hmarked
    cases hmarked
  · rw [List.reverse_cons, List.find?_append, Lead.head?_enter, ← hv.head, Option.map_or,
      List.find?_singleton, Store.levelAt]
    by_cases hb : (p.store.nodeAt i).bit.toInt < 0 <;> simp [hb]
  · -- one step of a walk leads from the branch to its left
    have hstep : ∀ top : ChildLink, top.child? = some (.branch i) → ∀ fuel,
        p.store.walkDown .left (fuel + 1) top =
          p.store.walkDown .left fuel (p.store.nodeAt i).left := by
      intro top htop fuel
      rw [Store.walkDown, Store.follow_eq_ok htop]
      simp only [Store.node_eq_ok hi]
      rfl
    have hlead := hv.lead
    cases lead with
    | free =>
      rw [Lead.enter]
      split
      · exact ⟨1, Nat.le_add_left 1 _, hstep⟩
      · trivial
    | ahead head =>
      obtain ⟨d, hd, hwalk⟩ := hlead
      refine ⟨d + 1, Nat.succ_le_succ hd, fun top htop fuel => ?_⟩
      rw [show fuel + (d + 1) = fuel + 1 + d by omega, hwalk top htop, hstep _ hlink]
    | met x => exact hlead

/-- What is known on the right of a branch, after its left side has been looked at. -/
theorem Expects.right {l : Shape} {bit : Int32} {left right : ChildLink}
    (hv : Expects p survey lead ⟨left, ⟨i, .left, bit⟩ :: v.turns⟩)
    (hl : ∀ x, lead.heading l = some x → x.Located p.store) (hright : right ≠ .null) :
    Expects p (survey.after l) (lead.leave l) ⟨right, ⟨i, .right, bit⟩ :: v.turns⟩ := by
  refine ⟨hright, Survey.size_leaves_after.trans hv.leafRoom,
    Survey.size_branches_after.trans hv.branchRoom, ?_, hv.nodup, ?_,
    Lead.holds_leave hl⟩
  · intro turn hturn
    obtain ⟨turn', hturn', hbranch⟩ : ∃ turn' ∈ (⟨i, .left, bit⟩ :: v.turns : List Turn),
        turn'.branch = turn.branch := by
      rcases List.mem_cons.mp hturn with rfl | hturn
      · exact ⟨_, List.mem_cons_self, rfl⟩
      · exact ⟨turn, List.mem_cons_of_mem _ hturn, rfl⟩
    obtain ⟨hlt, hmarked⟩ := hv.marked turn' hturn'
    rw [hbranch] at hlt hmarked
    exact ⟨hlt, by rw [Survey.branches_after, hmarked, Bool.or_true]⟩
  · have hhead := hv.head
    rw [List.reverse_cons, List.find?_append, Option.map_or, List.find?_singleton] at hhead ⊢
    rw [Lead.head?_leave, ← hhead]
    by_cases hb : bit.toInt < 0 <;> simp [hb]

/-- Two parts that have been cleared under a branch. -/
theorem Cleared.branch {h : Option Heading} {turns : List Turn} {b : Int} {l r : Shape}
    (hup : p.store.up (.branch i) = some (Visit.place ⟨.null, turns⟩))
    (hb : p.store.levelAt i = b) (hleft : p.store.down i .left = some l.root)
    (hright : p.store.down i .right = some r.root)
    (horder : ∀ above ∈ turns.head?, bitsInOrder above.bit (p.store.nodeAt i).bit = true)
    (hl : Cleared p (h.or (if b < 0 then some ⟨i, l.oldest⟩ else none))
      (⟨i, .left, (p.store.nodeAt i).bit⟩ :: turns) l)
    (hr : Cleared p (h.or (if b < 0 then some ⟨i, l.oldest⟩ else none))
      (⟨i, .right, (p.store.nodeAt i).bit⟩ :: turns) r) :
    Cleared p h turns (.branch i b l r) := by
  have haccord : (Shape.branch i b l r).verdict p.store.keyAt h = none := by
    rw [Shape.verdict, hl.accord, hr.accord]
    rfl
  -- under a level both sides are levels, and so is whatever is in order under a level
  have hlevelled : b < 0 → (Shape.branch i b l r).Levelled := fun hneg =>
    ⟨hneg, hl.below _ rfl (hb.trans_lt hneg), hr.below _ rfl (hb.trans_lt hneg)⟩
  refine ⟨⟨hup, hb, hleft, hright, hl.hangs, hr.hangs⟩, ?_,
    Shape.stratified_branch hlevelled hl.stratified hr.stratified, ?_, haccord, ?_⟩
  · rintro rfl
    rcases Int.lt_or_le b 0 with hneg | hnonneg
    · exact .level hneg
    -- what the two sides say of the turn at this branch parts their first entries
    · have hbit : (p.store.nodeAt i).bit.toInt = b := hb
      have hl' := hl.fits _ List.mem_cons_self (hbit.symm ▸ hnonneg)
      have hr' := hr.fits _ List.mem_cons_self (hbit.symm ▸ hnonneg)
      simp only [if_neg (Int.not_lt.mpr hnonneg), Option.none_or, Shape.deciders, hbit] at hl' hr'
      refine .bit ⟨hnonneg, ?_, fun x hx => (hl' x hx).2, fun x hx => (hr' x hx).2⟩
        (hl.parted ?_) (hr.parted ?_)
      · intro x hx
        rcases (Fork.mem_firsts_close hnonneg).mp hx with hx | hx
        · exact (hl' x hx).1
        · exact (hr' x hx).1
      all_goals rw [if_neg (Int.not_lt.mpr hnonneg)]; rfl
  · intro above habove hneg
    refine hlevelled (Int.not_le.mp fun hnonneg => ?_)
    have hbit : (p.store.nodeAt i).bit.toInt = b := hb
    have hle := ((bitsInOrder_of_nonneg (hbit ▸ hnonneg)).mp (horder above habove)).1
    exact absurd hneg (Int.not_lt.mpr hle)
  · intro turn hturn hnonneg x hx
    have hl' := hl.fits turn (List.mem_cons_of_mem _ hturn) hnonneg x
    have hr' := hr.fits turn (List.mem_cons_of_mem _ hturn) hnonneg x
    -- whoever decides for the branch decides for one of its sides
    cases h with
    | some y => exact hl' hx
    | none =>
      rcases Int.lt_or_le b 0 with hneg | hnonneg'
      · rw [Shape.deciders, Shape.firsts_of_neg hneg] at hx
        rw [if_pos hneg] at hl'
        exact hl' hx
      · rw [Shape.deciders, Shape.firsts_of_nonneg hnonneg'] at hx
        rw [if_neg (Int.not_lt.mpr hnonneg')] at hl' hr'
        rcases List.mem_append.mp hx with hx | hx
        · exact hl' hx
        · exact hr' hx

/-- What is met in a part of a branch is met in the branch. -/
theorem Covers.branch {b : Int} {l r : Shape}
    (hroot : v.link.child? = some (.branch i)) (hup : p.store.up (.branch i) = some v.place)
    (hb : p.store.levelAt i = b) (hseen : survey.branches.getD i false = false)
    (horder : ∀ above ∈ v.turns.head?, bitsInOrder above.bit (p.store.nodeAt i).bit = true)
    (hroom' : survey.leaves.size = p.store.size) (hroom : survey.branches.size = p.store.size)
    (hl : Covers p { survey with branches := survey.branches.setIfInBounds i true }
      (lead.enter i b) ⟨(p.store.nodeAt i).left, ⟨i, .left, (p.store.nodeAt i).bit⟩ :: v.turns⟩ l)
    (hr : Covers p
      (Survey.after l { survey with branches := survey.branches.setIfInBounds i true })
      ((lead.enter i b).leave l)
      ⟨(p.store.nodeAt i).right, ⟨i, .right, (p.store.nodeAt i).bit⟩ :: v.turns⟩ r) :
    Covers p survey lead v (.branch i b l r) := by
  have hi : i < p.store.size := Store.lt_size_of_up hup
  have hheading : (lead.enter i b).heading l = (lead.heading (.branch i b l r)).or
      (if b < 0 then some ⟨i, l.oldest⟩ else none) := Lead.heading_enter
  have hclearedl := hl.cleared
  have hclearedr := hr.cleared
  rw [Lead.heading_leave, hheading] at hclearedr
  rw [hheading] at hclearedl
  -- what is met on the right has not been met at the branch, or on its left
  have hrleaves : ∀ j ∈ r.leaves, j ∉ l.leaves ∧ survey.leaves.getD j false = false := by
    intro j hj
    have hlt := hclearedr.hangs.lt_size.1 j hj
    have hunseen := hr.leaves j hj
    rw [Survey.leaves_after, Bool.or_eq_false_iff, decide_eq_false_iff_not] at hunseen
    exact ⟨fun hjl => hunseen.1 ⟨hjl, hroom'.symm ▸ hlt⟩, hunseen.2⟩
  have hrbranches : ∀ j ∈ r.branches, j ∉ l.branches ∧ j ≠ i ∧
      survey.branches.getD j false = false := by
    intro j hj
    have hlt := hclearedr.hangs.lt_size.2 j hj
    have hunseen := hr.branches j hj
    rw [Survey.branches_after, Survey.getD_mark, Bool.or_eq_false_iff, Bool.or_eq_false_iff,
      decide_eq_false_iff_not, decide_eq_false_iff_not, Array.size_setIfInBounds, hroom] at hunseen
    exact ⟨fun hjl => hunseen.1 ⟨hjl, hlt⟩, fun hji => hunseen.2.1 ⟨hji, hi⟩, hunseen.2.2⟩
  have hlbranches : ∀ j ∈ l.branches, j ≠ i ∧ survey.branches.getD j false = false := by
    intro j hj
    have hunseen := hl.branches j hj
    rw [Survey.getD_mark, Bool.or_eq_false_iff, decide_eq_false_iff_not, hroom] at hunseen
    exact ⟨fun hji => hunseen.1 ⟨hji, hi⟩, hunseen.2⟩
  refine ⟨hroot, Cleared.branch hup hb ?_ ?_ horder hclearedl hclearedr, ⟨?_, ?_⟩, ?_, ?_, ?_⟩
  · exact hl.root
  · exact hr.root
  · refine List.nodup_append.mpr ⟨hl.distinct.leaves, hr.distinct.leaves, ?_⟩
    rintro j hjl _ hjr rfl
    exact (hrleaves j hjr).1 hjl
  · refine List.nodup_cons.mpr ⟨?_, List.nodup_append.mpr
      ⟨hl.distinct.branches, hr.distinct.branches, ?_⟩⟩
    · intro hmem
      rcases List.mem_append.mp hmem with hmem | hmem
      · exact (hlbranches i hmem).1 rfl
      · exact (hrbranches i hmem).2.1 rfl
    · rintro j hjl _ hjr rfl
      exact (hrbranches j hjr).1 hjl
  · intro j hj
    rcases List.mem_append.mp hj with hj | hj
    · exact hl.leaves j hj
    · exact (hrleaves j hj).2
  · intro j hj
    rcases List.mem_cons.mp hj with rfl | hj
    · exact hseen
    · rcases List.mem_append.mp hj with hj | hj
      · exact (hlbranches j hj).2
      · exact (hrbranches j hj).2.2
  · intro x hx
    apply hl.located x
    rw [hheading, hx]
    rfl

end

/-! ### The audit -/

section

open Inspection

variable {p : Plot} {survey : Survey} {lead : Lead} {v : Visit} {rest : List Visit}
  {P : Nat → Prop}

/-- **The audit of any part** of a store meets a flaw, or clears a shape and goes on with the
rest.  It never runs out of visits. -/
theorem Plot.auditFrom_ends {fuel : Nat} (hv : Expects p survey lead v)
    (hfuel : survey.unseen < fuel)
    (hrest : ∀ t fuel', Covers p survey lead v t → fuel' < fuel →
      (survey.after t).unseen < fuel' →
      Ends (p.auditFrom fuel' rest (survey.after t)) P (fun _ => True) fun _ => False) :
    Ends (p.auditFrom fuel (v :: rest) survey) P (fun _ => True) fun _ => False := by
  -- the two parts below a branch come with less fuel each, the second with what the first leaves
  induction fuel using Nat.strong_induction_on generalizing survey lead v rest with
  | _ fuel ih =>
    obtain ⟨fuel, rfl⟩ := Nat.exists_eq_add_one_of_ne_zero (Nat.ne_of_gt (Nat.zero_lt_of_lt hfuel))
    rw [auditFrom_cons]
    refine ((p.inspect_ends v survey).imp (fun _ => id) (fun _ _ => trivial)
      fun _ => hv.not_astray).bind fun found hfound => ?_
    cases hfound with
    | @entry i key hanswered hlt hnew hkey hfits =>
      have hmark := Survey.count_mark (hv.leafRoom.symm ▸ hlt : i < survey.leaves.size) hnew
      refine hrest _ fuel (hv.entry hanswered hlt hnew hkey hfits) (Nat.lt_succ_self fuel) ?_
      simp only [Survey.unseen, Survey.after] at hfuel ⊢
      omega
    | @branch i hanswered hlt hnew hequal horder hown hright hleft =>
      obtain ⟨hlink, hup⟩ := answered?_eq_some.mp hanswered
      have hmark := Survey.count_mark (hv.branchRoom.symm ▸ hlt : i < survey.branches.size) hnew
      have hvl := hv.left hlink hlt hnew hleft
      refine ih fuel (Nat.lt_succ_self fuel) hvl ?_ fun l fuel' hl hlt' hfuel' => ?_
      · simp only [Survey.unseen] at hfuel ⊢
        omega
      · refine ih fuel' (Nat.lt_succ_of_lt hlt') (hvl.right hl.located hright) hfuel'
          fun r fuel'' hr hlt'' hfuel'' => ?_
        exact hrest _ fuel'' (hl.branch hlink hup rfl hnew horder hv.leafRoom
          hv.branchRoom hr) (by omega) hfuel''

end

/-- What an audit without a flaw says of a tree. -/
structure Plot.Passes (p : Plot) (t : Shape) : Prop where
  holds : p.Holds t
  distinct : t.Distinct
  parted : t.Parted p.store.keyAt
  stratified : t.Stratified
  uniform : ∀ c ∈ t.clumps, c.group.Uniform p.store.keyAt

/-- **The audit of any tree** ends.  It finds an empty tree, or it finds a flaw, or the links spell
out a shape that passes. -/
theorem Plot.audit_cases (p : Plot) :
    (p.tree.top = .null ∧ p.audit = .ok (.ok 0)) ∨ (∃ flaw, p.audit = .ok (.error flaw)) ∨
      ∃ t, p.Passes t ∧ p.audit = .ok (.ok t.leaves.length) := by
  by_cases hempty : p.tree.isEmpty = true
  · exact Or.inl ⟨eq_of_beq hempty, audit_of_isEmpty hempty⟩
  refine Or.inr ?_
  obtain ⟨unseen, hunseen⟩ : ∃ unseen : Survey, unseen = ⟨Array.replicate p.store.size false,
      Array.replicate p.store.size false, 0⟩ := ⟨_, rfl⟩
  have hv : Expects p unseen .free ⟨p.tree.top, []⟩ := by
    subst hunseen
    exact ⟨fun htop => hempty (beq_iff_eq.mpr htop), Array.size_replicate, Array.size_replicate,
      fun turn hturn => absurd hturn List.not_mem_nil, List.nodup_nil, rfl, trivial⟩
  have hfuel : unseen.unseen < 2 * p.store.size + 1 := by
    subst hunseen
    simp only [Survey.unseen, Array.count_replicate_self]
    omega
  have hends : Inspection.Ends (p.auditFrom (2 * p.store.size + 1) [⟨p.tree.top, []⟩] unseen)
      (fun n => ∃ t, p.Passes t ∧ n = t.leaves.length) (fun _ => True) fun _ => False := by
    refine auditFrom_ends hv hfuel fun t fuel' ht _ _ => ?_
    rw [auditFrom_nil, Survey.entries_after]
    refine Inspection.ends_pure ⟨t, ?_, ?_⟩
    · have huniform := ht.cleared.accord
      rw [Lead.heading, t.verdict_eq, Option.map_eq_none_iff, List.find?_eq_none] at huniform
      exact ⟨⟨ht.root, ht.cleared.hangs⟩, ht.distinct, ht.cleared.parted rfl, ht.cleared.stratified,
        fun c hc => by simpa using huniform c hc⟩
    · subst hunseen
      exact Nat.zero_add _
  have haudit : p.audit = p.auditFrom (2 * p.store.size + 1) [⟨p.tree.top, []⟩] unseen := by
    rw [audit, if_neg hempty, hunseen]
  rw [haudit]
  rcases hends.cases with ⟨n, hpass, t, ht, rfl⟩ | ⟨flaw, hflaw, -⟩
  · exact Or.inr ⟨t, ht, hpass⟩
  · exact Or.inl ⟨flaw, hflaw⟩

/-- **A tree without a flaw** is empty, or its links spell out a binary tree that meets every slot
once in each role, with a link back for every link, and with as many entries as the audit counts.
Lookups in it end, and find the leftmost first entry that agrees, or nothing when there is none. -/
theorem Plot.audit_sound (p : Plot) (n : Nat) (h : p.audit = .ok (.ok n)) :
    (p.tree.top = .null ∧ n = 0 ∧ ∀ query len, p.find query len = .ok none) ∨
      ∃ t, p.Holds t ∧ t.leaves.Nodup ∧ t.branches.Nodup ∧ t.leaves.length = n ∧
        t.branches.length + 1 = n ∧ ∀ query len, p.find query len =
          .ok (t.firsts.find? fun x => decide ((p.store.keyAt x).Alike query len)) := by
  rcases p.audit_cases with ⟨htop, haudit⟩ | ⟨flaw, haudit⟩ | ⟨t, ht, haudit⟩
  · rw [haudit] at h
    cases h
    refine Or.inl ⟨htop, rfl, fun query len => ?_⟩
    rw [find, if_pos (show p.tree.isEmpty = true from beq_iff_eq.mpr htop)]
  · rw [haudit] at h
    cases h
  · rw [haudit] at h
    cases h
    have hfind : ∀ query len, p.find query len =
        .ok (t.firsts.find? fun x => decide ((p.store.keyAt x).Alike query len)) :=
      ht.holds.find_eq ht.distinct.branches ht.parted
    exact Or.inr ⟨t, ht.holds, ht.distinct.leaves, ht.distinct.branches, rfl,
      t.length_leaves.symm, hfind⟩

/-- A tree that no insertion makes: the branch over the entries `b` and `c` is in the slot of
another `b`, which links up to it but is not below it. -/
def Plot.stray : Plot where
  tree := ⟨.of .branch 0 (by decide), true⟩
  store := ⟨#[⟨#[98], ⟨7, .of .leaf 1 (by decide), .of .leaf 2 (by decide), .root,
      .of 0 .left (by decide)⟩⟩,
    ⟨#[98], { Node.detached with leafUp := .of 0 .left (by decide) }⟩,
    ⟨#[99], { Node.detached with leafUp := .of 0 .right (by decide) }⟩], by decide⟩

/-- The audit counts two entries in it, and lookups are right. -/
theorem Plot.audit_sound_stray : stray.audit = .ok (.ok 2) ∧
    ∃ t, stray.Holds t ∧ t.leaves.length = 2 ∧ ∀ query len, stray.find query len =
      .ok (t.firsts.find? fun x => decide ((stray.store.keyAt x).Alike query len)) := by
  have haudit : stray.audit = .ok (.ok 2) := by decide +kernel
  refine ⟨haudit, ?_⟩
  rcases stray.audit_sound 2 haudit with ⟨-, hzero, -⟩ | ⟨t, hholds, -, -, hlength, -, hfind⟩
  · cases hzero
  · exact ⟨t, hholds, hlength, hfind⟩

end BitTrie
