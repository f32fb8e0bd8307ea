import BitTrie.Proofs.Certified
import BitTrie.Proofs.SharedPath
import BitTrie.Proofs.WordReading

/-!
# The visits of an audit

An audit keeps a list of the places it has yet to look at.  Every place is put there once: it is
the root, or one of the two sides of a branch that passed, and a branch passes once.  A slot that
is met for the second time in a role cannot have its link back to both places it was met at, so the
audit always finds that out first, and never has to say that a slot is reached twice.  Every visit
ends without a fault, whatever the links, the bits and the keys are.

## Main definitions

* `Plot.Auditing` — the states that an audit goes through.
* `Orderly` — what holds in each of them.

## Main results

* `Orderly.step`, `Plot.Auditing.orderly` — every state of an audit is orderly.
* `Plot.Auditing.audit_eq` — an audit goes on from every state it goes through.
* `Plot.audit_visits` — **the audit of any tree** ends, and makes two visits a slot at most.
-/

namespace BitTrie

/-! ### The states of an audit -/

/-- The states that an audit goes through: the visits that met no flaw, the last one first, the
visits to make, and what has been met. -/
inductive Plot.Auditing (p : Plot) : List Visit → List Visit → Survey → Prop where
  | start (htop : p.tree.top ≠ .null) : p.Auditing [] [⟨p.tree.top, []⟩]
    ⟨Array.replicate p.store.size false, Array.replicate p.store.size false, 0⟩
  | step {made rest below : List Visit} {v : Visit} {survey after : Survey}
    (hmade : p.Auditing made (v :: rest) survey)
    (hvisit : p.inspect v survey = pure (below, after)) :
    p.Auditing (v :: made) (below ++ rest) after

/-- What holds in every state of an audit. -/
structure Orderly (p : Plot) (made pending : List Visit) (survey : Survey) : Prop where
  /-- Every slot can be marked as a leaf. -/
  leafRoom : survey.leaves.size = p.store.size
  /-- Every slot can be marked as a branch. -/
  branchRoom : survey.branches.size = p.store.size
  /-- Besides the first place there are two for each branch that has been met. -/
  visits : made.length + pending.length + 2 * survey.branches.count false = 2 * p.store.size + 1
  /-- The entries counted are the leaves that have been met. -/
  entries : survey.entries + survey.leaves.count false = p.store.size
  /-- No place is looked at twice. -/
  places : ((made ++ pending).map (·.place)).Nodup
  /-- The branches that places belong to have been met. -/
  parents : ∀ v ∈ made ++ pending, ∀ turn ∈ v.turns.head?, survey.met (.branch turn.branch) = true
  /-- What has been met was met at a place that it has its link back to. -/
  marks : ∀ c, survey.met c = true → ∃ v ∈ made, p.answered? v = some c
  /-- No more decisions lead to a place than visits have been made. -/
  depth : ∀ v ∈ pending, v.turns.length ≤ made.length

section

variable {p : Plot} {made pending rest : List Visit} {v : Visit} {survey after : Survey} {i : Slot}
  {c : Child}

theorem Survey.met_after_leaf (hi : i < survey.leaves.size) :
    (survey.after (.leaf i)).met c = true ↔ c = .leaf i ∨ survey.met c = true := by
  cases c with
  | leaf j =>
    rw [met, after, getD_mark, Bool.or_eq_true, decide_eq_true_eq, Child.leaf.injEq,
      and_iff_left hi, met]
  | branch j => simp [met, after]

theorem Survey.met_mark_branch (hi : i < survey.branches.size) :
    { survey with branches := survey.branches.setIfInBounds i true : Survey }.met c = true ↔
      c = .branch i ∨ survey.met c = true := by
  cases c with
  | leaf j => simp [met]
  | branch j =>
    rw [met, getD_mark, Bool.or_eq_true, decide_eq_true_eq, Child.branch.injEq, and_iff_left hi,
      met]

/-- A place below a branch belongs to the branch that was decided on last. -/
theorem Visit.head_of_place {side : Side} (h : v.place = .under i side) :
    ∃ turn ∈ v.turns.head?, turn.branch = i := by
  obtain ⟨link, turns⟩ := v
  cases turns with
  | nil => cases h
  | cons turn turns =>
    cases h
    exact ⟨turn, rfl, rfl⟩

/-- The visits of a state, in the order in which the next state has them. -/
theorem places_step (h : Orderly p made (v :: rest) survey) :
    ((v :: made ++ rest).map (·.place)).Nodup := by
  have hperm : (made ++ v :: rest).Perm (v :: made ++ rest) := List.perm_middle
  exact (hperm.map _).nodup_iff.mp h.places

/-- Nothing has been met at the start. -/
theorem Survey.met_start (n : Nat) (c : Child) :
    Survey.met ⟨Array.replicate n false, Array.replicate n false, 0⟩ c = false := by
  have hunseen : ∀ j, (Array.replicate n false).getD j false = false := by
    intro j
    rw [Array.getD_eq_getD_getElem?, Array.getElem?_replicate]
    split <;> rfl
  cases c with
  | leaf j => exact hunseen j
  | branch j => exact hunseen j

/-- The first state of an audit. -/
theorem Orderly.start (p : Plot) : Orderly p [] [⟨p.tree.top, []⟩]
    ⟨Array.replicate p.store.size false, Array.replicate p.store.size false, 0⟩ where
  leafRoom := Array.size_replicate
  branchRoom := Array.size_replicate
  visits := by
    simp only [Array.count_replicate_self, List.length_nil, List.length_singleton]
    omega
  entries := by simp only [Array.count_replicate_self, Nat.zero_add]
  places := List.nodup_singleton _
  parents := by
    intro v hv turn hturn
    rw [List.mem_singleton.mp hv] at hturn
    cases hturn
  marks := by
    intro c hmet
    rw [Survey.met_start] at hmet
    cases hmet
  depth := by
    intro v hv
    rw [List.mem_singleton.mp hv]
    exact Nat.le_refl 0

/-- After an entry. -/
theorem Orderly.entry (h : Orderly p made (v :: rest) survey)
    (hanswered : p.answered? v = some (.leaf i)) (hlt : i < p.store.size)
    (hnew : survey.met (.leaf i) = false) :
    Orderly p (v :: made) rest (survey.after (.leaf i)) := by
  have hi : i < survey.leaves.size := h.leafRoom.symm ▸ hlt
  have hcount := Survey.count_mark hi hnew
  constructor
  case leafRoom => exact Survey.size_leaves_after.trans h.leafRoom
  case branchRoom => exact h.branchRoom
  case visits =>
    have hvisits := h.visits
    simp only [Survey.after, List.length_cons] at hvisits ⊢
    omega
  case entries =>
    have hentries := h.entries
    simp only [Survey.after] at hentries ⊢
    omega
  case places => exact places_step h
  case parents =>
    intro w hw turn hturn
    have hmet := h.parents w (List.perm_middle.mem_iff.mpr hw) turn hturn
    exact (Survey.met_after_leaf hi).mpr (Or.inr hmet)
  case marks =>
    intro c hmet
    rcases (Survey.met_after_leaf hi).mp hmet with rfl | hmet
    · exact ⟨v, List.mem_cons_self, hanswered⟩
    · obtain ⟨w, hw, hanswered'⟩ := h.marks c hmet
      exact ⟨w, List.mem_cons_of_mem _ hw, hanswered'⟩
  case depth =>
    intro w hw
    exact Nat.le_succ_of_le (h.depth w (List.mem_cons_of_mem _ hw))

/-- No place of a state is below a branch that has not been met. -/
theorem Orderly.not_below {side : Side} (h : Orderly p made (v :: rest) survey)
    (hnew : survey.met (.branch i) = false) {w : Visit} (hw : w ∈ v :: made ++ rest) :
    w.place ≠ .under i side := by
  intro hplace
  obtain ⟨turn, hturn, rfl⟩ := Visit.head_of_place hplace
  have hmet := h.parents w (List.perm_middle.mem_iff.mpr hw) turn hturn
  rw [hnew] at hmet
  cases hmet

/-- After a branch. -/
theorem Orderly.branch {bit : Int32} {left right : ChildLink} {below : List Visit}
    (h : Orderly p made (v :: rest) survey) (hanswered : p.answered? v = some (.branch i))
    (hlt : i < p.store.size) (hnew : survey.met (.branch i) = false)
    (hbelow : below =
      [⟨left, ⟨i, .left, bit⟩ :: v.turns⟩, ⟨right, ⟨i, .right, bit⟩ :: v.turns⟩]) :
    Orderly p (v :: made) (below ++ rest)
      { survey with branches := survey.branches.setIfInBounds i true } := by
  have hi : i < survey.branches.size := h.branchRoom.symm ▸ hlt
  have hcount := Survey.count_mark hi hnew
  have hperm : (v :: made ++ (below ++ rest)).Perm (below ++ (v :: made ++ rest)) :=
    List.perm_append_comm_assoc _ _ _
  constructor
  case leafRoom => exact h.leafRoom
  case branchRoom => exact Array.size_setIfInBounds.trans h.branchRoom
  case visits =>
    have hvisits := h.visits
    simp only [hbelow, List.length_cons, List.length_append, List.length_nil] at hvisits ⊢
    omega
  case entries => exact h.entries
  case places =>
    rw [(hperm.map _).nodup_iff, List.map_append, List.nodup_append]
    refine ⟨by rw [hbelow]; simp [Visit.place], places_step h, ?_⟩
    intro place hplace place' hplace' heq
    obtain ⟨w, hw, rfl⟩ := List.mem_map.mp hplace'
    obtain ⟨w', hw', rfl⟩ := List.mem_map.mp hplace
    rw [hbelow, List.mem_pair] at hw'
    rcases hw' with rfl | rfl
    · exact h.not_below hnew hw heq.symm
    · exact h.not_below hnew hw heq.symm
  case parents =>
    intro w hw turn hturn
    rw [Survey.met_mark_branch hi]
    rcases List.mem_append.mp (hperm.mem_iff.mp hw) with hw | hw
    · rw [hbelow, List.mem_pair] at hw
      rcases hw with rfl | rfl <;> obtain rfl := Option.some.inj hturn <;> exact Or.inl rfl
    · exact Or.inr (h.parents w (List.perm_middle.mem_iff.mpr hw) turn hturn)
  case marks =>
    intro c hmet
    rcases (Survey.met_mark_branch hi).mp hmet with rfl | hmet
    · exact ⟨v, List.mem_cons_self, hanswered⟩
    · obtain ⟨w, hw, hanswered'⟩ := h.marks c hmet
      exact ⟨w, List.mem_cons_of_mem _ hw, hanswered'⟩
  case depth =>
    intro w hw
    rcases List.mem_append.mp hw with hw | hw
    · have hdepth := h.depth v List.mem_cons_self
      rw [hbelow, List.mem_pair] at hw
      rcases hw with rfl | rfl <;> exact Nat.succ_le_succ hdepth
    · exact Nat.le_succ_of_le (h.depth w (List.mem_cons_of_mem _ hw))

/-- **A visit** keeps a state orderly. -/
theorem Orderly.step {found : List Visit × Survey} (h : Orderly p made (v :: rest) survey)
    (hadvances : p.Advances v survey found) :
    Orderly p (v :: made) (found.1 ++ rest) found.2 := by
  cases hadvances with
  | entry hanswered hlt hnew => exact h.entry hanswered hlt hnew
  | branch hanswered hlt hnew => exact h.branch hanswered hlt hnew rfl

/-- **Every state of an audit** is orderly. -/
theorem Plot.Auditing.orderly (h : p.Auditing made pending survey) :
    Orderly p made pending survey := by
  induction h with
  | start htop => exact .start p
  | step hmade hvisit ih => exact ih.step ((p.inspect_ends _ _).answer hvisit)

/-- In an orderly state no slot has its link back to two of the places, in one role. -/
theorem Orderly.nodup_answered (h : Orderly p made pending survey) :
    ((made ++ pending).filterMap p.answered?).Nodup := by
  rw [List.Nodup, List.pairwise_filterMap]
  refine (List.pairwise_map.mp h.places).imp ?_
  rintro v w hne c hv _ hw rfl
  have hplace := (Plot.answered?_eq_some.mp hv).2.symm.trans (Plot.answered?_eq_some.mp hw).2
  exact hne (Option.some.inj hplace)

/-- What is met at the next place, with its link back, has not been met before. -/
theorem Orderly.met_eq_false (h : Orderly p made (v :: rest) survey)
    (hanswered : p.answered? v = some c) : survey.met c = false := by
  by_contra hmet
  obtain ⟨w, hw, hanswered'⟩ := h.marks c (Bool.eq_true_of_not_eq_false hmet)
  have hnodup := h.nodup_answered
  rw [List.filterMap_append, List.nodup_append] at hnodup
  exact hnodup.2.2 c (List.mem_filterMap.mpr ⟨w, hw, hanswered'⟩) c
    (List.mem_filterMap.mpr ⟨v, List.mem_cons_self, hanswered⟩) rfl

/-- So a visit does not find that a slot is reached twice. -/
theorem Orderly.inspect_ne_revisited (h : Orderly p made (v :: rest) survey) (i : Slot) :
    p.inspect v survey ≠ throw (.revisited i) := by
  intro hvisit
  obtain ⟨c, hanswered, hmet⟩ := (p.inspect_ends v survey).flaw hvisit i rfl
  rw [h.met_eq_false hanswered] at hmet
  cases hmet

/-! ### The run -/

/-- **An audit goes on** from every state it goes through, with a visit less for every one made. -/
theorem Plot.Auditing.audit_eq (h : p.Auditing made pending survey) :
    ∃ fuel, fuel + made.length = 2 * p.store.size + 1 ∧
      p.audit = p.auditFrom fuel pending survey := by
  induction h with
  | start htop =>
    have hempty : ¬ p.tree.isEmpty = true := fun hempty => htop (eq_of_beq hempty)
    exact ⟨2 * p.store.size + 1, rfl, by rw [audit, if_neg hempty]⟩
  | step hmade hvisit ih =>
    obtain ⟨fuel, hfuel, haudit⟩ := ih
    have hvisits := hmade.orderly.visits
    rw [List.length_cons] at hvisits
    obtain ⟨fuel, rfl⟩ := Nat.exists_eq_add_one_of_ne_zero (show fuel ≠ 0 by omega)
    refine ⟨fuel, by rw [List.length_cons]; omega, ?_⟩
    rw [haudit, auditFrom_cons, hvisit, pure_bind]

/-- The next visit ends without a fault. -/
theorem Plot.Auditing.inspect_eq_ok (h : p.Auditing made (v :: rest) survey) :
    ∃ found, p.inspect v survey = Except.ok found := by
  obtain ⟨fuel, hfuel, haudit⟩ := h.audit_eq
  have hvisits := h.orderly.visits
  rw [List.length_cons] at hvisits
  obtain ⟨fuel, rfl⟩ := Nat.exists_eq_add_one_of_ne_zero (show fuel ≠ 0 by omega)
  rw [auditFrom_cons] at haudit
  cases hvisit : p.inspect v survey with
  | ok found => exact ⟨found, rfl⟩
  | error fault =>
    have hfault : p.audit = .error fault := by
      rw [haudit, hvisit]
      rfl
    rcases p.audit_cases with ⟨-, hok⟩ | ⟨flaw, hok⟩ | ⟨t, -, hok⟩ <;>
      · rw [hok] at hfault
        cases hfault

/-- A walk to the oldest entry that ends in a fault leaves it open which key decides. -/
theorem Store.decisiveKey_of_fault {s : Store} {turns : List Turn} {head : Turn}
    {link : ChildLink} {fault : Fault} (hi : i < s.size)
    (hhead : turns.find? (fun turn => decide (turn.bit.toInt < 0)) = some head)
    (hlink : link.child? = some (.branch head.branch))
    (hwalk : s.outermost .left link = .error fault) :
    s.decisiveKey i turns = throwThe Fault fault := by
  obtain ⟨link', hofChild, hlink'⟩ :=
    ChildLink.ofChild_eq_ok (ChildLink.slot_lt_of_child? hlink)
  obtain rfl : link' = link := ChildLink.ext_child? (hlink'.trans hlink.symm)
  rw [decisiveKey, key_eq_ok hi]
  simp only [hhead, hofChild]
  show (monadLift (s.outermost .left link') >>= _ : Inspection Key) = _
  rw [hwalk]
  rfl

/-- The walk to the oldest entry below the topmost level of a way down ends. -/
theorem Plot.Auditing.outermost_eq_ok {head : Turn} {link : ChildLink}
    (h : p.Auditing made (v :: rest) survey) (hanswered : p.answered? v = some (.leaf i))
    (hhead : v.turns.reverse.find? (fun turn => decide (turn.bit.toInt < 0)) = some head)
    (hlink : link.child? = some (.branch head.branch)) :
    ∃ oldest, p.store.outermost .left link = .ok oldest := by
  obtain ⟨found, hfound⟩ := h.inspect_eq_ok
  obtain ⟨hchild, hup⟩ := answered?_eq_some.mp hanswered
  have hlt : i < p.store.size := Store.lt_size_of_up hup
  have hplace : ¬ (p.store.nodeAt i).leafUp.place? ≠ some v.place := not_not.mpr hup
  have hnew : survey.leaves.getD i false = false := h.orderly.met_eq_false hanswered
  cases hwalk : p.store.outermost .left link with
  | ok oldest => exact ⟨oldest, rfl⟩
  | error fault =>
    -- the visit would end in the fault of the walk
    rw [inspect_of_child hchild hlt] at hfound
    simp only [Store.inspectEntry, hplace, hnew, if_false, Bool.false_eq_true,
      Store.decisiveKey_of_fault hlt hhead hlink hwalk] at hfound
    cases hfound

/-- **Every audit** ends in one of its states: with no place left, or at a place with a flaw. -/
theorem Plot.Auditing.ends {fuel : Nat} {found : Except Flaw Nat}
    (h : p.Auditing made pending survey)
    (hfound : p.auditFrom fuel pending survey = Except.ok found) :
    (∃ made survey, p.Auditing made [] survey ∧ found = .ok survey.entries) ∨
      ∃ made v rest survey flaw, p.Auditing made (v :: rest) survey ∧
        p.inspect v survey = throw flaw ∧ found = .error flaw := by
  induction fuel generalizing made pending survey with
  | zero =>
    cases pending with
    | nil =>
      cases hfound
      exact Or.inl ⟨made, survey, h, rfl⟩
    | cons v rest => cases hfound
  | succ fuel ih =>
    cases pending with
    | nil =>
      cases hfound
      exact Or.inl ⟨made, survey, h, rfl⟩
    | cons v rest =>
      rw [auditFrom_cons] at hfound
      obtain ⟨visited, hvisit⟩ := h.inspect_eq_ok
      cases visited with
      | ok next =>
        rw [hvisit] at hfound
        exact ih (h.step hvisit) hfound
      | error flaw =>
        rw [hvisit] at hfound
        cases hfound
        exact Or.inr ⟨made, v, rest, survey, flaw, h, hvisit, rfl⟩

end

/-- **The audit of any tree**, whatever its links, bits and keys are, ends without a fault, and does
not find that a slot is reached twice.  It ends the same along one shared trail, and with every
operation on machine words checked.  In each state that it goes through there are no more visits,
made or to make, than two for each slot and one; no slot has its link back to two of their places in
one role; and the next visit ends without a fault, and so does the walk to the oldest entry below
the topmost level above an entry. -/
theorem Plot.audit_visits (p : Plot) :
    (∃ found, p.audit = .ok found ∧ (∀ i, found ≠ .error (.revisited i)) ∧
      ∀ n, found = .ok n → n ≤ p.store.size) ∧
    p.auditAlong = p.audit ∧ p.auditWords = liftM (ExceptT.mk p.audit : Inspection Nat) ∧
    ∀ made pending survey, p.Auditing made pending survey →
      (∃ fuel, fuel + made.length = 2 * p.store.size + 1 ∧
        p.audit = p.auditFrom fuel pending survey) ∧
      made.length + pending.length ≤ 2 * p.store.size + 1 ∧ survey.entries ≤ p.store.size ∧
      ((made ++ pending).filterMap p.answered?).Nodup ∧
      ∀ v rest, pending = v :: rest → v.turns.length ≤ made.length ∧
        (∃ found, p.inspect v survey = Except.ok found ∧ ∀ i, found ≠ .error (.revisited i)) ∧
        ∀ i head link, p.answered? v = some (.leaf i) →
          v.turns.reverse.find? (fun turn => decide (turn.bit.toInt < 0)) = some head →
          link.child? = some (.branch head.branch) →
          ∃ oldest, p.store.outermost .left link = .ok oldest := by
  refine ⟨?_, p.auditAlong_eq, p.auditWords_eq, fun made pending survey h => ?_⟩
  · by_cases htop : p.tree.top = .null
    · refine ⟨.ok 0, audit_of_isEmpty (beq_iff_eq.mpr htop), nofun, ?_⟩
      rintro n ⟨⟩
      exact Nat.zero_le _
    obtain ⟨found, hfound⟩ : ∃ found, p.audit = .ok found := by
      rcases p.audit_cases with ⟨-, hok⟩ | ⟨flaw, hok⟩ | ⟨t, -, hok⟩ <;> exact ⟨_, hok⟩
    obtain ⟨fuel, -, haudit⟩ := (Auditing.start htop).audit_eq
    refine ⟨found, hfound, ?_⟩
    rcases (Auditing.start htop).ends (haudit.symm.trans hfound) with
      ⟨made, survey, h, rfl⟩ | ⟨made, v, rest, survey, flaw, h, hvisit, rfl⟩
    · refine ⟨nofun, ?_⟩
      rintro n ⟨⟩
      have := h.orderly.entries
      omega
    · refine ⟨?_, nofun⟩
      rintro i ⟨⟩
      exact h.orderly.inspect_ne_revisited i hvisit
  · have hvisits := h.orderly.visits
    have hentries := h.orderly.entries
    refine ⟨h.audit_eq, by omega, by omega, h.orderly.nodup_answered, ?_⟩
    rintro v rest rfl
    refine ⟨h.orderly.depth v List.mem_cons_self, ?_, ?_⟩
    · obtain ⟨found, hfound⟩ := h.inspect_eq_ok
      refine ⟨found, hfound, ?_⟩
      rintro i rfl
      exact h.orderly.inspect_ne_revisited i hfound
    · intro i head link hanswered hhead hlink
      exact h.outermost_eq_ok hanswered hhead hlink

theorem maxSlots_pos : 0 < maxSlots := by decide

/-- A branch over equal keys that is on its own left, where a walk to the left never ends. -/
def Plot.looped : Plot where
  tree := ⟨.of .branch 0 maxSlots_pos, false⟩
  store := ⟨#[⟨#[97], ⟨-1, .of .branch 0 maxSlots_pos, .of .leaf 0 maxSlots_pos, .root,
    .of 0 .left maxSlots_pos⟩⟩], by decide⟩

/-- The audit meets the branch once, and does not walk to the oldest entry. -/
theorem Plot.audit_visits_looped :
    looped.audit = .ok (.error (.branchElsewhere 0 (.under 0 .left))) ∧
      ∃ made pending survey, looped.Auditing made pending survey ∧ made.length = 1 ∧
        pending.length = 2 ∧ ((made ++ pending).filterMap looped.answered?).Nodup := by
  have h : looped.Auditing _ _ _ := .step (.start (by decide)) rfl
  exact ⟨by decide +kernel, _, _, _, h, rfl, rfl, (looped.audit_visits.2.2.2 _ _ _ h).2.2.2.1⟩

end BitTrie
