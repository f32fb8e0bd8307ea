import BitTrie.Proofs.Sorted

/-!
# The way down of an insertion

The way down compares a key with no more than one resident key on each branch, and of that only
the bits that no branch above has vouched for.  It ends at the leftmost group that agrees with the
key over all its bits, when there is one, and otherwise at the part of the tree whose first
entries agree with the key further than any others do.

## Main definitions

* `Reached` — what is known at a place on the way down.
* `Meets`, `Diverges` — the two ways to end.
* `Landed` — **what a landing says** of a sorted shape.

## Main results

* `Reached.down`, `Reached.turn` — what is known is known further down.
* `Store.landFrom_landed`, `Plot.landing_landed` — the way down ends, in a landing that is right.
* `Meets.leftmost`, `Diverges.none_agrees` — what a landing says of the other groups.
-/

namespace BitTrie

/-- What is known of a key `k` of `bits` bits at the end of `path`, where `t` hangs: every branch
on the way was left on the side of its bit, no branch vouches for less than it decides on, and
some first entry agrees with the key on the bits before `pos`. -/
structure Reached (key : Slot → Key) (k : Key) (bits : Nat) (path : Path) (t : Shape)
    (pos : Nat) : Prop where
  ordinary : path.Ordinary
  turns : ∀ f ∈ path, k.bitAt f.bit.toNat = f.side.bit
  same : ∀ f ∈ path, ∀ x ∈ t.firsts, k.SameBits (key x) (min f.bit.toNat bits)
  known : ∃ x ∈ t.firsts, k.SameBits (key x) pos
  pos_le : pos ≤ bits

/-- A subtree of equal entries at the end of `path` agrees with a key `k` of `bits` bits. -/
structure Meets (key : Slot → Key) (k : Key) (bits : Nat) (path : Path) (c : Shape) : Prop where
  ordinary : path.Ordinary
  tied : ∃ n, c.Tied n
  turns : ∀ f ∈ path, k.bitAt f.bit.toNat = f.side.bit
  agrees : k.SameBits (key c.oldest) bits

/-- All first entries of what hangs at the end of `path` agree with a key `k` of `bits` bits up to
bit `d`, which is past all bits of the path, and have the other bit there. -/
structure Diverges (key : Slot → Key) (k : Key) (bits : Nat) (path : Path) (u : Shape)
    (d : Nat) : Prop where
  ordinary : path.Ordinary
  turns : ∀ f ∈ path, k.bitAt f.bit.toNat = f.side.bit
  lt_bits : d < bits
  past : ∀ f ∈ path, f.bit.toNat < d
  same : ∀ x ∈ u.firsts, k.SameBits (key x) d
  differs : ∀ x ∈ u.firsts, (key x).bitAt d ≠ k.bitAt d

/-- What a landing says of a shape. -/
inductive Landed (key : Slot → Key) (k : Key) (bits : Nat) (unique : Bool) :
    Shape → Landing → Prop where
  /-- An equal key is present. -/
  | present {path : Path} {i : Slot} (hunique : unique = true)
    (h : Meets key k bits path (.leaf i)) :
    Landed key k bits unique (path.fill (.leaf i)) (.present i)
  /-- There are several entries with an equal key. -/
  | append {path : Path} {c : Shape} {head : Slot} (hunique : unique = false)
    (hroot : c.root = .branch head) (h : Meets key k bits path c) :
    Landed key k bits unique (path.fill c) (.append head)
  /-- There is one entry with an equal key. -/
  | pair {path : Path} {i : Slot} (hunique : unique = false)
    (h : Meets key k bits path (.leaf i)) :
    Landed key k bits unique (path.fill (.leaf i)) (.splice path.place (.leaf i) .right (-1))
  /-- No entry has an equal key. -/
  | apart {path : Path} {u : Shape} {d : Nat} (h : Diverges key k bits path u d) :
    Landed key k bits unique (path.fill u) (.apart k path.place u.root d)

/-- Every group has one entry. -/
def Shape.Single (t : Shape) : Prop := ∀ c ∈ t.clumps, ∃ i, c = leaf i

section

variable {key : Slot → Key} {k : Key} {bits pos d : Nat} {path : Path} {t u : Shape} {f : Fork}

/-- What is known at a branch is known on the side of the key's bit, when all that the branch
vouches for is. -/
theorem Reached.down (h : Reached key k bits path (f.close t) pos) (hparts : f.Parts key t)
    (hturn : k.bitAt f.bit.toNat = f.side.bit)
    (hknown : ∃ x ∈ (f.close t).firsts, k.SameBits (key x) d) (hmin : min f.bit.toNat bits ≤ d)
    (hd : d ≤ bits) : Reached key k bits (f :: path) t d := by
  obtain ⟨x, hx, hxd⟩ := hknown
  have hsub : ∀ y ∈ t.firsts, y ∈ (f.close t).firsts :=
    fun y hy => (Fork.mem_firsts_close hparts.nonneg).mpr (Or.inl hy)
  -- the branch's own key carries the agreement of `x` over to the others
  have hbelow : ∀ y ∈ t.firsts, (key x).SameBits (key y) f.bit.toNat :=
    fun y hy => (hparts.same x hx).trans (hparts.same y (hsub y hy)).symm
  refine ⟨Path.ordinary_cons.mpr ⟨hparts.nonneg, h.ordinary⟩, ?_, ?_, ?_, hd⟩
  · intro g hg
    rcases List.mem_cons.mp hg with rfl | hg
    · exact hturn
    · exact h.turns g hg
  · intro g hg y hy
    rcases List.mem_cons.mp hg with rfl | hg
    · exact (hxd.mono hmin).trans ((hbelow y hy).mono (Nat.min_le_left _ _))
    · exact h.same g hg y (hsub y hy)
  · rcases Nat.lt_or_ge f.bit.toNat d with hlt | hge
    · refine ⟨x, ?_, hxd⟩
      rcases (Fork.mem_firsts_close hparts.nonneg).mp hx with hx | hx
      · exact hx
      · have hbit := hxd f.bit.toNat hlt
        rw [hturn, hparts.other x hx] at hbit
        cases hside : f.side <;> simp [hside, Side.opposite, Side.bit] at hbit
    · obtain ⟨y, hy⟩ := List.exists_mem_of_ne_nil _ t.firsts_ne_nil
      exact ⟨y, hy, hxd.trans ((hbelow y hy).mono hge)⟩

/-- Where all first entries agree with the key up to a bit that comes before the end of the key,
and have another bit there, no branch above has decided on that bit or a later one. -/
theorem Reached.diverges (h : Reached key k bits path u pos)
    (hsorted : (path.fill u).Sorted key) (hd : d < bits)
    (hsame : ∀ x ∈ u.firsts, k.SameBits (key x) d)
    (hdiff : ∀ x ∈ u.firsts, (key x).bitAt d ≠ k.bitAt d) : Diverges key k bits path u d := by
  refine ⟨h.ordinary, h.turns, hd, ?_, hsame, hdiff⟩
  intro f hf
  obtain ⟨x, hx⟩ := List.exists_mem_of_ne_nil _ u.firsts_ne_nil
  obtain ⟨hparts, -⟩ := hsorted.parts h.ordinary hf
  rcases Nat.lt_trichotomy f.bit.toNat d with hlt | heq | hgt
  · exact hlt
  · exact absurd ((hparts.taken x hx).trans (h.turns f hf).symm) (heq ▸ hdiff x hx)
  · exact absurd (h.same f hf x hx d (Nat.lt_min.mpr ⟨hgt, hd⟩)).symm (hdiff x hx)

/-! ### What the landings say of other groups -/

/-- Nothing that hangs beside the way down has the key's bit where they were parted. -/
theorem bitAt_ne_of_turn (hsorted : (path.fill t).Sorted key) (hpath : path.Ordinary)
    (hturns : ∀ f ∈ path, k.bitAt f.bit.toNat = f.side.bit) (hf : f ∈ path) {x : Slot}
    (hx : x ∈ f.other.firsts) : k.bitAt f.bit.toNat ≠ (key x).bitAt f.bit.toNat := by
  obtain ⟨hparts, -⟩ := hsorted.parts hpath hf
  rw [hturns f hf, hparts.other x hx]
  cases f.side <;> simp [Side.opposite, Side.bit]

theorem Path.mem_leftOf {c : Shape} (h : c ∈ path.leftOf) :
    ∃ f ∈ path, f.side = .right ∧ f.other = c := by
  induction path with
  | nil => cases h
  | cons f fs ih =>
    rcases List.mem_append.mp h with h | h
    · obtain ⟨g, hg, hside, hother⟩ := ih h
      exact ⟨g, List.mem_cons_of_mem _ hg, hside, hother⟩
    · refine ⟨f, List.mem_cons_self, ?_⟩
      cases hside : f.side with
      | left => simp [hside] at h
      | right => exact ⟨rfl, by simpa [hside, eq_comm] using h⟩

theorem Path.mem_rightOf {c : Shape} (h : c ∈ path.rightOf) :
    ∃ f ∈ path, f.side = .left ∧ f.other = c := by
  induction path with
  | nil => cases h
  | cons f fs ih =>
    rcases List.mem_append.mp h with h | h
    · refine ⟨f, List.mem_cons_self, ?_⟩
      cases hside : f.side with
      | left => exact ⟨rfl, by simpa [hside, eq_comm] using h⟩
      | right => simp [hside] at h
    · obtain ⟨g, hg, hside, hother⟩ := ih h
      exact ⟨g, List.mem_cons_of_mem _ hg, hside, hother⟩

/-- No group on the left of the way down agrees with a key that has no ones past its end. -/
theorem not_sameBits_of_leftOf (hsorted : (path.fill t).Sorted key) (hpath : path.Ordinary)
    (hturns : ∀ f ∈ path, k.bitAt f.bit.toNat = f.side.bit)
    (hend : ∀ p, bits ≤ p → k.bitAt p = false) {c : Shape}
    (hc : c ∈ path.leftOf.flatMap Shape.clumps) : ¬ k.SameBits (key c.oldest) bits := by
  obtain ⟨o, ho, hco⟩ := List.mem_flatMap.mp hc
  obtain ⟨f, hf, hside, rfl⟩ := Path.mem_leftOf ho
  have hone : k.bitAt f.bit.toNat = true := by rw [hturns f hf, hside]; rfl
  have hlt : f.bit.toNat < bits := by
    by_contra hge
    rw [hend _ (Nat.le_of_not_lt hge)] at hone
    cases hone
  exact fun hsame => bitAt_ne_of_turn hsorted hpath hturns hf (List.mem_map_of_mem hco)
    (hsame f.bit.toNat hlt)

/-- The group a key meets is the leftmost one that agrees with it. -/
theorem Meets.leftmost {c c' : Shape} (h : Meets key k bits path c)
    (hsorted : (path.fill c).Sorted key) (hend : ∀ p, bits ≤ p → k.bitAt p = false)
    (hc : c' ∈ path.leftOf.flatMap Shape.clumps) : ¬ k.SameBits (key c'.oldest) bits :=
  not_sameBits_of_leftOf hsorted h.ordinary h.turns hend hc

/-- No group agrees with a key that diverges. -/
theorem Diverges.none_agrees {c : Shape} (h : Diverges key k bits path u d)
    (hsorted : (path.fill u).Sorted key) (hc : c ∈ (path.fill u).clumps) :
    ¬ k.SameBits (key c.oldest) bits := by
  intro hsame
  rw [Path.clumps_fill h.ordinary, List.mem_append, List.mem_append] at hc
  have hbeside : ∀ f ∈ path, c ∉ f.other.clumps := fun f hf hc =>
    bitAt_ne_of_turn hsorted h.ordinary h.turns hf (List.mem_map_of_mem hc)
      (hsame f.bit.toNat (Nat.lt_trans (h.past f hf) h.lt_bits))
  rcases hc with (hc | hc) | hc
  · obtain ⟨o, ho, hc⟩ := List.mem_flatMap.mp hc
    obtain ⟨f, hf, -, rfl⟩ := Path.mem_leftOf ho
    exact hbeside f hf hc
  · exact h.differs c.oldest (List.mem_map_of_mem hc) (hsame d h.lt_bits).symm
  · obtain ⟨o, ho, hc⟩ := List.mem_flatMap.mp hc
    obtain ⟨f, hf, -, rfl⟩ := Path.mem_rightOf ho
    exact hbeside f hf hc

end

/-! ### The walk -/

/-- How far the comparison with a key that is met has come, when only the bits from `pos` up to
`limit` are asked for. -/
def Key.reach (k met : Key) (pos limit : Nat) : Nat :=
  if pos < limit then k.firstDiff met pos limit else pos

namespace Store

variable {s : Store} {key : Slot → Key} {k : Key} {bits pos fuel i : Nat} {unique : Bool}
  {path : Path} {place : Place} {link : ChildLink} {t : Shape}

/-- The way down at a leaf. -/
theorem landFrom_of_leaf (hlink : link.child? = some (.leaf i)) (hi : i < s.size)
    (hpos : pos ≤ 2147483648) (hbits : bits ≤ 2147483648) :
    s.landFrom unique k bits (fuel + 1) place link pos =
      if k.firstDiff (s.keyAt i) pos bits < bits then
        .ok (.apart k place (.leaf i) (k.firstDiff (s.keyAt i) pos bits))
      else if unique then .ok (.present i) else .ok (.splice place (.leaf i) .right (-1)) := by
  rw [landFrom, follow_eq_ok hlink]
  simp only [bind, Except.bind, Child.slot_leaf, key_eq_ok hi, Key.scanDiff_eq_ok hpos hbits]
  rfl

/-- The way down at a branch over equal keys, of which `o` is the oldest. -/
theorem landFrom_of_neg {o : Slot} (hlink : link.child? = some (.branch i)) (hi : i < s.size)
    (hneg : s.levelAt i < 0) (holdest : s.outermost .left link = .ok o) (ho : o < s.size)
    (hpos : pos ≤ 2147483648) (hbits : bits ≤ 2147483648) :
    s.landFrom unique k bits (fuel + 1) place link pos =
      if k.firstDiff (s.keyAt o) pos bits < bits then
        .ok (.apart k place (.branch i) (k.firstDiff (s.keyAt o) pos bits))
      else if unique then .error .duplicatesInUnique else .ok (.append i) := by
  have hover : (s.nodeAt i).overEqualKeys = true := decide_eq_true hneg
  rw [landFrom, follow_eq_ok hlink]
  simp only [bind, Except.bind, Child.slot_branch, key_eq_ok hi, node_eq_ok hi, hover, if_true,
    holdest, key_eq_ok ho, Key.scanDiff_eq_ok hpos hbits]
  rfl

/-- The way down at a branch on a bit. -/
theorem landFrom_of_nonneg (hlink : link.child? = some (.branch i)) (hi : i < s.size)
    (hnonneg : 0 ≤ s.levelAt i) (hpos : pos ≤ 2147483648) (hbits : bits ≤ 2147483648) :
    s.landFrom unique k bits (fuel + 1) place link pos =
      if k.reach (s.keyAt i) pos (min (s.levelAt i).toNat bits) < min (s.levelAt i).toNat bits then
        .ok (.apart k place (.branch i) (k.reach (s.keyAt i) pos (min (s.levelAt i).toNat bits)))
      else s.landFrom unique k bits fuel (.under i (.ofBit (k.bitAt (s.levelAt i).toNat)))
        ((s.nodeAt i).child (.ofBit (k.bitAt (s.levelAt i).toNat)))
        (k.reach (s.keyAt i) pos (min (s.levelAt i).toNat bits)) := by
  have hover : ¬ (s.nodeAt i).overEqualKeys = true :=
    fun h => absurd (of_decide_eq_true h) (Int.not_lt.mpr hnonneg)
  have hmin : min (s.levelAt i).toNat bits ≤ 2147483648 :=
    Nat.le_trans (Nat.min_le_right _ _) hbits
  rw [landFrom, follow_eq_ok hlink]
  simp only [bind, Except.bind, Child.slot_branch, key_eq_ok hi, node_eq_ok hi, hover,
    Bool.false_eq_true, if_false]
  rw [levelAt, Key.reach] at *
  split
  · rw [Key.scanDiff_eq_ok hpos hmin]
    rfl
  · next hlt => exact if_neg hlt

end Store

section

variable {key : Slot → Key} {k m : Key} {len pos limit : Nat} {path : Path} {c : Shape}

theorem Key.sameBits_reach (h : k.SameBits m pos) (limit : Nat) :
    k.SameBits m (k.reach m pos limit) := by
  unfold reach
  split
  · exact sameBits_firstDiff h limit
  · exact h

theorem Key.bitAt_ne_of_reach_lt (h : k.reach m pos limit < limit) :
    k.bitAt (k.reach m pos limit) ≠ m.bitAt (k.reach m pos limit) := by
  unfold reach at h ⊢
  split at h
  · next hlt =>
    rw [if_pos hlt]
    exact bitAt_ne_of_firstDiff_lt h
  · next hlt => exact absurd h hlt

theorem Key.reach_le (hpos : pos ≤ 8 * len) (hlimit : limit ≤ 8 * len) :
    k.reach m pos limit ≤ 8 * len := by
  unfold reach
  split
  · exact firstDiff_le hpos hlimit
  · exact hpos

/-- At equal entries, the bits that are not compared again are those of the oldest of them. -/
theorem Reached.sameBits_oldest {bits : Nat} (h : Reached key k bits path c pos) {n : Nat}
    (hc : c.Tied n) : k.SameBits (key c.oldest) pos := by
  obtain ⟨x, hx, hknown⟩ := h.known
  rw [hc.firsts_eq, List.mem_singleton] at hx
  exact hx ▸ hknown

/-- The end of the way down at equal entries with another key. -/
theorem Reached.diverges_of_lt {bits : Nat} (h : Reached key k bits path c pos)
    (hsorted : (path.fill c).Sorted key) {n : Nat} (hc : c.Tied n)
    (hlt : k.firstDiff (key c.oldest) pos bits < bits) :
    Diverges key k bits path c (k.firstDiff (key c.oldest) pos bits) := by
  refine h.diverges hsorted hlt ?_ ?_
  · intro y hy
    rw [hc.firsts_eq, List.mem_singleton] at hy
    rw [hy]
    exact Key.sameBits_firstDiff (h.sameBits_oldest hc) bits
  · intro y hy
    rw [hc.firsts_eq, List.mem_singleton] at hy
    rw [hy]
    exact (Key.bitAt_ne_of_firstDiff_lt hlt).symm

/-- The end of the way down at equal entries with the same key. -/
theorem Reached.meets_of_le {bits : Nat} (h : Reached key k bits path c pos) {n : Nat}
    (hc : c.Tied n) (hle : bits ≤ k.firstDiff (key c.oldest) pos bits) :
    Meets key k bits path c :=
  ⟨h.ordinary, ⟨n, hc⟩, h.turns, (Key.sameBits_firstDiff (h.sameBits_oldest hc) bits).mono hle⟩

variable {i : Slot} {b : Int} {l r : Shape} {bits : Nat}

/-- At a branch on a bit, the bits that are not compared again are those of its own key. -/
theorem Reached.sameBits_own (h : Reached key k bits path (.branch i b l r) pos)
    (hbranch : (Shape.branch i b l r).Sorted key) (hb : 0 ≤ b) (hlt : pos < min b.toNat bits) :
    k.SameBits (key i) pos := by
  obtain ⟨x, hx, hknown⟩ := h.known
  have hsame := hbranch.parted.sameBits hb x hx
  exact hknown.trans (hsame.mono (Nat.le_of_lt (Nat.lt_of_lt_of_le hlt (Nat.min_le_left _ _))))

/-- The end of the way down at a branch on a bit, above which the keys part. -/
theorem Reached.diverges_of_reach_lt (h : Reached key k bits path (.branch i b l r) pos)
    (hsorted : (path.fill (.branch i b l r)).Sorted key) (hb : 0 ≤ b)
    (hlt : k.reach (key i) pos (min b.toNat bits) < min b.toNat bits) :
    Diverges key k bits path (.branch i b l r) (k.reach (key i) pos (min b.toNat bits)) := by
  have hbranch := hsorted.of_fill h.ordinary
  have hpos : pos < min b.toNat bits := by
    by_contra hge
    rw [Key.reach, if_neg hge] at hlt
    exact hge hlt
  have hsame := Key.sameBits_reach (h.sameBits_own hbranch hb hpos) (min b.toNat bits)
  have hdiff := Key.bitAt_ne_of_reach_lt hlt
  have hbelow := hbranch.parted.sameBits hb
  refine h.diverges hsorted (Nat.lt_of_lt_of_le hlt (Nat.min_le_right _ _)) ?_ ?_
  · intro y hy
    exact hsame.trans ((hbelow y hy).symm.mono (by omega))
  · intro y hy
    rw [hbelow y hy _ (by omega)]
    exact hdiff.symm

/-- What is known of the key below a branch on a bit. -/
theorem Reached.known_reach (h : Reached key k bits path (.branch i b l r) pos)
    (hbranch : (Shape.branch i b l r).Sorted key) (hb : 0 ≤ b) :
    ∃ x ∈ (Shape.branch i b l r).firsts,
      k.SameBits (key x) (k.reach (key i) pos (min b.toNat bits)) := by
  rcases Nat.lt_or_ge pos (min b.toNat bits) with hlt | hle
  · exact ⟨i, hbranch.own_mem hb, Key.sameBits_reach (h.sameBits_own hbranch hb hlt) _⟩
  · rw [Key.reach, if_neg (Nat.not_lt.mpr hle)]
    exact h.known

/-- One step down, past a branch whose bit the comparison has come to. -/
theorem Reached.turn {f : Fork} {t : Shape} (h : Reached key k (8 * len) path (f.close t) pos)
    (hsorted : (f.close t).Sorted key) (hf : 0 ≤ f.bit)
    (hturn : k.bitAt f.bit.toNat = f.side.bit)
    (hge : min f.bit.toNat (8 * len) ≤
      k.reach (key f.slot) pos (min f.bit.toNat (8 * len))) :
    Reached key k (8 * len) (f :: path) t
      (k.reach (key f.slot) pos (min f.bit.toNat (8 * len))) := by
  have hparts := ((Shape.sorted_close hf).mp hsorted).1
  have hle := Key.reach_le (k := k) (m := key f.slot) h.pos_le (Nat.min_le_right f.bit.toNat _)
  obtain ⟨i, b, side, other⟩ := f
  cases side with
  | left => exact h.down hparts hturn (known_reach h hsorted hf) hge hle
  | right => exact h.down hparts hturn (known_reach h hsorted hf) hge hle

/-- At the top nothing is known of a key. -/
theorem Reached.top (key : Slot → Key) (k : Key) (bits : Nat) (t : Shape) :
    Reached key k bits [] t 0 :=
  ⟨fun _ hf => absurd hf List.not_mem_nil, fun _ hf => absurd hf List.not_mem_nil,
    fun _ hf => absurd hf List.not_mem_nil,
    ⟨t.oldest, t.oldest_mem_firsts, fun q hq => absurd hq (Nat.not_lt_zero q)⟩, Nat.zero_le _⟩

end

/-- **The way down** ends, in a landing that is right. -/
theorem Store.landFrom_landed {s : Store} {k : Key} {len pos fuel : Nat} {unique : Bool}
    {path : Path} {link : ChildLink} {t : Shape} (hlen : len ≤ maxKeyLength)
    (hreached : Reached s.keyAt k (8 * len) path t pos)
    (hsorted : (path.fill t).Sorted s.keyAt) (hsingle : unique = true → (path.fill t).Single)
    (hhangs : s.Hangs .root (path.fill t))
    (hnodup : (path.fill t).branches.Nodup) (hlink : link.child? = some t.root)
    (hfuel : t.height < fuel) :
    ∃ landing, s.landFrom unique k (8 * len) fuel path.place link pos = .ok landing ∧
      Landed s.keyAt k (8 * len) unique (path.fill t) landing := by
  induction t generalizing path pos link fuel with
  | leaf i =>
    obtain ⟨fuel, rfl⟩ := Nat.exists_eq_add_one_of_ne_zero (Nat.ne_of_gt (Nat.zero_lt_of_lt hfuel))
    have hi : i < s.size := lt_size_of_up (Store.hangs_fill.mp hhangs).2
    unfold maxKeyLength at hlen
    have hpos := hreached.pos_le
    rw [landFrom_of_leaf hlink hi (by omega) (by omega)]
    split
    · next hlt => exact ⟨_, rfl, .apart (hreached.diverges_of_lt hsorted (.leaf i) hlt)⟩
    · next hge =>
      have hmeets := hreached.meets_of_le (.leaf i) (Nat.le_of_not_lt hge)
      cases unique with
      | true => exact ⟨_, rfl, .present rfl hmeets⟩
      | false => exact ⟨_, rfl, .pair rfl hmeets⟩
  | branch i b l r ihl ihr =>
    obtain ⟨fuel, rfl⟩ := Nat.exists_eq_add_one_of_ne_zero (Nat.ne_of_gt (Nat.zero_lt_of_lt hfuel))
    obtain ⟨hlines, ht⟩ := Store.hangs_fill.mp hhangs
    have hi : i < s.size := lt_size_of_up ht.up_root
    have hb : s.levelAt i = b := ht.2.1
    have hlen' := hlen
    rw [maxKeyLength] at hlen'
    have hpos := hreached.pos_le
    have hbranch := hsorted.of_fill hreached.ordinary
    rcases Int.lt_or_le b 0 with hneg | hnonneg
    · obtain ⟨n, htied⟩ := hbranch.tied_of_neg hneg
      obtain ⟨hnodup', -, -⟩ := List.nodup_append.mp
        ((Path.branches_fill path _).nodup_iff.mp hnodup)
      have ho := ht.lt_size.1 _ (Shape.oldest_mem_leaves _)
      rw [landFrom_of_neg hlink hi (by omega) (ht.outermost_left hnodup' hlink) ho
        (by omega) (by omega)]
      split
      · next hlt => exact ⟨_, rfl, .apart (hreached.diverges_of_lt hsorted htied hlt)⟩
      · next hge =>
        have hmeets := hreached.meets_of_le htied (Nat.le_of_not_lt hge)
        cases unique with
        | true =>
          -- a subtree of equal entries is a group of several
          obtain ⟨j, hj⟩ := hsingle rfl (.branch i b l r) (by
            rw [Path.clumps_fill hreached.ordinary, htied.clumps_eq]
            simp)
          cases hj
        | false => exact ⟨_, rfl, .append rfl rfl hmeets⟩
    · rw [landFrom_of_nonneg hlink hi (by omega) (by omega) (by omega), hb]
      split
      · next hlt => exact ⟨_, rfl, .apart (hreached.diverges_of_reach_lt hsorted hnonneg hlt)⟩
      · next hge =>
        have hge' := Nat.le_of_not_lt hge
        obtain ⟨-, -, hleft, hright, -, -⟩ := ht
        simp only [Shape.height] at hfuel
        cases hside : k.bitAt b.toNat with
        | false =>
          have hdown := Reached.turn (f := ⟨i, b, .left, r⟩) hreached hbranch hnonneg hside hge'
          exact ihl hdown hsorted hsingle hhangs hnodup hleft (by omega)
        | true =>
          have hdown := Reached.turn (f := ⟨i, b, .right, l⟩) hreached hbranch hnonneg hside hge'
          exact ihr hdown hsorted hsingle hhangs hnodup hright (by omega)

/-- **The landing** of a key in a sorted tree. -/
theorem Plot.landing_landed {p : Plot} {k : Key} {len : Nat} {t : Shape}
    (hlen : len ≤ maxKeyLength) (hp : p.Holds t) (hnodup : t.branches.Nodup)
    (hsorted : t.Sorted p.store.keyAt) (hsingle : p.tree.unique = true → t.Single) :
    ∃ landing, p.landing k (8 * len) = .ok landing ∧
      Landed p.store.keyAt k (8 * len) p.tree.unique t landing := by
  exact Store.landFrom_landed hlen (.top p.store.keyAt k (8 * len) t) hsorted hsingle hp.2 hnodup
    hp.1 (Nat.lt_succ_of_le (hp.2.height_le hnodup))

end BitTrie
