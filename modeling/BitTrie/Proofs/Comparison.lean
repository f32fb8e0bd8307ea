import BitTrie.Agreement
import BitTrie.Proofs.Certified
import BitTrie.Proofs.Chains
import BitTrie.Proofs.Outline
import BitTrie.Proofs.Prefixes

/-!
# What a comparison with an index proves

A comparison asks a tree about the keys of an index only, and adds up entries.  Yet when it passes,
the groups of the tree are the rows of the index, one by one, and every lookup is answered as the
index answers it.  Nothing needs to be known of the links beforehand: a tree that is compared has
passed an audit, so its groups answer everything that is asked.  The rows are among the groups, and
since there are no more entries than slots, no group is left over.

## Main definitions

* `Plot.Legible` — a tree whose groups answer everything that is asked of it.
* `Keying.Admits`, `Keying.span` — keys that are their own names, and how far they are compared.
* `Plot.IndexedBy` — a tree that is what an index says.

## Main results

* `Plot.legible_of_audit` — **a tree without a flaw is legible**.
* `Plot.Legible.rows_eq` — where a comparison passes, the groups are the rows.
* `Plot.Legible.agreesWith_eq_ok` — where the groups are the rows, a comparison passes.
* `Plot.Legible.exists_found` — and lookups over any number of bytes give the same.
* `Plot.agreesWith_sound` — **a comparison that passes is right about all lookups**.
-/

namespace BitTrie

/-! ### Questions that are passed over -/

theorem expectEntries_eq_ok_iff {total : Nat} {found : Except Flaw Nat} :
    expectEntries total found = .ok () ↔ found = .ok total := by
  cases found with
  | error flaw => simp [expectEntries]
  | ok entries =>
    unfold expectEntries
    split <;> simp_all

namespace Outcome

variable {α β : Type} {b : β}

/-- What is done with an answer comes to an end when the question does. -/
theorem bind_eq_ok_iff {o : Outcome α} {k : α → Outcome β} :
    o >>= k = .ok b ↔ ∃ a, o = .ok a ∧ k a = .ok b := by
  cases o with
  | error fault => simp [bind, Except.bind]
  | ok a => simp [bind, Except.bind]

theorem forM_eq_ok_iff {ask : α → Outcome Unit} {xs : List α} :
    xs.forM ask = .ok () ↔ ∀ y ∈ xs, ask y = .ok () := by
  induction xs with
  | nil => simp [pure, Except.pure]
  | cons y ys ih =>
    rw [List.forM_eq_forM, List.forM_cons, bind_eq_ok_iff, List.forall_mem_cons, ← ih,
      List.forM_eq_forM]
    exact ⟨fun ⟨(), hy, hys⟩ => ⟨hy, hys⟩, fun ⟨hy, hys⟩ => ⟨(), hy, hys⟩⟩

end Outcome

theorem Row.oldest_eq_ok_iff {r : Row} {first : Slot} :
    r.oldest = .ok first ↔ ∃ later, r.slots = first :: later := by
  unfold oldest
  cases r.slots with
  | nil => simp
  | cons i later => simp

namespace Plot

variable {p : Plot} {x : Index} {strings : Bool} {r : Row}

/-- What is asked about a row. -/
theorem agreesOn_eq_ok_iff : p.agreesOn strings r = .ok () ↔ ∃ first later,
    r.slots = first :: later ∧
      (if strings then p.findString r.key else p.find r.key r.key.size) = .ok (some first) ∧
        p.store.equalEntries first = .ok r.slots ∧ p.store.prevEqual first = .ok none := by
  have hasked : p.agreesOn strings r =
      (if strings then p.findString r.key else p.find r.key r.key.size) >>= fun found =>
        r.oldest >>= fun oldest => expectEqual Written.slotOption found (some oldest) >>= fun _ =>
          p.store.equalEntries oldest >>= fun entries =>
            expectEqual Written.slotList entries r.slots >>= fun _ =>
              p.store.prevEqual oldest >>= fun prev =>
                expectEqual Written.slotOption prev none := by
    cases strings <;> rfl
  simp only [hasked, Outcome.bind_eq_ok_iff, Row.oldest_eq_ok_iff]
  constructor
  · rintro ⟨_, hfound, first, ⟨later, hslots⟩, ⟨⟩, hsame, _, hchain, ⟨⟩, hsame', _, hprev, hsame''⟩
    rw [expectEqual_eq_ok_iff] at hsame hsame' hsame''
    subst hsame hsame' hsame''
    exact ⟨first, later, hslots, hfound, hchain, hprev⟩
  · rintro ⟨first, later, hslots, hfound, hchain, hprev⟩
    exact ⟨_, hfound, first, ⟨later, hslots⟩, (), expectEqual_eq_ok_iff.mpr rfl, _, hchain, (),
      expectEqual_eq_ok_iff.mpr rfl, _, hprev, expectEqual_eq_ok_iff.mpr rfl⟩

/-- What is asked about an index. -/
theorem agreesWith_eq_ok_iff : p.agreesWith x strings = .ok () ↔
    p.audit = .ok (.ok x.total) ∧ (∃ first, p.first = .ok first ∧ x.first = .ok first) ∧
      ∀ r ∈ x.rows, p.agreesOn strings r = .ok () := by
  simp only [agreesWith, Outcome.bind_eq_ok_iff, Outcome.forM_eq_ok_iff]
  constructor
  · rintro ⟨_, haudit, ⟨⟩, hsame, first, hfirst, _, hfirst', ⟨⟩, hsame', hrows⟩
    rw [expectEntries_eq_ok_iff] at hsame
    rw [expectEqual_eq_ok_iff] at hsame'
    subst hsame hsame'
    exact ⟨haudit, ⟨first, hfirst, hfirst'⟩, hrows⟩
  · rintro ⟨haudit, ⟨first, hfirst, hfirst'⟩, hrows⟩
    exact ⟨_, haudit, (), expectEntries_eq_ok_iff.mpr rfl, first, hfirst, first, hfirst', (),
      expectEqual_eq_ok_iff.mpr rfl, hrows⟩

end Plot

/-! ### Keys that are their own names -/

namespace Keying

variable {keying : Keying} {a b k : Key}

/-- The keys that are their own names. -/
def Admits : Keying → Key → Prop
  | width bytes, k => k.size = bytes
  | string, k => 0 ∉ k

instance (keying : Keying) (k : Key) : Decidable (keying.Admits k) :=
  match keying with
  | width bytes => inferInstanceAs (Decidable (k.size = bytes))
  | string => inferInstanceAs (Decidable (0 ∉ k))

/-- The number of bytes that a key is inserted over. -/
def span : Keying → Key → Nat
  | width bytes, _ => bytes
  | string, k => k.stringLength + 1

/-- Whether keys are looked up as strings. -/
def isString : Keying → Bool
  | width _ => false
  | string => true

theorem Admits.fits (h : keying.Admits k) : keying.Fits k (keying.span k) := by
  cases keying with
  | width bytes => exact ⟨h, rfl⟩
  | string => rfl

theorem Admits.name_eq (h : keying.Admits k) : keying.name k = k := by
  cases keying with
  | width bytes => rfl
  | string =>
    -- no byte ends the string before the key ends
    have hlength : k.stringLength = k.size := Array.findIdx_eq_size_of_false fun x hx =>
      beq_eq_false_iff_ne.mpr fun heq => h (heq ▸ hx)
    rw [name, Key.string, Key.truncate, hlength, Array.extract_size]

/-- Keys agree over the bytes of one of them when they are the same. -/
theorem Admits.alike_iff (ha : keying.Admits a) (hb : keying.Admits b) :
    a.Alike b (keying.span b) ↔ a = b := by
  have hiff := hb.fits.alike_iff ha.fits
  rwa [ha.name_eq, hb.name_eq] at hiff

/-- Dictionary order is the order of the keys as endless strings. -/
theorem Admits.before (ha : keying.Admits a) (hb : keying.Admits b) (h : a.Precedes b) :
    a.before b = true := by
  have hne : a ≠ b := by
    rintro rfl
    exact h.asymm h
  cases keying with
  | string =>
    have hname : a.string = a := ha.name_eq
    have hname' : b.string = b := hb.name_eq
    have hlt := Key.before_of_precedes h (by rwa [hname, hname'])
    rwa [hname, hname'] at hlt
  | width bytes =>
    obtain ⟨i, hsame, hlt⟩ := h
    have hsize : a.size = b.size := ha.trans hb.symm
    -- past the end both keys read zero
    have hi : i < b.size := by
      refine Nat.lt_of_not_le fun hle => ?_
      rw [Key.byteAt_of_size_le hle] at hlt
      exact UInt8.not_lt.mpr UInt8.zero_le hlt
    refine bytesBefore_of_getElem? (i := i) ?_ (Key.getElem?_toList hi) ?_
    · intro j hj
      have hj' : j < b.size := Nat.lt_trans hj hi
      rw [Key.getElem?_toList hj', Key.getElem?_toList (hsize ▸ hj'), hsame j hj]
    · intro x hx
      rw [Key.getElem?_toList (hsize ▸ hi), Option.some.injEq] at hx
      rwa [← hx]

end Keying

/-! ### Trees whose groups answer everything -/

/-- A tree whose groups answer everything that is asked of it. -/
structure Plot.Legible (p : Plot) : Prop where
  audit : p.audit = .ok (.ok p.entries.length)
  finds : ∀ query len, p.find query len = .ok ((p.groups.find? fun g =>
    decide ((p.store.keyAt g.oldest).Alike query len)).map (·.oldest))
  ascending : p.groups.Pairwise fun g g' =>
    (p.store.keyAt g.oldest).Precedes (p.store.keyAt g'.oldest)
  walks : ∀ g ∈ p.groups, p.store.Walks g
  nodup : p.entries.Nodup
  lt_size : ∀ i ∈ p.entries, i < p.store.size

namespace Plot

variable {p : Plot} {x : Index} {t : Shape} {n : Nat} {keying : Keying} {k : Key}

theorem Passes.legible (h : p.Passes t) (haudit : p.audit = .ok (.ok t.leaves.length)) :
    p.Legible := by
  have hbranches := h.distinct.branches
  have hgroups := h.holds.groups_eq hbranches
  have hentries := h.holds.entries_eq hbranches
  refine ⟨?_, ?_, ?_, ?_, ?_, ?_⟩
  · rw [hentries]
    exact haudit
  · intro query len
    rw [hgroups, h.holds.find_eq hbranches h.parted, Shape.found_eq_groups]
  · rw [hgroups]
    exact h.parted.ascending
  · rw [hgroups]
    exact fun g hg => h.holds.walks h.distinct h.stratified hg
  · rw [hentries]
    exact h.distinct.leaves
  · rw [hentries]
    exact h.holds.2.lt_size.1

/-- **A tree without a flaw is legible**, whatever was known of its links before. -/
theorem legible_of_audit (h : p.audit = .ok (.ok n)) : p.Legible := by
  rcases p.audit_cases with ⟨htop, haudit⟩ | ⟨flaw, haudit⟩ | ⟨t, ht, haudit⟩
  · have hbears : p.Bears none := htop
    have hentries : p.entries = [] := hbears.entries_eq
    refine ⟨?_, hbears.find_eq, hbears.ascending, fun g hg => hbears.walks hg, ?_, ?_⟩
    · rw [hentries]
      exact haudit
    · rw [hentries]
      exact List.nodup_nil
    · exact fun i hi => hbears.lt_size hi
  · rw [haudit] at h
    cases h
  · exact ht.legible haudit

/-- The first entry is what a lookup over no bytes gives. -/
theorem Legible.first_eq (h : p.Legible) : p.first = .ok (p.groups.head?.map (·.oldest)) := by
  rw [← p.find_zero #[], h.finds]
  cases p.groups with
  | nil => rfl
  | cons g gs =>
    have halike : (p.store.keyAt g.oldest).Alike #[] 0 := fun i hi => absurd hi (Nat.not_lt_zero i)
    rw [List.find?_cons, decide_eq_true halike]
    rfl

/-- A lookup of a key that is its own name takes all its bytes, and a terminator to a string. -/
theorem Legible.lookup_eq (h : p.Legible) (hk : keying.Admits k) :
    (if keying.isString then p.findString k else p.find k k.size) =
      .ok ((p.groups.find? fun g =>
        decide ((p.store.keyAt g.oldest).Alike k (keying.span k))).map (·.oldest)) := by
  rw [← h.finds]
  cases keying with
  | width bytes => exact congrArg (p.find k) hk
  | string => exact congrArg (p.find · (k.stringLength + 1)) hk.name_eq

/-- **Where a comparison passes, the groups are the rows.**  Every row that is asked about is one of
the groups, and there are no more entries than slots, so no group is left over. -/
theorem Legible.rows_eq (h : p.Legible)
    (hkeys : ∀ i ∈ p.entries, keying.Admits (p.store.keyAt i))
    (hrows : ∀ r ∈ x.rows, keying.Admits r.key)
    (hagrees : p.agreesWith x keying.isString = .ok ()) :
    p.groups.map (Group.row p.store.keyAt) = x.rows := by
  obtain ⟨haudit, -, hasked⟩ := agreesWith_eq_ok_iff.mp hagrees
  have hadmits : ∀ g ∈ p.groups, keying.Admits (p.store.keyAt g.oldest) := fun g hg =>
    hkeys _ (oldest_mem_entries hg)
  have hsub : x.rows ⊆ p.groups.map (Group.row p.store.keyAt) := by
    intro r hr
    obtain ⟨first, later, hslots, hfound, hchain, -⟩ := agreesOn_eq_ok_iff.mp (hasked r hr)
    rw [h.lookup_eq (hrows r hr), Except.ok.injEq, Option.map_eq_some_iff] at hfound
    obtain ⟨g, hg, rfl⟩ := hfound
    have hgroup := List.mem_of_find?_eq_some hg
    have halike := List.find?_some hg
    have hkey : p.store.keyAt g.oldest = r.key :=
      ((hadmits g hgroup).alike_iff (hrows r hr)).mp (of_decide_eq_true halike)
    rw [(h.walks g hgroup).onward [] g.oldest g.later rfl, Except.ok.injEq] at hchain
    refine List.mem_map.mpr ⟨g, hgroup, ?_⟩
    rw [Group.row, hkey, Group.members, hchain]
  have hascending : (p.groups.map (Group.row p.store.keyAt)).Pairwise fun r s =>
      r.key.before s.key = true := by
    exact List.pairwise_map.mpr
      (h.ascending.imp_of_mem fun hg hg' => (hadmits _ hg).before (hadmits _ hg'))
  have htotal : Row.total (p.groups.map (Group.row p.store.keyAt)) = x.total := by
    rw [h.audit, Except.ok.injEq, Except.ok.injEq] at haudit
    rw [← haudit, Group.total_rows, p.flatMap_members_groups]
  refine (Row.eq_of_subset hsub x.sorted hascending ?_ htotal.le).symm
  intro r hr
  obtain ⟨g, -, rfl⟩ := List.mem_map.mp hr
  exact List.cons_ne_nil _ _

/-- **Where the groups are the rows, a comparison passes.** -/
theorem Legible.agreesWith_eq_ok (h : p.Legible)
    (hkeys : ∀ i ∈ p.entries, keying.Admits (p.store.keyAt i))
    (hx : p.groups.map (Group.row p.store.keyAt) = x.rows) :
    p.agreesWith x keying.isString = .ok () := by
  have hadmits : ∀ g ∈ p.groups, keying.Admits (p.store.keyAt g.oldest) := fun g hg =>
    hkeys _ (oldest_mem_entries hg)
  refine agreesWith_eq_ok_iff.mpr ⟨?_, ⟨_, h.first_eq, Index.first_eq hx⟩, fun r hr => ?_⟩
  · rw [h.audit, Index.total, ← hx, Group.total_rows, p.flatMap_members_groups]
  · have hslots := Index.slotsOf_of_mem hr
    rw [← hx] at hr
    obtain ⟨g, hg, rfl⟩ := List.mem_map.mp hr
    have hwalks := h.walks g hg
    refine agreesOn_eq_ok_iff.mpr ⟨g.oldest, g.later, rfl, ?_,
      hwalks.onward [] g.oldest g.later rfl, hwalks.prev [] g.oldest g.later rfl⟩
    have hk : keying.Admits (g.row p.store.keyAt).key := hadmits g hg
    rw [h.lookup_eq hk, Index.find?_groups_eq hx fun g' hg' => (hadmits g' hg').alike_iff hk,
      hslots]
    rfl

/-- Where all keys have one width and the groups are the rows, **every lookup is answered as the
index answers it**, whether the query is there or not. -/
theorem Legible.exists_found {w : Nat} (h : p.Legible)
    (hkeys : ∀ i ∈ p.entries, (p.store.keyAt i).size = w)
    (hx : p.groups.map (Group.row p.store.keyAt) = x.rows) {query : Key} {len : Nat}
    (hlen : len ≤ w) (hquery : len ≤ query.size) :
    ∃ found, p.find query len = .ok found ∧
      x.oldestWithPrefix (query.truncate len) = .ok found := by
  refine ⟨_, h.finds query len, Index.oldestWithPrefix_groups hx fun g hg => ?_⟩
  have hsize : (p.store.keyAt g.oldest).size = w := hkeys _ (oldest_mem_entries hg)
  exact (Key.startsWith_truncate_iff (hsize ▸ hlen) hquery).symm

end Plot

/-! ### Soundness -/

/-- A tree that is what an index of keys of `width` bytes says. -/
structure Plot.IndexedBy (p : Plot) (x : Index) (width : Nat) : Prop where
  /-- The groups from left to right are the rows, with their keys and all their slots. -/
  rows : p.groups.map (Group.row p.store.keyAt) = x.rows
  /-- No entry is met twice. -/
  nodup : p.entries.Nodup
  /-- No entry is left out. -/
  audit : p.audit = .ok (.ok p.entries.length)
  /-- Lookups end without a fault, and give what the index gives. -/
  finds : ∀ query len, len ≤ width → len ≤ query.size → ∃ found,
    p.find query len = .ok found ∧ x.oldestWithPrefix (query.truncate len) = .ok found

/-- **A comparison that passes is right about all lookups.**  Whatever the links of a store of keys
of one width are, if a tree in it is compared with an index of such keys and nothing differs, its
groups are the rows of the index and every lookup is answered as the index answers it. -/
theorem Plot.agreesWith_sound (p : Plot) (x : Index) (w : Nat)
    (hkeys : ∀ i, i < p.store.size → (p.store.keyAt i).size = w)
    (hrows : ∀ r ∈ x.rows, r.key.size = w) (h : p.agreesWith x false = .ok ()) :
    p.IndexedBy x w := by
  have hlegible := legible_of_audit (agreesWith_eq_ok_iff.mp h).1
  have hadmits : ∀ i ∈ p.entries, (Keying.width w).Admits (p.store.keyAt i) := fun i hi =>
    hkeys i (hlegible.lt_size i hi)
  have hx := hlegible.rows_eq hadmits hrows h
  exact ⟨hx, hlegible.nodup, hlegible.audit,
    fun query len hlen hquery => hlegible.exists_found hadmits hx hlen hquery⟩

/-- The comparison of a tree that no insertion makes with an index of its two entries. -/
theorem Plot.agreesWith_sound_stray :
    stray.agreesWith ((Index.empty.add #[98] 1).add #[99] 2) false = .ok () ∧
      stray.IndexedBy ((Index.empty.add #[98] 1).add #[99] 2) 1 := by
  have hagrees : stray.agreesWith ((Index.empty.add #[98] 1).add #[99] 2) false = .ok () := by
    decide +kernel
  exact ⟨hagrees, stray.agreesWith_sound _ 1 (by decide +kernel) (by decide +kernel) hagrees⟩

end BitTrie
