import BitTrie.Proofs.History
import BitTrie.Proofs.Terminated

/-!
# The outline of a tree

Which record doubles as which branch depends on the order of insertion.  When that is forgotten,
and every entry is called by its key or by its string, what is left of a tree depends on the
records alone: its branches on bits stand where the names below them part for the first time, and
its levels follow from the number of entries with one name.

## Main definitions

* `Outline`, `Plot.outline` — a tree without its slots.
* `Key.Splits`, `Shape.Filed` — names parted on a bit, and a shape in which they all are.
* `Keying` — records of one width, or terminated strings.
* `Forest.offers` — the records that a run inserts, or tries to, into a tree.
* `Plot.Files` — what is known of a tree into which records have been inserted.

## Main results

* `Shape.Tied.outline_eq` — equal entries hang in a way that depends on their number only.
* `Shape.Filed.outline_eq` — **the names from left to right determine the outline**.
* `Shape.Sorted.filed` — a sorted shape is filed under its names.
* `Inserts.files`, `Forest.files_calls` — an insertion, and a run.
* `Forest.calls_outline` — **the outline does not depend on the order of insertion**.
-/

namespace BitTrie

/-- A tree without its slots: a name at every entry, and a bit at every branch. -/
inductive Outline where
  /-- An entry. -/
  | leaf (name : Key)
  /-- A decision on a bit, or on a level when the bit is negative. -/
  | branch (bit : Int) (left right : Outline)
  deriving DecidableEq, Repr, Inhabited

/-- The outline of a shape whose entries have names. -/
def Shape.outline (name : Slot → Key) : Shape → Outline
  | leaf i => .leaf (name i)
  | branch _ b l r => .branch b (l.outline name) (r.outline name)

/-! ### Equal entries -/

namespace Shape

variable {name name' : Slot → Key} {t t' l r : Shape} {k k' : Nat} {n : Key}

theorem Perfect.outline_eq (h : Perfect k t) (h' : Perfect k t')
    (hname : ∀ i ∈ t.leaves, name i = n) (hname' : ∀ i ∈ t'.leaves, name' i = n) :
    t'.outline name' = t.outline name := by
  induction h generalizing t' with
  | leaf i =>
    cases h' with
    | leaf j =>
      rw [outline, outline, hname i List.mem_cons_self, hname' j List.mem_cons_self]
  | @branch i b l r k hlevel hown hl hr ihl ihr =>
    cases h' with
    | @branch i' b' l' r' _ hlevel' hown' hl' hr' =>
      obtain ⟨hnamel, hnamer⟩ := List.forall_mem_append.mp hname
      obtain ⟨hnamel', hnamer'⟩ := List.forall_mem_append.mp hname'
      rw [outline, outline, ihl hl' hnamel hnamel', ihr hr' hnamer hnamer', hlevel, hlevel']

/-- There are no more entries than there is room for below the topmost level. -/
theorem Tied.length_leaves_le (h : Tied k t) : t.leaves.length ≤ 2 ^ k := by
  induction h with
  | leaf i => exact Nat.le_refl 1
  | @branch i b l r k m hlevel hown hl hr hle ih =>
    have hpow : 2 ^ m ≤ 2 ^ k := Nat.pow_le_pow_right (by decide) hle
    rw [leaves_branch, List.length_append, hl.length_leaves_eq, Nat.pow_succ]
    omega

/-- The topmost level depends on the number of entries only. -/
theorem Tied.le_of_length_eq (h : Tied k t) (h' : Tied k' t')
    (hlen : t'.leaves.length = t.leaves.length) : k' ≤ k := by
  by_contra hlt
  obtain ⟨j, rfl⟩ := Nat.exists_eq_add_one_of_ne_zero (show k' ≠ 0 by omega)
  have hpow : 2 ^ k ≤ 2 ^ j := Nat.pow_le_pow_right (by decide) (by omega)
  have hmany := h'.lt_length_leaves
  have hfew := h.length_leaves_le
  omega

/-- **Equal entries hang in a way that depends on their number only.** -/
theorem Tied.outline_eq (h : Tied k t) (h' : Tied k' t')
    (hlen : t'.leaves.length = t.leaves.length) (hname : ∀ i ∈ t.leaves, name i = n)
    (hname' : ∀ i ∈ t'.leaves, name' i = n) : t'.outline name' = t.outline name := by
  induction h generalizing t' k' with
  | leaf i =>
    obtain rfl : k' = 0 := Nat.le_zero.mp ((Tied.leaf i).le_of_length_eq h' hlen)
    cases h' with
    | leaf j => exact (Perfect.leaf i).outline_eq (.leaf j) hname hname'
  | @branch i b l r k m hlevel hown hl hr hle ih =>
    have htied : Tied (k + 1) (.branch i b l r) := .branch hlevel hown hl hr hle
    obtain rfl : k' = k + 1 :=
      Nat.le_antisymm (htied.le_of_length_eq h' hlen) (h'.le_of_length_eq htied hlen.symm)
    cases h' with
    | @branch i' b' l' r' _ m' hlevel' hown' hl' hr' hle' =>
      obtain ⟨hnamel, hnamer⟩ := List.forall_mem_append.mp hname
      obtain ⟨hnamel', hnamer'⟩ := List.forall_mem_append.mp hname'
      -- the left sides are full, so the right ones have equally many entries
      have hlen' : r'.leaves.length = r.leaves.length := by
        rw [leaves_branch, leaves_branch, List.length_append, List.length_append,
          hl.length_leaves_eq, hl'.length_leaves_eq] at hlen
        omega
      rw [outline, outline, hl.outline_eq hl' hnamel hnamel', ih hr' hlen' hnamer hnamer', hlevel,
        hlevel']

end Shape

/-! ### Names parted on bits -/

/-- Names on two sides of a bit, which agree before it. -/
structure Key.Splits (b : Nat) (xs ys : List Key) : Prop where
  same : ∀ x ∈ xs, ∀ y ∈ ys, x.SameBits y b
  left : ∀ x ∈ xs, x.bitAt b = false
  right : ∀ y ∈ ys, y.bitAt b = true

namespace Key.Splits

variable {b b' : Nat} {xs ys xs' ys' : List Key}

/-- All names on the two sides of a bit agree before it. -/
theorem sameBits (h : Splits b xs ys) (hxs : xs ≠ []) (hys : ys ≠ []) {u v : Key}
    (hu : u ∈ xs ++ ys) (hv : v ∈ xs ++ ys) : u.SameBits v b := by
  obtain ⟨x, hx⟩ := List.exists_mem_of_ne_nil _ hxs
  obtain ⟨y, hy⟩ := List.exists_mem_of_ne_nil _ hys
  have hto : ∀ u ∈ xs ++ ys, u.SameBits y b := by
    intro u hu
    rcases List.mem_append.mp hu with hu | hu
    · exact h.same u hu y hy
    · exact (h.same x hx u hu).symm.trans (h.same x hx y hy)
  exact (hto u hu).trans (hto v hv).symm

/-- Names are not parted on a bit before the first on which they differ. -/
theorem le_of_append_eq (h : Splits b xs ys) (h' : Splits b' xs' ys') (hxs : xs ≠ [])
    (hys : ys ≠ []) (hxs' : xs' ≠ []) (hys' : ys' ≠ []) (heq : xs ++ ys = xs' ++ ys') :
    b' ≤ b := by
  obtain ⟨x, hx⟩ := List.exists_mem_of_ne_nil _ hxs
  obtain ⟨y, hy⟩ := List.exists_mem_of_ne_nil _ hys
  by_contra hlt
  have hsame := h'.sameBits hxs' hys' (heq ▸ List.mem_append_left ys hx)
    (heq ▸ List.mem_append_right xs hy) b (Nat.lt_of_not_le hlt)
  rw [h.left x hx, h.right y hy] at hsame
  cases hsame

/-- **Names can be parted in one way only.** -/
theorem unique (h : Splits b xs ys) (h' : Splits b' xs' ys') (hxs : xs ≠ []) (hys : ys ≠ [])
    (hxs' : xs' ≠ []) (hys' : ys' ≠ []) (heq : xs ++ ys = xs' ++ ys') :
    b' = b ∧ xs' = xs ∧ ys' = ys := by
  obtain rfl : b' = b := Nat.le_antisymm (h.le_of_append_eq h' hxs hys hxs' hys' heq)
    (h'.le_of_append_eq h hxs' hys' hxs hys heq.symm)
  -- the left side is what has no one at the bit
  have hfilter : ∀ {xs ys : List Key}, Splits b' xs ys →
      (xs ++ ys).filter (fun x => !x.bitAt b') = xs := by
    intro xs ys h
    rw [List.filter_append, List.filter_eq_self.mpr fun x hx => by rw [h.left x hx]; rfl,
      List.filter_eq_nil_iff.mpr fun y hy => by rw [h.right y hy]; exact Bool.false_ne_true,
      List.append_nil]
  have hleft : xs' = xs := by rw [← hfilter h', ← heq, hfilter h]
  rw [hleft] at heq
  exact ⟨rfl, hleft, (List.append_cancel_left heq).symm⟩

end Key.Splits

/-- A shape in which the names are parted on every bit, and are the same under every level. -/
inductive Shape.Filed (name : Slot → Key) : Shape → Prop where
  /-- Entries with one name. -/
  | tied {t : Shape} {k : Nat} (h : t.Tied k) (hname : ∀ i ∈ t.leaves, name i = name t.oldest) :
    Filed name t
  /-- A decision on a bit. -/
  | bit {i : Slot} {b : Int} {l r : Shape} (hb : 0 ≤ b)
    (hsplits : Key.Splits b.toNat (l.leaves.map name) (r.leaves.map name))
    (hl : Filed name l) (hr : Filed name r) : Filed name (.branch i b l r)

namespace Shape.Filed

variable {name name' : Slot → Key} {t t' l r : Shape} {i : Slot} {b : Int}

/-- From left to right the names ascend, and equal ones stand together. -/
theorem pairwise (h : t.Filed name) :
    (t.leaves.map name).Pairwise fun x y => x = y ∨ x.Precedes y := by
  induction h with
  | @tied t k h hname =>
    have hall : ∀ x ∈ t.leaves.map name, x = name t.oldest := List.forall_mem_map.mpr hname
    exact List.pairwise_of_forall_mem_list fun x hx y hy =>
      Or.inl ((hall x hx).trans (hall y hy).symm)
  | @bit i b l r hb hsplits hl hr ihl ihr =>
    rw [leaves_branch, List.map_append]
    refine List.pairwise_append.mpr ⟨ihl, ihr, fun x hx y hy => Or.inr ?_⟩
    exact Key.precedes_of_bitAt (hsplits.same x hx y hy) (hsplits.left x hx) (hsplits.right y hy)

/-- Entries of one name are not parted on a bit. -/
theorem not_splits {n : Key} (h : Key.Splits b.toNat (l.leaves.map name) (r.leaves.map name)) :
    ¬ ∀ x ∈ (branch i b l r).leaves.map name, x = n := by
  intro hall
  rw [leaves_branch, List.map_append] at hall
  have hl := List.mem_map_of_mem (f := name) l.oldest_mem_leaves
  have hr := List.mem_map_of_mem (f := name) r.oldest_mem_leaves
  have hzero := h.left _ hl
  have hone := h.right _ hr
  rw [hall _ (List.mem_append_left _ hl)] at hzero
  rw [hall _ (List.mem_append_right _ hr), hzero] at hone
  cases hone

/-- **The names from left to right determine the outline.** -/
theorem outline_eq (h : t.Filed name) (h' : t'.Filed name')
    (heq : t.leaves.map name = t'.leaves.map name') : t'.outline name' = t.outline name := by
  have hnil : ∀ (name : Slot → Key) (t : Shape), t.leaves.map name ≠ [] :=
    fun name t hnil => t.leaves_ne_nil (List.map_eq_nil_iff.mp hnil)
  induction h generalizing t' with
  | @tied t k h hname =>
    have hall : ∀ x ∈ t.leaves.map name, x = name t.oldest := List.forall_mem_map.mpr hname
    rw [heq] at hall
    cases h' with
    | tied h' hname' =>
      have hlen := congrArg List.length heq
      rw [List.length_map, List.length_map] at hlen
      exact h.outline_eq h' hlen.symm hname (List.forall_mem_map.mp hall)
    | bit hb hsplits hl hr => exact absurd hall (not_splits hsplits)
  | @bit i b l r hb hsplits hl hr ihl ihr =>
    cases h' with
    | tied h' hname' =>
      have hall : ∀ x ∈ t'.leaves.map name', x = name' t'.oldest :=
        List.forall_mem_map.mpr hname'
      rw [← heq] at hall
      exact absurd hall (not_splits hsplits)
    | @bit i' b' l' r' hb' hsplits' hl' hr' =>
      rw [leaves_branch, leaves_branch, List.map_append, List.map_append] at heq
      obtain ⟨hbit, hleft, hright⟩ := hsplits.unique hsplits' (hnil name l) (hnil name r)
        (hnil name' l') (hnil name' r') heq
      obtain rfl : b' = b := by omega
      rw [outline, outline, ihl hl' hleft.symm, ihr hr' hright.symm]

end Shape.Filed

/-! ### Keyings -/

/-- How the records of a tree are keyed. -/
inductive Keying where
  /-- By all their bytes, of which every record has equally many. -/
  | width (bytes : Nat)
  /-- By their strings and terminators. -/
  | string
  deriving DecidableEq, Repr, Inhabited

namespace Keying

variable {keying : Keying} {a b : Key} {la lb n : Nat}

/-- What a record is called. -/
def name : Keying → Key → Key
  | width _, k => k
  | string, k => k.string

/-- A key and the number of bytes that it is inserted over. -/
def Fits : Keying → Key → Nat → Prop
  | width bytes, k, len => k.size = bytes ∧ len = bytes
  | string, k, len => len = k.stringLength + 1

instance (keying : Keying) (k : Key) (len : Nat) : Decidable (keying.Fits k len) :=
  match keying with
  | width bytes => inferInstanceAs (Decidable (k.size = bytes ∧ len = bytes))
  | string => inferInstanceAs (Decidable (len = k.stringLength + 1))

/-- A name reads like the key, as far as that is compared. -/
theorem Fits.sameBits_name (h : keying.Fits a la) : (keying.name a).SameBits a (8 * la) := by
  cases keying with
  | width bytes => exact fun p hp => rfl
  | string =>
    obtain rfl : la = a.stringLength + 1 := h
    rw [← Key.alike_iff_sameBits]
    exact Key.alike_iff_string_eq.mpr a.string_string

/-- Keys agree, as far as they are compared, when their names are the same. -/
theorem Fits.alike_iff (ha : keying.Fits a la) (hb : keying.Fits b lb) :
    b.Alike a la ↔ keying.name b = keying.name a := by
  cases keying with
  | width bytes =>
    obtain ⟨hsize, rfl⟩ := ha
    constructor
    · intro h
      refine Array.ext (hb.1.trans hsize.symm) fun i hib hia => ?_
      rw [← Key.byteAt_of_lt hib, ← Key.byteAt_of_lt hia]
      exact h i (hsize ▸ hia)
    · intro h i _
      rw [show b = a from h]
  | string =>
    obtain rfl : la = a.stringLength + 1 := ha
    exact Key.alike_iff_string_eq

/-- Names part where the keys do. -/
theorem Fits.part (ha : keying.Fits a la) (hb : keying.Fits b lb)
    (hne : keying.name a ≠ keying.name b) (hsame : a.SameBits b n) :
    (keying.name a).SameBits (keying.name b) n ∧ (keying.name a).bitAt n = a.bitAt n ∧
      (keying.name b).bitAt n = b.bitAt n := by
  -- keys with other names part as far as both are compared
  have hlt : n < 8 * la ∧ n < 8 * lb := by
    refine ⟨Nat.lt_of_not_le fun hle => hne ?_, Nat.lt_of_not_le fun hle => hne ?_⟩
    · exact ((ha.alike_iff hb).mp (Key.alike_iff_sameBits.mpr (hsame.mono hle).symm)).symm
    · exact (hb.alike_iff ha).mp (Key.alike_iff_sameBits.mpr (hsame.mono hle))
  have hna := ha.sameBits_name
  have hnb := hb.sameBits_name
  refine ⟨?_, hna n hlt.1, hnb n hlt.2⟩
  exact (hna.mono (Nat.le_of_lt hlt.1)).trans (hsame.trans (hnb.mono (Nat.le_of_lt hlt.2)).symm)

end Keying

/-! ### Names of groups -/

/-- Groups whose members have one name each, no two of them the same. -/
structure Named (name : Slot → Key) (gs : List Group) : Prop where
  alike : ∀ g ∈ gs, ∀ m ∈ g.members, name m = name g.oldest
  apart : (gs.map fun g => name g.oldest).Nodup

section

variable {key name name' : Slot → Key} {unique : Bool} {new r : Slot} {len : Nat}
  {gs gs' : List Group} {t : Shape} {keying : Keying}

theorem Named.congr (h : Named name gs) (hname : ∀ g ∈ gs, ∀ m ∈ g.members, name' m = name m) :
    Named name' gs := by
  have holdest : ∀ g ∈ gs, name' g.oldest = name g.oldest :=
    fun g hg => hname g hg _ List.mem_cons_self
  refine ⟨fun g hg m hm => ?_, ?_⟩
  · rw [hname g hg m hm, holdest g hg]
    exact h.alike g hg m hm
  · rw [List.map_congr_left holdest]
    exact h.apart

/-- A record that is not given back stands beside one with its name. -/
theorem Entered.name_eq (h : Entered key unique new len gs r gs')
    (hiff : ∀ g ∈ gs, (key g.oldest).Alike (key new) len ↔ name g.oldest = name new) :
    r = new ∨ (unique = true ∧ r ∈ gs.map Group.oldest ∧ name r = name new) := by
  cases h with
  | @turnedDown before after g hunique hagrees hbefore =>
    have hg : g ∈ before ++ g :: after := List.mem_append_right _ List.mem_cons_self
    exact Or.inr ⟨hunique, List.mem_map_of_mem hg, (hiff g hg).mp hagrees⟩
  | joined hunique hagrees hbefore => exact Or.inl rfl
  | alone hnone hbefore hafter => exact Or.inl rfl

/-- Groups keep to their names when a record is entered. -/
theorem Entered.named (h : Entered key unique new len gs r gs')
    (hiff : ∀ g ∈ gs, (key g.oldest).Alike (key new) len ↔ name g.oldest = name new)
    (hn : Named name gs) : Named name gs' := by
  refine ⟨fun g' hg' m hm => ?_, ?_⟩
  · rcases h.cases_of_mem hg' with hg' | ⟨rfl, rfl | ⟨g, hg, hagrees, rfl⟩⟩
    · exact hn.alike g' hg' m hm
    · rw [List.mem_singleton.mp hm]
    -- the new record has the name of the group that it joins
    · have hm' : m ∈ g.members ++ [r] := hm
      rcases List.mem_append.mp hm' with hm' | hm'
      · exact hn.alike g hg m hm'
      · rw [List.mem_singleton.mp hm']
        exact ((hiff g hg).mp hagrees).symm
  · have hapart := hn.apart
    cases h with
    | turnedDown hunique hagrees hbefore => exact hapart
    | joined hunique hagrees hbefore =>
      rw [List.map_append, List.map_cons] at hapart ⊢
      exact hapart
    | @alone before after hnone hbefore hafter =>
      have hperm : (before ++ ⟨new, []⟩ :: after).Perm (⟨new, []⟩ :: (before ++ after)) :=
        List.perm_middle
      rw [(hperm.map _).nodup_iff, List.map_cons, List.nodup_cons]
      refine ⟨?_, hapart⟩
      intro hmem
      obtain ⟨g, hg, hname⟩ := List.mem_map.mp hmem
      exact hnone g hg ((hiff g hg).mpr hname)

/-- **A sorted shape is filed under the names** of its groups. -/
theorem Shape.Sorted.filed (h : t.Sorted key)
    (hfits : ∀ x ∈ t.firsts, ∃ len, keying.Fits (key x) len)
    (hn : Named (fun i => keying.name (key i)) t.groups) :
    t.Filed fun i => keying.name (key i) := by
  obtain ⟨halike, hapart⟩ := hn
  rw [Shape.groups, List.map_map] at hapart
  induction h with
  | @tied t k ht =>
    refine .tied ht fun i hi => ?_
    refine halike t.group (List.mem_map_of_mem ?_) i ?_
    · rw [ht.clumps_eq]
      exact List.mem_cons_self
    · rw [t.members_group]
      exact hi
  | @branch i b l r hparts hown hl hr ihl ihr =>
    have hb := hparts.nonneg
    simp only [Shape.groups, Shape.clumps_of_nonneg hb, List.map_append,
      List.forall_mem_append] at halike hapart
    rw [Shape.firsts_of_nonneg hb, List.forall_mem_append] at hfits
    obtain ⟨hnodupl, hnodupr, hdisjoint⟩ := List.nodup_append.mp hapart
    -- a first entry speaks for the name of its group
    have hfirst : ∀ u : Shape, (∀ g ∈ u.clumps.map Shape.group, ∀ m ∈ g.members,
        keying.name (key m) = keying.name (key g.oldest)) →
        ∀ x ∈ u.leaves.map fun i => keying.name (key i),
          ∃ c ∈ u.clumps, keying.name (key c.oldest) = x := by
      intro u hu x hx
      obtain ⟨j, hj, rfl⟩ := List.mem_map.mp hx
      rw [← u.flatMap_leaves_clumps] at hj
      obtain ⟨c, hc, hjc⟩ := List.mem_flatMap.mp hj
      exact ⟨c, hc, (hu c.group (List.mem_map_of_mem hc) j (c.members_group ▸ hjc)).symm⟩
    have hpart : ∀ c ∈ l.clumps, ∀ d ∈ r.clumps,
        (keying.name (key c.oldest)).SameBits (keying.name (key d.oldest)) b.toNat ∧
          (keying.name (key c.oldest)).bitAt b.toNat = false ∧
          (keying.name (key d.oldest)).bitAt b.toNat = true := by
      intro c hc d hd
      have hcl : c.oldest ∈ l.firsts := List.mem_map_of_mem hc
      have hdr : d.oldest ∈ r.firsts := List.mem_map_of_mem hd
      obtain ⟨lenc, hfitc⟩ := hfits.1 _ hcl
      obtain ⟨lend, hfitd⟩ := hfits.2 _ hdr
      obtain ⟨hsame, hzero, hone⟩ := hparts.sides hcl hdr
      have hne : keying.name (key c.oldest) ≠ keying.name (key d.oldest) :=
        hdisjoint _ (List.mem_map_of_mem hc) _ (List.mem_map_of_mem hd)
      obtain ⟨hnames, hbitc, hbitd⟩ := hfitc.part hfitd hne hsame
      exact ⟨hnames, hbitc.trans hzero, hbitd.trans hone⟩
    refine .bit hb ⟨?_, ?_, ?_⟩ (ihl hfits.1 halike.1 hnodupl) (ihr hfits.2 halike.2 hnodupr)
    · intro x hx y hy
      obtain ⟨c, hc, rfl⟩ := hfirst l halike.1 x hx
      obtain ⟨d, hd, rfl⟩ := hfirst r halike.2 y hy
      exact (hpart c hc d hd).1
    · intro x hx
      obtain ⟨c, hc, rfl⟩ := hfirst l halike.1 x hx
      obtain ⟨d, hd⟩ := List.exists_mem_of_ne_nil _ r.clumps_ne_nil
      exact (hpart c hc d hd).2.1
    · intro y hy
      obtain ⟨c, hc⟩ := List.exists_mem_of_ne_nil _ l.clumps_ne_nil
      obtain ⟨d, hd, rfl⟩ := hfirst r halike.2 y hy
      exact (hpart c hc d hd).2.2

end

/-! ### Trees into which records have been inserted -/

/-- What the entries of a tree are called. -/
def Plot.name (p : Plot) (keying : Keying) (i : Slot) : Key := keying.name (p.store.keyAt i)

/-- A tree without its slots, its entries under their names. -/
def Plot.outline (p : Plot) (keying : Keying) : Option Outline :=
  p.shape?.map (Shape.outline (p.name keying))

/-- What is known of a tree after the insertion of `offers`, each a key and the number of bytes
that it was inserted over: all entries were offered, every offer has an entry of its name, and is
one where the tree holds equal keys as often as they come; and the groups have names. -/
structure Plot.Files (p : Plot) (keying : Keying) (offers : List (Key × Nat)) : Prop where
  entries : ∀ i ∈ p.entries, ∃ len, (p.store.keyAt i, len) ∈ offers
  offered : ∀ e ∈ offers, ∃ i ∈ p.entries, p.name keying i = keying.name e.1
  every : p.tree.unique = false → (p.entries.map p.store.keyAt).Perm (offers.map (·.1))
  named : Named (p.name keying) p.groups

section

variable {p p' q : Plot} {keying : Keying} {offers offers' : List (Key × Nat)}
  {o o' : Option Shape} {new r len : Nat}

/-- What is known of a tree depends on its shape and the keys of its entries. -/
theorem Plot.Files.congr (h : p.Files keying offers) (hunique : p'.tree.unique = p.tree.unique)
    (hshape : p'.shape? = p.shape?) (hkey : ∀ i ∈ p.entries, p'.store.keyAt i = p.store.keyAt i) :
    p'.Files keying offers := by
  have hentries : p'.entries = p.entries := Plot.entries_congr hshape
  have hgroups : p'.groups = p.groups := Plot.groups_congr hshape
  have hname : ∀ i ∈ p.entries, p'.name keying i = p.name keying i := fun i hi => by
    rw [Plot.name, Plot.name, hkey i hi]
  refine ⟨?_, ?_, ?_, ?_⟩
  · rw [hentries]
    intro i hi
    rw [hkey i hi]
    exact h.entries i hi
  · rw [hentries]
    intro e he
    obtain ⟨i, hi, hie⟩ := h.offered e he
    exact ⟨i, hi, (hname i hi).trans hie⟩
  · rw [hunique, hentries, List.map_congr_left hkey]
    exact h.every
  · rw [hgroups]
    exact h.named.congr fun g hg m hm => hname m (Plot.mem_entries_of_mem_members hg hm)

/-- **An insertion** adds an offer. -/
theorem Inserts.files (h : Inserts p new len o r o' q) (hp : p.Bears o)
    (hfree : p.store.isResident new = .ok false) (hfiles : p.Files keying offers)
    (hfits : ∀ e ∈ offers ++ [(p.store.keyAt new, len)], keying.Fits e.1 e.2) :
    q.Files keying (offers ++ [(p.store.keyAt new, len)]) := by
  have hkey : q.store.keyAt = p.store.keyAt := funext h.keyAt
  have hname : q.name keying = p.name keying := by
    funext i
    rw [Plot.name, Plot.name, hkey]
  have hentered := h.entered hp (h.bears hp hfree)
  have hperm := h.entries_perm hp hfree
  have hnot := hp.not_mem_of_free hfree
  have hkept : ∀ i ∈ p.entries, i ∈ q.entries :=
    fun i hi => hperm.mem_iff.mpr (List.mem_append_left _ hi)
  obtain ⟨hfits, hnew⟩ := List.forall_mem_append.mp hfits
  have hfitnew := hnew _ (List.mem_singleton.mpr rfl)
  -- agreement with a group, over the bytes that are compared, is having its name
  have hiff : ∀ g ∈ p.groups, (p.store.keyAt g.oldest).Alike (p.store.keyAt new) len ↔
      p.name keying g.oldest = p.name keying new := by
    intro g hg
    obtain ⟨len', hmem⟩ := hfiles.entries _
      (Plot.oldest_mem_entries hg)
    exact Keying.Fits.alike_iff hfitnew (hfits _ hmem)
  have hgives := hentered.name_eq hiff
  refine ⟨?_, ?_, ?_, ?_⟩
  · intro i hi
    rw [hkey]
    rcases List.mem_append.mp (hperm.mem_iff.mp hi) with hi | hi
    · obtain ⟨len', hmem⟩ := hfiles.entries i hi
      exact ⟨len', List.mem_append_left _ hmem⟩
    · split at hi
      · rw [List.mem_singleton.mp hi]
        exact ⟨len, List.mem_append_right _ (List.mem_singleton.mpr rfl)⟩
      · cases hi
  · rw [hname]
    intro e he
    rcases List.mem_append.mp he with he | he
    · obtain ⟨i, hi, hie⟩ := hfiles.offered e he
      exact ⟨i, hkept i hi, hie⟩
    · rw [List.mem_singleton.mp he]
      rcases hgives with rfl | ⟨-, hr, hrname⟩
      · refine ⟨r, hperm.mem_iff.mpr (List.mem_append_right _ ?_), rfl⟩
        rw [if_pos rfl]
        exact List.mem_singleton.mpr rfl
      · obtain ⟨g, hg, rfl⟩ := List.mem_map.mp hr
        exact ⟨g.oldest, hkept _ (Plot.oldest_mem_entries hg), hrname⟩
  · intro hunique
    rw [h.unique] at hunique
    rcases hgives with hr | ⟨hunique', -⟩
    · rw [if_pos hr] at hperm
      rw [hkey, List.map_append]
      refine (hperm.map _).trans ?_
      rw [List.map_append]
      exact (hfiles.every hunique).append (List.Perm.refl _)
    · rw [hunique] at hunique'
      cases hunique'
  · rw [hname]
    exact hentered.named hiff hfiles.named

/-- A tree that holds every key once has the oldest entries of its groups, and no others. -/
theorem Plot.Bears.entries_eq_oldest (h : p.Bears o) (hunique : p.tree.unique = true) :
    p.entries = p.groups.map Group.oldest := by
  rw [h.entries_eq, h.groups_eq]
  cases o with
  | none => rfl
  | some t =>
    have hsingle := h.2.single hunique
    rw [Option.map_some, Option.getD_some, Option.map_some, Option.getD_some, Shape.groups,
      List.map_map, ← t.flatMap_leaves_clumps, List.map_eq_flatMap]
    apply List.flatMap_congr
    intro c hc
    obtain ⟨i, rfl⟩ := hsingle c hc
    rfl

/-- The names that are entered are those that were offered. -/
theorem Plot.Files.mem_names (h : p.Files keying offers) {x : Key} :
    x ∈ p.entries.map (p.name keying) ↔ x ∈ offers.map fun e => keying.name e.1 := by
  rw [List.mem_map, List.mem_map]
  constructor
  · rintro ⟨i, hi, rfl⟩
    obtain ⟨len, hmem⟩ := h.entries i hi
    exact ⟨_, hmem, rfl⟩
  · rintro ⟨e, he, rfl⟩
    exact h.offered e he

/-- **Offers of the same names**, in any order, enter the same names. -/
theorem Plot.Files.names_perm (h : p.Files keying offers) (h' : p'.Files keying offers')
    (hp : p.Bears o) (hp' : p'.Bears o') (hunique : p'.tree.unique = p.tree.unique)
    (hperm : (offers.map fun e => keying.name e.1).Perm (offers'.map fun e => keying.name e.1)) :
    (p.entries.map (p.name keying)).Perm (p'.entries.map (p'.name keying)) := by
  cases hu : p.tree.unique with
  | false =>
    have hnames := (h.every hu).map keying.name
    have hnames' := (h'.every (hunique.trans hu)).map keying.name
    rw [List.map_map, List.map_map] at hnames hnames'
    exact hnames.trans (hperm.trans hnames'.symm)
  | true =>
    -- no name is entered twice, so it is enough that the same ones are
    have hnodup : (p.entries.map (p.name keying)).Nodup := by
      rw [hp.entries_eq_oldest hu, List.map_map]
      exact h.named.apart
    have hnodup' : (p'.entries.map (p'.name keying)).Nodup := by
      rw [hp'.entries_eq_oldest (hunique.trans hu), List.map_map]
      exact h'.named.apart
    refine (List.perm_ext_iff_of_nodup hnodup hnodup').mpr fun x => ?_
    rw [h.mem_names, h'.mem_names, hperm.mem_iff]

/-- A tree into which fitting records have been inserted is filed under their names. -/
theorem Plot.Files.filed (h : p.Files keying offers)
    (hfits : ∀ e ∈ offers, keying.Fits e.1 e.2) {t : Shape} (hp : p.Bears (some t)) :
    t.Filed (p.name keying) := by
  refine hp.2.sorted.filed (fun x hx => ?_) ?_
  · obtain ⟨len, hmem⟩ := h.entries x (by
      rw [hp.entries_eq]
      exact Shape.mem_leaves_of_mem_firsts hx)
    exact ⟨len, hfits _ hmem⟩
  · have hnamed := h.named
    rw [hp.groups_eq] at hnamed
    exact hnamed

/-- Two trees with the same names in the same order have one outline. -/
theorem Plot.Files.outline_eq (h : p.Files keying offers) (h' : p'.Files keying offers')
    (hfits : ∀ e ∈ offers, keying.Fits e.1 e.2) (hfits' : ∀ e ∈ offers', keying.Fits e.1 e.2)
    (hp : p.Bears o) (hp' : p'.Bears o')
    (hperm : (p.entries.map (p.name keying)).Perm (p'.entries.map (p'.name keying))) :
    p'.outline keying = p.outline keying := by
  rw [Plot.outline, Plot.outline, hp.shape?_eq, hp'.shape?_eq]
  rw [hp.entries_eq, hp'.entries_eq] at hperm
  cases o with
  | none =>
    cases o' with
    | none => rfl
    | some t' => exact absurd (List.map_eq_nil_iff.mp hperm.nil_eq.symm) t'.leaves_ne_nil
  | some t =>
    cases o' with
    | none => exact absurd (List.map_eq_nil_iff.mp hperm.eq_nil) t.leaves_ne_nil
    | some t' =>
      have hfiled := h.filed hfits hp
      have hfiled' := h'.filed hfits' hp'
      have hantisymm : ∀ a b : Key, a = b ∨ a.Precedes b → b = a ∨ b.Precedes a → a = b :=
        fun a b hab hba => hab.elim id fun hab =>
          hba.elim Eq.symm fun hba => absurd hba hab.asymm
      have heq := hperm.eq_of_pairwise (fun a b _ _ => hantisymm a b) hfiled.pairwise
        hfiled'.pairwise
      exact congrArg some (hfiled.outline_eq hfiled' heq)

end

/-! ### Runs -/

namespace Forest

/-- The key of the record that a call inserts into a tree, and the number of bytes that it is
inserted over, when the call is not refused. -/
def offered (f : Forest) (t : Nat) (c : Call) : Option (Key × Nat) :=
  match c.insertion? f.store with
  | none => none
  | some (n, new, len) =>
    if n = t ∧ f.refusal c = none then some (f.store.keyAt new, len) else none

/-- The records that a run inserts into a tree, those that are turned down with the others. -/
def offers (f : Forest) (t : Nat) : List Call → List (Key × Nat)
  | [] => []
  | c :: cs => (f.offered t c).toList ++ (f.call c).2.offers t cs

variable {f f' : Forest} {shapes shapes' : Nat → Option Shape} {c : Call} {out : Outcome Slot}
  {t : Nat} {p p' : Plot} {keying : Keying}

/-- A call adds its offer to what is known of a tree. -/
theorem Notices.files {o o' : Option Shape} (h : f.Notices t p o c out p' o')
    (hout : ∀ r, out = .ok r → f.refusal c = none) (hp : f.plot t = .ok p) (hbears : p.Bears o)
    (hbears' : p'.Bears o') {os : List (Key × Nat)} (hfiles : p.Files keying os)
    (hfits : ∀ e ∈ os ++ (f.offered t c).toList, keying.Fits e.1 e.2) :
    p'.Files keying (os ++ (f.offered t c).toList) := by
  cases h with
  | nothing haccepts hother hunique hkey =>
    have hnone : f.offered t c = none := by
      rw [offered]
      cases hc : c.insertion? f.store with
      | none => rfl
      | some e =>
        obtain ⟨n, new, len⟩ := e
        refine if_neg ?_
        rintro ⟨rfl, href⟩
        exact hother href new len hc
    rw [hnone, Option.toList_none, List.append_nil]
    exact hfiles.congr hunique (hbears'.shape?_eq.trans hbears.shape?_eq.symm)
      fun i hi => hkey i (hbears.lt_size hi)
  | @insertion new len r _ _ hc haccepts hfree hins =>
    have hsome : f.offered t c = some (p.store.keyAt new, len) := by
      rw [offered, hc, (plot_eq_ok.mp hp).2]
      exact if_pos ⟨rfl, hout r rfl⟩
    rw [hsome, Option.toList_some] at hfits ⊢
    exact hins.files hbears hfree hfiles hfits

/-- **A run** adds its offers to what is known of a tree. -/
theorem files_calls {cs : List Call} (hf : f.Stands shapes) {os : List (Key × Nat)}
    (hfiles : ∀ p, f.plot t = .ok p → p.Files keying os)
    (hfits : ∀ e ∈ os ++ f.offers t cs, keying.Fits e.1 e.2)
    (hp : (f.calls cs).plot t = .ok p) : p.Files keying (os ++ f.offers t cs) := by
  induction cs generalizing f shapes os with
  | nil =>
    rw [offers, List.append_nil]
    exact hfiles p hp
  | cons c cs ih =>
    obtain ⟨shapes', hhappens⟩ := hf.happens c
    rw [offers, ← List.append_assoc] at hfits ⊢
    refine ih (hhappens.stands hf) ?_ hfits hp
    intro p' hp'
    obtain ⟨p, hp, hnotices⟩ := hhappens.exists_notices rfl hp'
    have hout : ∀ r, (f.call c).1 = .ok r → f.refusal c = none := by
      intro r hr
      rw [hr] at hhappens
      exact hhappens.refusal_eq
    exact hnotices.files hout hp (hf.bears_plot hp)
      ((hhappens.stands hf).bears_plot hp') (hfiles p hp)
      fun e he => hfits e (List.mem_append_left _ he)

/-- Nothing has been inserted into an empty tree. -/
theorem files_fresh (uniques : List Bool) (hp : (fresh uniques).plot t = .ok p) :
    p.Files keying [] := by
  have hbears : p.Bears none := (stands_fresh uniques).bears_plot hp
  refine ⟨?_, fun e he => absurd he List.not_mem_nil, fun _ => ?_, ?_⟩
  · rw [hbears.entries_eq]
    exact fun i hi => absurd hi List.not_mem_nil
  · rw [hbears.entries_eq]
    exact List.Perm.refl _
  · rw [hbears.groups_eq]
    exact ⟨fun g hg => absurd hg List.not_mem_nil, List.nodup_nil⟩

/-- **The outline does not depend on the order of insertion.**  Two runs that insert records with
the same names into two trees, in any order, both of one width or both as strings, and both trees
holding every key once or neither, leave trees of one outline behind. -/
theorem calls_outline (keying : Keying) (uniques uniques' : List Bool) (cs cs' : List Call)
    (t t' : Nat) (p p' : Plot) (hp : ((fresh uniques).calls cs).plot t = .ok p)
    (hp' : ((fresh uniques').calls cs').plot t' = .ok p')
    (hunique : p'.tree.unique = p.tree.unique)
    (hfits : ∀ e ∈ (fresh uniques).offers t cs, keying.Fits e.1 e.2)
    (hfits' : ∀ e ∈ (fresh uniques').offers t' cs', keying.Fits e.1 e.2)
    (hperm : (((fresh uniques).offers t cs).map fun e => keying.name e.1).Perm
      (((fresh uniques').offers t' cs').map fun e => keying.name e.1)) :
    p'.outline keying = p.outline keying := by
  obtain ⟨shapes, hf⟩ := stands_calls uniques cs
  obtain ⟨shapes', hf'⟩ := stands_calls uniques' cs'
  have hfiles : p.Files keying ([] ++ (fresh uniques).offers t cs) :=
    files_calls (stands_fresh uniques) (fun _ => files_fresh uniques) hfits hp
  have hfiles' : p'.Files keying ([] ++ (fresh uniques').offers t' cs') :=
    files_calls (stands_fresh uniques') (fun _ => files_fresh uniques') hfits' hp'
  have hbears := hf.bears_plot hp
  have hbears' := hf'.bears_plot hp'
  exact hfiles.outline_eq hfiles' hfits hfits' hbears hbears'
    (hfiles.names_perm hfiles' hbears hbears' hunique hperm)

/-- The strings `ab`, `a` and `ab` again, in another order and with other bytes behind their
terminators: both trees decide on bit 9, and have the two equal strings under one level. -/
theorem calls_outline_strings :
    ∃ p p', ((fresh [false]).calls [.add #[97, 98], .add #[97], .add #[97, 98],
        .insertString 0 0, .insertString 0 1, .insertString 0 2]).plot 0 = .ok p ∧
      ((fresh [true, false]).calls [.add #[97, 0, 5], .add #[97, 98], .add #[97, 98, 0, 1],
        .insertString 1 2, .insertString 1 0, .insertString 1 1]).plot 1 = .ok p' ∧
      p.entries = [1, 0, 2] ∧ p'.entries = [0, 2, 1] ∧
      p'.outline .string =
        some (.branch 9 (.leaf #[97]) (.branch (-1) (.leaf #[97, 98]) (.leaf #[97, 98]))) := by
  have hoffers : ∀ e ∈ (fresh [false]).offers 0 [.add #[97, 98], .add #[97], .add #[97, 98],
      .insertString 0 0, .insertString 0 1, .insertString 0 2], Keying.string.Fits e.1 e.2 := by
    decide +kernel
  have hoffers' : ∀ e ∈ (fresh [true, false]).offers 1 [.add #[97, 0, 5], .add #[97, 98],
      .add #[97, 98, 0, 1], .insertString 1 2, .insertString 1 0, .insertString 1 1],
      Keying.string.Fits e.1 e.2 := by
    decide +kernel
  refine ⟨_, _, plot_of_lt (by decide +kernel), plot_of_lt (by decide +kernel),
    by decide +kernel, by decide +kernel, ?_⟩
  exact (calls_outline .string [false] [true, false] _ _ 0 1 _ _ (plot_of_lt (by decide +kernel))
    (plot_of_lt (by decide +kernel)) (by decide +kernel) hoffers hoffers'
    (by decide +kernel)).trans (by decide +kernel)

end Forest

end BitTrie
