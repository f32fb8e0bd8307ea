import BitTrie.Proofs.Outline

/-!
# Insertions hang a record, or change nothing

An insertion of a record of the store ends in one of four ways, whatever run has led there.  The
record is in a tree already; or its key is too long; or the tree holds every key once, and an entry
agrees; or the record is hung.  In the first three the forest is what it was, down to the last link.
No other fault stops an insertion, and the way down always ends.

## Main definitions

* `Plot.turnsDown` — whether an entry stands for a record that is not to be entered.
* `Ending`, `Plot.ending` — the four ways, and the one that a record takes.
* `Forest.Ends` — what is left behind in each of them.

## Main results

* `Entered.turnedDown_iff` — a record is turned down where an entry agrees, and nowhere else.
* `Forest.Stands.exists_ends` — an insertion ends in one of the four ways.
* `Forest.calls_insert_ends` — **every insertion ends in exactly one way**.
-/

namespace BitTrie

/-- Whether a record is turned down: the tree holds every key once, and has an entry that agrees
with the record over `len` bytes. -/
def Plot.turnsDown (p : Plot) (new : Slot) (len : Nat) : Bool :=
  p.tree.unique &&
    p.entries.any fun i => decide ((p.store.keyAt i).Alike (p.store.keyAt new) len)

/-- How an insertion ends. -/
inductive Ending where
  /-- The record is in a tree already. -/
  | resident
  /-- Its key is too long. -/
  | tooLong
  /-- An entry that agrees is given instead. -/
  | turnedDown
  /-- The record is hung. -/
  | hung
  deriving DecidableEq, Repr, Inhabited

/-- How the insertion of a record over `len` bytes is to end. -/
def Plot.ending (p : Plot) (new : Slot) (len : Nat) : Ending :=
  if (p.store.up (.leaf new)).isSome then .resident
  else if maxKeyLength < len then .tooLong
  else if p.turnsDown new len then .turnedDown
  else .hung

theorem Plot.turnsDown_iff {p : Plot} {new : Slot} {len : Nat} :
    p.turnsDown new len = true ↔ p.tree.unique = true ∧
      ∃ i ∈ p.entries, (p.store.keyAt i).Alike (p.store.keyAt new) len := by
  rw [turnsDown, Bool.and_eq_true, List.any_eq_true]
  simp only [decide_eq_true_eq]

/-- How an insertion into the tree `t` ends, of a record of its store over `len` bytes, and what it
leaves behind.  The plot `p` is that of the tree. -/
inductive Forest.Ends (f : Forest) (t : Nat) (p : Plot) (new : Slot) (len : Nat) :
    Ending → Prop where
  /-- A record that is in a tree, this one or another, is a fault, and nothing is changed. -/
  | resident (hres : f.store.isResident new = .ok true)
    (hcall : f.call (.insert t new len) = (.error (.alreadyResident new), f)) :
    Ends f t p new len .resident
  /-- So is a key that is too long, also where there is no entry to compare it with. -/
  | tooLong (hfree : f.store.isResident new = .ok false) (hlen : maxKeyLength < len)
    (hcall : f.call (.insert t new len) = (.error (.keyTooLong len), f)) :
    Ends f t p new len .tooLong
  /-- An entry that agrees is given, and nothing is changed. -/
  | turnedDown {old : Slot} (hfree : f.store.isResident new = .ok false)
    (hlen : len ≤ maxKeyLength) (hunique : p.tree.unique = true) (hold : old ∈ p.entries)
    (hagrees : (p.store.keyAt old).Alike (p.store.keyAt new) len)
    (hcall : f.call (.insert t new len) = (.ok old, f)) : Ends f t p new len .turnedDown
  /-- The record is in the tree from then on. -/
  | hung {f' : Forest} {p' : Plot} (hfree : f.store.isResident new = .ok false)
    (hlen : len ≤ maxKeyLength)
    (hnot : ¬ (p.tree.unique = true ∧
      ∃ i ∈ p.entries, (p.store.keyAt i).Alike (p.store.keyAt new) len))
    (hcall : f.call (.insert t new len) = (.ok new, f'))
    (hres : f'.store.isResident new = .ok true) (hplot : f'.plot t = .ok p')
    (hentries : p'.entries.Perm (new :: p.entries)) : Ends f t p new len .hung

section

variable {f : Forest} {shapes : Nat → Option Shape} {t : Nat} {p : Plot} {new len : Nat}

/-- An insertion ends in no other way than the one that is foretold. -/
theorem Forest.Ends.eq_ending {e : Ending} (h : f.Ends t p new len e) (hp : f.plot t = .ok p) :
    e = p.ending new len := by
  obtain ⟨-, hs⟩ := plot_eq_ok.mp hp
  rw [Plot.ending, hs]
  cases h with
  | resident hres hcall =>
    rw [if_pos (Store.isResident_eq_ok.mp hres).2]
  | tooLong hfree hlen hcall =>
    rw [(Store.isResident_eq_ok.mp hfree).2, if_neg Bool.false_ne_true, if_pos hlen]
  | @turnedDown old hfree hlen hunique hold hagrees hcall =>
    rw [(Store.isResident_eq_ok.mp hfree).2, if_neg Bool.false_ne_true,
      if_neg (Nat.not_lt.mpr hlen),
      if_pos (Plot.turnsDown_iff.mpr ⟨hunique, old, hold, hagrees⟩)]
  | hung hfree hlen hnot hcall hres hplot hentries =>
    rw [(Store.isResident_eq_ok.mp hfree).2, if_neg Bool.false_ne_true,
      if_neg (Nat.not_lt.mpr hlen), if_neg fun h => hnot (Plot.turnsDown_iff.mp h)]

/-- **A record is turned down where an entry agrees**, and nowhere else: in a tree that holds every
key once, a group that does not agree has no entry that does. -/
theorem Entered.turnedDown_iff {r : Slot} {gs' : List Group} {o : Option Shape} (hp : p.Bears o)
    (hnew : new ∉ p.entries)
    (h : Entered p.store.keyAt p.tree.unique new len p.groups r gs') :
    (r ≠ new ↔ p.turnsDown new len = true) ∧
      (r ≠ new → r ∈ p.entries ∧ (p.store.keyAt r).Alike (p.store.keyAt new) len) := by
  have hgroups : ∀ g ∈ p.groups, g.oldest ∈ p.entries := fun g => Plot.oldest_mem_entries
  rw [Plot.turnsDown_iff]
  generalize hgs : p.groups = gs at h hgroups
  cases h with
  | @turnedDown before after g hunique hagrees hbefore =>
    have hold := hgroups g (List.mem_append_right _ List.mem_cons_self)
    have hne : g.oldest ≠ new := fun heq => hnew (heq ▸ hold)
    exact ⟨iff_of_true hne ⟨hunique, _, hold, hagrees⟩, fun _ => ⟨hold, hagrees⟩⟩
  | joined hunique hagrees hbefore =>
    have hnot : ¬ p.tree.unique = true := by rw [hunique]; exact Bool.false_ne_true
    exact ⟨iff_of_false (not_not_intro rfl) fun h => hnot h.1, fun hne => absurd rfl hne⟩
  | alone hnone hbefore hafter =>
    refine ⟨iff_of_false (not_not_intro rfl) ?_, fun hne => absurd rfl hne⟩
    rintro ⟨hunique, i, hi, hagrees⟩
    rw [hp.entries_eq_oldest hunique, hgs] at hi
    obtain ⟨g, hg, rfl⟩ := List.mem_map.mp hi
    exact hnone g hg hagrees

/-- A record that is in no tree, with a key that is not too long, is hung or turned down. -/
theorem Forest.Stands.exists_ends_of_free (hf : f.Stands shapes) (hp : f.plot t = .ok p)
    (hfree : f.store.isResident new = .ok false) (hlen : len ≤ maxKeyLength) :
    ∃ e, f.Ends t p new len e := by
  obtain ⟨ht, hs⟩ := plot_eq_ok.mp hp
  have hbears := hf.bears_plot hp
  have hfree' : p.store.isResident new = .ok false := by rw [hs]; exact hfree
  obtain ⟨r, q, o, hinsert, hinserts⟩ := Edit.insert_inserts hlen hbears hfree'
  have hbears' := hinserts.bears hbears hfree'
  obtain ⟨hcall, hplot⟩ := edit_of_plot hp hinsert
  obtain ⟨hturned, hgiven⟩ := Entered.turnedDown_iff hbears (hbears.not_mem_of_free hfree')
    (hinserts.entered hbears hbears')
  by_cases hr : r = new
  · subst hr
    have hentries := hinserts.entries_perm hbears hfree'
    rw [if_pos rfl] at hentries
    have hentries' := hentries.trans (List.perm_append_singleton _ _)
    have hres : q.store.isResident r = .ok true :=
      hbears'.isResident (hentries'.mem_iff.mpr List.mem_cons_self)
    exact ⟨_, .hung hfree hlen (fun h => hturned.mpr (Plot.turnsDown_iff.mpr h) rfl) hcall hres
      hplot hentries'⟩
  -- an insertion that gives another entry has written nothing
  · obtain ⟨hold, hagrees⟩ := hgiven hr
    have hunique := (Plot.turnsDown_iff.mp (hturned.mp hr)).1
    rcases hinserts.leaves with ⟨heq, -⟩ | ⟨rfl, -, -⟩
    · exact absurd heq hr
    · rw [hs, setIfInBounds_self ht] at hcall
      exact ⟨_, .turnedDown hfree hlen hunique hold hagrees hcall⟩

/-- **An insertion into a forest that stands** ends in one of the four ways. -/
theorem Forest.Stands.exists_ends (hf : f.Stands shapes) (hp : f.plot t = .ok p)
    (hnew : new < p.store.size) (len : Nat) : ∃ e, f.Ends t p new len e := by
  obtain ⟨ht, hs⟩ := plot_eq_ok.mp hp
  have hlt : t < f.trees.size := (Array.getElem?_eq_some_iff.mp ht).1
  rw [hs] at hnew
  have hrefused : ∀ e, f.store.refusal new len = some e →
      f.call (.insert t new len) = (.error e, f) := by
    intro e he
    apply call_of_refusal
    rw [refusal_of_insertion (c := .insert t new len) rfl, if_pos hlt, he]
  cases hup : (f.store.up (.leaf new)).isSome with
  | true =>
    refine ⟨_, .resident (Store.isResident_eq_ok.mpr ⟨hnew, hup⟩) (hrefused _ ?_)⟩
    rw [Store.refusal, if_neg (Nat.not_le.mpr hnew), if_pos hup]
  | false =>
    have hfree : f.store.isResident new = .ok false := Store.isResident_eq_ok.mpr ⟨hnew, hup⟩
    rcases Nat.lt_or_ge maxKeyLength len with hlen | hlen
    · refine ⟨_, .tooLong hfree hlen (hrefused _ ?_)⟩
      rw [Store.refusal, if_neg (Nat.not_le.mpr hnew), hup, if_neg Bool.false_ne_true,
        if_pos hlen]
    · exact hf.exists_ends_of_free hp hfree hlen

end

namespace Forest

/-- **Every insertion ends in exactly one of four ways**: after any run, into any tree, of any
record of the store and over any number of bytes.  It is refused because the record is in a tree or
because the key is too long, and nothing is changed; or the record is turned down for an entry that
agrees, and nothing is changed; or it is hung. -/
theorem calls_insert_ends (uniques : List Bool) (cs : List Call) (t : Nat) (p : Plot)
    (hp : ((fresh uniques).calls cs).plot t = .ok p) (new : Slot) (hnew : new < p.store.size)
    (len : Nat) : ∃! e, ((fresh uniques).calls cs).Ends t p new len e := by
  obtain ⟨shapes, hf⟩ := stands_calls uniques cs
  obtain ⟨e, he⟩ := hf.exists_ends hp hnew len
  exact ⟨e, he, fun e' he' => (he'.eq_ending hp).trans (he.eq_ending hp).symm⟩

/-- In a tree that holds every key once, a record `b` over one byte is turned down for another. -/
theorem calls_insert_ends_turned_down :
    ∃ p, ((fresh [true]).calls [.add #[98], .insert 0 0 1, .add #[98, 97]]).plot 0 = .ok p ∧
      1 < p.store.size ∧ p.ending 1 1 = .turnedDown ∧
        ∃! e, ((fresh [true]).calls [.add #[98], .insert 0 0 1, .add #[98, 97]]).Ends 0 p 1 1 e :=
  ⟨_, rfl, by decide +kernel, by decide +kernel,
    calls_insert_ends [true] _ 0 _ rfl 1 (by decide +kernel) 1⟩

end Forest

end BitTrie
