import Xrash.ContainedRangeMap
import Xrash.Proofs.RangeMap
import Mathlib.Data.List.MinMax

/-!
# The ranges of a contained range map

The ranges of a tree are apart or one strictly within the other. A new range is stored exactly when
the ranges stay so, and an address is looked up to the smallest range that has it. The tree is
thereby a set of ranges, whatever order they were stored in.
-/

namespace Xrash.ContainedRangeMap

open KeyList Extent

variable {w : ℕ} {ε : Type*} {l l' : List (BitVec w × ContainedRangeMap w ε)}
  {e f : BitVec w × ContainedRangeMap w ε} {r : Extent (BitVec w) ε} {a b base high key : BitVec w}
  {entry : ε}

/-! ## Levels -/

theorem depth_mk (b : BitVec w) (x : ε) (l : List (BitVec w × ContainedRangeMap w ε)) :
    (mk b x l).depth = (l.map fun e => e.2.depth).foldr max 0 + 1 := by
  have hmap : (l.attach.map fun e => e.1.2.depth) = l.map fun e => e.2.depth :=
    l.attach_map_val (f := fun e => e.2.depth)
  rw [depth, hmap]

theorem depth_child {b : BitVec w} {x : ε} (h : e ∈ l) : e.2.depth < (mk b x l).depth := by
  rw [depth_mk]
  have hmem : e.2.depth ∈ l.map fun e => e.2.depth := List.mem_map_of_mem h
  exact Nat.lt_succ_of_le (List.le_max_of_le' 0 hmem le_rfl)

/-! ## The invariant -/

namespace Valid

theorem sorted (h : Valid l) : Sorted l := by cases h; assumption

theorem ordered (h : Valid l) (he : e ∈ l) : e.2.base ≤ e.1 := by
  cases h with
  | mk _ ordered => exact ordered e he

theorem apart_of_lt (h : Valid l) (he : e ∈ l) (hf : f ∈ l) (hlt : e.1 < f.1) : e.1 < f.2.base := by
  cases h with
  | mk _ _ apart => exact apart e he f hf hlt

theorem within (h : Valid l) (he : e ∈ l) (hr : Stores e.2.map r) :
    Within r (range e) ∧ ¬ SameEnds r (range e) := by
  cases h with
  | mk _ _ _ within => exact within e he r hr

theorem children (h : Valid l) (he : e ∈ l) : Valid e.2.map := by
  cases h with
  | mk _ _ _ _ children => exact children e he

theorem nil : Valid ([] : List (BitVec w × ContainedRangeMap w ε)) :=
  .mk List.Pairwise.nil nofun nofun nofun nofun

theorem apart (h : Valid l) (he : e ∈ l) (hf : f ∈ l) (hne : e ≠ f) :
    Apart (range e) (range f) := by
  rcases lt_trichotomy e.1 f.1 with hlt | heq | hgt
  · exact .inl (h.apart_of_lt he hf hlt)
  · exact absurd (h.sorted.eq_of_key he hf heq) hne
  · exact .inr (h.apart_of_lt hf he hgt)

theorem eq_of_has (h : Valid l) (he : e ∈ l) (hf : f ∈ l) (hea : (range e).Has a)
    (hfa : (range f).Has a) : e = f := by
  by_contra hne
  exact (h.apart he hf hne).not_has hea hfa

/-- The first child that does not end below an address is the one that has it, if any does. -/
theorem first_of_has (h : Valid l) (he : e ∈ l) (hea : (range e).Has a) :
    l[lowerBound l a]? = some e := by
  refine (getElem?_lowerBound h.sorted).2 ⟨he, hea.2, fun f hf hfa => ?_⟩
  by_contra hlt
  exact absurd (hfa.trans_lt (h.apart_of_lt hf he (not_le.1 hlt))) (not_lt.2 hea.1)

end Valid

theorem Stores.mono (h : ∀ e ∈ l, e ∈ l') (hr : Stores l r) : Stores l' r := by
  cases hr with
  | child he => exact .child (h _ he)
  | inner he hr => exact .inner (h _ he) hr

/-- A stored range is a child's or below one. -/
theorem stores_iff : Stores l r ↔ ∃ e ∈ l, r = range e ∨ Stores e.2.map r := by
  constructor
  · rintro (he | ⟨he, hr⟩)
    · exact ⟨_, he, .inl rfl⟩
    · exact ⟨_, he, .inr hr⟩
  · rintro ⟨e, he, rfl | hr⟩
    · exact .child he
    · exact .inner he hr

theorem Valid.within_child (h : Valid l) (he : e ∈ l) (hr : r = range e ∨ Stores e.2.map r) :
    Within r (range e) := by
  rcases hr with rfl | hr
  · exact ⟨le_rfl, le_rfl⟩
  · exact (h.within he hr).1

/-- Any two ranges of a tree nest. -/
theorem Valid.nests (h : Valid l) : {r | Stores l r}.Pairwise Nests := by
  induction h with
  | mk sorted ordered apart within children ih =>
    have hv := Valid.mk sorted ordered apart within children
    intro r hr s hs hne
    obtain ⟨e, he, hre⟩ := stores_iff.1 hr
    obtain ⟨f, hf, hsf⟩ := stores_iff.1 hs
    by_cases hef : e = f
    · subst hef
      rcases hre with rfl | hre <;> rcases hsf with rfl | hsf
      · exact absurd rfl hne
      · have hin := within e he s hsf
        exact .inr ⟨.inr hin.1, fun hs => hin.2 hs.symm⟩
      · have hin := within e he r hre
        exact .inr ⟨.inl hin.1, hin.2⟩
      · exact ih e he hre hsf hne
    · have hapart := (hv.apart he hf hef).of_within (hv.within_child he hre)
      exact .inl (hapart.symm.of_within (hv.within_child hf hsf)).symm

theorem Valid.stores_ordered (h : Valid l) (hr : Stores l r) : r.low ≤ r.high := by
  induction h with
  | mk sorted ordered apart within children ih =>
    obtain ⟨e, he, rfl | hr⟩ := stores_iff.1 hr
    · exact ordered e he
    · exact ih e he hr

/-! ## Storing next to children -/

section Over

/-- The first test of `StoreRange`: a child begins below the new range and reaches into it. -/
theorem any_below_iff (hv : Valid l) :
    (l[lowerBound l base]?.any fun e => decide (e.2.base < base)) = true
      ↔ ∃ e ∈ l, e.2.base < base ∧ base ≤ e.1 := by
  rw [Option.any_eq_true]
  constructor
  · rintro ⟨e, he, hlt⟩
    have hfirst := (getElem?_lowerBound hv.sorted).1 he
    exact ⟨e, hfirst.1, of_decide_eq_true hlt, hfirst.2.1⟩
  · rintro ⟨e, he, hlt, hle⟩
    exact ⟨e, hv.first_of_has he ⟨hlt.le, hle⟩, decide_eq_true hlt⟩

theorem any_contains_iff :
    (l[lowerBound l high]?.any fun e => decide (e.2.base ≤ high)) = true
      ↔ ∃ e, l[lowerBound l high]? = some e ∧ e.2.base ≤ high := by
  rw [Option.any_eq_true]
  exact exists_congr fun e => and_congr_right fun _ => decide_eq_true_iff

/-- The second test: a child begins within the new range and reaches above it. -/
theorem any_above_iff (hv : Valid l) :
    ((l[lowerBound l high]?.any fun e => decide (e.2.base ≤ high)) = true ∧
        (l[lowerBound l high]?.any fun e => decide (high < e.1)) = true)
      ↔ ∃ e ∈ l, e.2.base ≤ high ∧ high < e.1 := by
  rw [any_contains_iff, Option.any_eq_true]
  constructor
  · rintro ⟨⟨e, he, hle⟩, f, hf, hlt⟩
    rw [he, Option.some_inj] at hf
    subst hf
    exact ⟨e, ((getElem?_lowerBound hv.sorted).1 he).1, hle, of_decide_eq_true hlt⟩
  · rintro ⟨e, he, hle, hlt⟩
    have hfirst := hv.first_of_has he ⟨hle, hlt.le⟩
    exact ⟨⟨e, hfirst, hle⟩, e, hfirst, decide_eq_true hlt⟩

variable (hv : Valid l) (hle : base ≤ high)
  (hout : ∀ e ∈ l, ¬ (e.2.base ≤ base ∧ high ≤ e.1))

include hle hout in
/-- When no child has the whole range, a child crosses it when it reaches into it over an end. -/
theorem not_nests_iff (he : e ∈ l) :
    ¬ Nests (range e) ⟨base, high, entry⟩
      ↔ (e.2.base < base ∧ base ≤ e.1) ∨ (e.2.base ≤ high ∧ high < e.1) := by
  have hno := hout e he
  unfold Nests Apart Within SameEnds range
  simp only []
  constructor
  · intro h
    push Not at h
    obtain ⟨⟨h1, h2⟩, h3⟩ := h
    rcases lt_or_ge e.2.base base with hlt | hge
    · exact .inl ⟨hlt, h1⟩
    · right
      refine ⟨h2, not_le.1 fun hhigh => ?_⟩
      obtain ⟨hb, hh⟩ := h3 (.inl ⟨hge, hhigh⟩)
      exact hno ⟨hb.le, hh.ge⟩
  · rintro (⟨h1, h2⟩ | ⟨h1, h2⟩) (h | ⟨h, -⟩)
    · rcases h with h | h
      · exact absurd h (not_lt.2 h2)
      · exact absurd (h1.trans_le hle) (not_lt.2 h.le)
    · rcases h with h | h
      · exact absurd h.1 (not_le.2 h1)
      · exact hno ⟨h.1, h.2⟩
    · rcases h with h | h
      · exact absurd (h2.trans h) (not_lt.2 hle)
      · exact absurd h (not_lt.2 h1)
    · rcases h with h | h
      · exact absurd h.2 (not_le.2 h2)
      · exact hno ⟨h.1, h.2⟩

include hv hout in
/-- A range that no child has nests with all that is stored when it nests with the children. -/
theorem nests_of_children (h : ∀ e ∈ l, Nests (range e) ⟨base, high, entry⟩) (hr : Stores l r) :
    Nests r ⟨base, high, entry⟩ := by
  obtain ⟨e, he, rfl | hr⟩ := stores_iff.1 hr
  · exact h e he
  · have hin := hv.within he hr
    rcases h e he with hapart | ⟨hw | hw, -⟩
    · exact .inl (hapart.of_within hin.1)
    · refine .inr ⟨.inl (hin.1.trans hw), fun hs => hin.2 ⟨?_, ?_⟩⟩
      · exact le_antisymm (hs.1.le.trans hw.1) hin.1.1
      · exact le_antisymm hin.1.2 (hw.2.trans hs.2.ge)
    · exact absurd hw (hout e he)

/-- The children that move below the new range are those that end up to its high address. -/
theorem moved_bound (hv : Valid l) (h : ¬ ∃ e ∈ l, e.2.base ≤ high ∧ high < e.1) :
    (if (l[lowerBound l high]?.any fun e => decide (e.2.base ≤ high)) = true
      then lowerBound l high + 1 else lowerBound l high) = upperBound l high := by
  split_ifs with hc
  · obtain ⟨e, he, hle⟩ := any_contains_iff.1 hc
    have hfirst := (getElem?_lowerBound hv.sorted).1 he
    have hkey : e.1 = high :=
      le_antisymm (not_lt.1 fun hlt => h ⟨e, hfirst.1, hle, hlt⟩) hfirst.2.1
    exact (upperBound_of_key hv.sorted he hkey).symm
  · refine (upperBound_of_not_key hv.sorted fun e he hkey => hc ?_).symm
    exact any_contains_iff.2 ⟨e, hv.first_of_has he ⟨hkey ▸ hv.ordered he, hkey.ge⟩,
      hkey ▸ hv.ordered he⟩

theorem lowerBound_le_upperBound (hle : base ≤ high) :
    lowerBound l base ≤ upperBound l high := by
  have h : lowerBound l base ≤ lowerBound l high := lowerBound_mono l hle
  refine h.trans ?_
  exact List.findIdx_le_findIdx fun _ _ he => decide_eq_true (of_decide_eq_true he).le

include hv hout in
/-- What is stored below the children that move is strictly within the new range. -/
theorem within_of_moved (h1 : ¬ ∃ e ∈ l, e.2.base < base ∧ base ≤ e.1)
    {moved : List (BitVec w × ContainedRangeMap w ε)}
    (hmoved : ∀ e ∈ moved, e ∈ l ∧ base ≤ e.1 ∧ e.1 ≤ high) (hr : Stores moved r) :
    Within r ⟨base, high, entry⟩ ∧ ¬ SameEnds r ⟨base, high, entry⟩ := by
  obtain ⟨e, he, hre⟩ := stores_iff.1 hr
  obtain ⟨hel, hbase, hhigh⟩ := hmoved e he
  have hlow : base ≤ e.2.base := not_lt.1 fun hlt => h1 ⟨e, hel, hlt, hbase⟩
  have hin := hv.within_child hel hre
  refine ⟨⟨hlow.trans hin.1, hin.2.trans hhigh⟩, fun hs => hout e hel ⟨?_, ?_⟩⟩
  · exact hin.1.trans hs.1.le
  · exact hs.2.ge.trans hin.2

include hv hle hout in
/-- The new range with the children it has, next to the others. -/
theorem valid_over (h1 : ¬ ∃ e ∈ l, e.2.base < base ∧ base ≤ e.1)
    (h2 : ¬ ∃ e ∈ l, e.2.base ≤ high ∧ high < e.1)
    {moved rest : List (BitVec w × ContainedRangeMap w ε)} (hmoved : Sorted moved)
    (hrest : Sorted rest) (hmem_moved : ∀ e, e ∈ moved ↔ e ∈ l ∧ base ≤ e.1 ∧ e.1 ≤ high)
    (hmem_rest : ∀ e, e ∈ rest ↔ e ∈ l ∧ (e.1 < base ∨ high < e.1))
    (hmem : ∀ e, e ∈ insert high (mk base entry moved) rest
      ↔ e ∈ rest ∨ e = (high, mk base entry moved)) :
    Valid (insert high (mk base entry moved) rest) := by
  refine .mk (sorted_insert hrest) ?_ ?_ ?_ ?_
  · intro e he
    rcases (hmem e).1 he with he | rfl
    · exact hv.ordered ((hmem_rest e).1 he).1
    · exact hle
  · intro e he f hf hlt
    rcases (hmem e).1 he with he | rfl <;> rcases (hmem f).1 hf with hf | rfl
    · exact hv.apart_of_lt ((hmem_rest e).1 he).1 ((hmem_rest f).1 hf).1 hlt
    · exact ((hmem_rest e).1 he).2.resolve_right (not_lt.2 hlt.le)
    · exact not_le.1 fun hf' => h2 ⟨f, ((hmem_rest f).1 hf).1, hf', hlt⟩
    · exact absurd hlt (lt_irrefl _)
  · intro e he r hr
    rcases (hmem e).1 he with he | rfl
    · exact hv.within ((hmem_rest e).1 he).1 hr
    · exact within_of_moved hv hout h1 (fun e he => (hmem_moved e).1 he) hr
  · intro e he
    rcases (hmem e).1 he with he | rfl
    · exact hv.children ((hmem_rest e).1 he).1
    · have hsub : ∀ f ∈ moved, f ∈ l := fun f hf => ((hmem_moved f).1 hf).1
      exact .mk hmoved (fun f hf => hv.ordered (hsub f hf))
        (fun f hf g hg => hv.apart_of_lt (hsub f hf) (hsub g hg))
        (fun f hf r => hv.within (hsub f hf)) (fun f hf => hv.children (hsub f hf))

include hv hle hout in
/-- The range takes the children it has for its own, next to the others. -/
theorem storeOver_some (h1 : ¬ ∃ e ∈ l, e.2.base < base ∧ base ≤ e.1)
    (h2 : ¬ ∃ e ∈ l, e.2.base ≤ high ∧ high < e.1) :
    ∃ l', storeOver l base high entry = some l' ∧ Valid l'
      ∧ ∀ r, Stores l' r ↔ r = ⟨base, high, entry⟩ ∨ Stores l r := by
  obtain ⟨moved, hmoved⟩ : ∃ m, m = between l (lowerBound l base) (upperBound l high) := ⟨_, rfl⟩
  obtain ⟨rest, hrest⟩ : ∃ m, m = eraseBetween l (lowerBound l base) (upperBound l high) :=
    ⟨_, rfl⟩
  have hmem_moved : ∀ e, e ∈ moved ↔ e ∈ l ∧ base ≤ e.1 ∧ e.1 ≤ high := fun e => by
    rw [hmoved, mem_between hv.sorted]
  have hmem_rest : ∀ e, e ∈ rest ↔ e ∈ l ∧ (e.1 < base ∨ high < e.1) := fun e => by
    rw [hrest, mem_eraseBetween hv.sorted]
  have hsorted_rest : Sorted rest := hrest ▸ hv.sorted.eraseBetween (lowerBound_le_upperBound hle)
  have hmem : ∀ e, e ∈ insert high (mk base entry moved) rest
      ↔ e ∈ rest ∨ e = (high, mk base entry moved) := fun e => by
    rw [mem_insert hsorted_rest]
    refine or_congr_right (and_iff_left fun f hf hkey => ?_)
    rcases ((hmem_rest f).1 hf).2 with hlt | hlt
    · exact absurd (hkey ▸ hlt) (not_lt.2 hle)
    · exact absurd (hkey ▸ hlt) (lt_irrefl _)
  have hstore : storeOver l base high entry = some (insert high (mk base entry moved) rest) := by
    unfold storeOver
    simp only [any_below_iff hv, any_above_iff hv, h1, h2, or_self, if_false, moved_bound hv h2,
      hmoved, hrest]
  refine ⟨_, hstore, valid_over hv hle hout h1 h2 (hmoved ▸ hv.sorted.between) hsorted_rest
    hmem_moved hmem_rest hmem, fun r => ⟨fun hr => ?_, fun hr => ?_⟩⟩
  · obtain ⟨e, he, hre⟩ := stores_iff.1 hr
    rcases (hmem e).1 he with he | rfl
    · exact .inr (stores_iff.2 ⟨e, ((hmem_rest e).1 he).1, hre⟩)
    · refine hre.imp id fun hr => ?_
      exact hr.mono fun f hf => ((hmem_moved f).1 hf).1
  · have hnew := (hmem _).2 (.inr rfl)
    rcases hr with rfl | hr
    · exact .child hnew
    · obtain ⟨e, he, hre⟩ := stores_iff.1 hr
      by_cases hin : base ≤ e.1 ∧ e.1 ≤ high
      · exact .inner hnew (stores_iff.2 ⟨e, (hmem_moved e).2 ⟨he, hin⟩, hre⟩)
      · rw [not_and_or, not_le, not_le] at hin
        exact stores_iff.2 ⟨e, (hmem e).2 (.inl ((hmem_rest e).2 ⟨he, hin⟩)), hre⟩

theorem storeOver_none (hv : Valid l) (h : (∃ e ∈ l, e.2.base < base ∧ base ≤ e.1)
    ∨ ∃ e ∈ l, e.2.base ≤ high ∧ high < e.1) : storeOver l base high entry = none := by
  unfold storeOver
  simp only [any_below_iff hv, any_above_iff hv]
  exact if_pos h

end Over

/-! ## Storing -/

/-- Where a child has the whole range, the call is passed on to it. -/
theorem storeRange_child {x : ε} {size : BitVec w} {child : ContainedRangeMap w ε}
    (hv : Valid l) (hsize : size ≠ 0) (hle : base ≤ base + size - 1) (he : (key, child) ∈ l)
    (hbase : child.base ≤ base) (hkey : base + size - 1 ≤ key) :
    (mk b x l).storeRange base size entry
      = if child.base = base ∧ key = base + size - 1 then (false, mk b x l)
        else ((child.storeRange base size entry).1,
          mk b x (l.set (lowerBound l base) (key, (child.storeRange base size entry).2))) := by
  have hfirst := hv.first_of_has he ⟨hbase, hle.trans hkey⟩
  have hit := (lowerBound_eq_iff hv.sorted hle hfirst).2 hkey
  rw [storeRange, if_neg (by rw [not_or]; exact ⟨hsize, not_lt.2 hle⟩)]
  split
  · rename_i key' child' hget
    rw [hfirst, Option.some_inj, Prod.mk.injEq] at hget
    obtain ⟨rfl, rfl⟩ := hget
    rw [if_pos ⟨hit, hbase⟩]
  · rename_i hget
    rw [hfirst] at hget
    cases hget

/-- Elsewhere the range is stored at this level. -/
theorem storeRange_over {x : ε} {size : BitVec w} (hv : Valid l) (hsize : size ≠ 0)
    (hle : base ≤ base + size - 1)
    (hout : ∀ e ∈ l, ¬ (e.2.base ≤ base ∧ base + size - 1 ≤ e.1)) :
    (mk b x l).storeRange base size entry = storeHere b x l base (base + size - 1) entry := by
  rw [storeRange, if_neg (by rw [not_or]; exact ⟨hsize, not_lt.2 hle⟩)]
  split
  · rename_i key child hget
    have hmem := ((getElem?_lowerBound hv.sorted).1 hget).1
    rw [if_neg]
    rintro ⟨hit, hbase⟩
    exact hout _ hmem ⟨hbase, (lowerBound_eq_iff hv.sorted hle hget).1 hit⟩
  · rfl

section Set

variable {i : ℕ} {b' : BitVec w} {x' : ε} {lc lc' : List (BitVec w × ContainedRangeMap w ε)}

/-- A child whose own children change stays valid among its siblings. -/
theorem valid_set (hv : Valid l) (hi : l[i]? = some (key, mk b' x' lc)) (hlc : Valid lc')
    (hin : ∀ r, Stores lc' r → Within r ⟨b', key, x'⟩ ∧ ¬ SameEnds r ⟨b', key, x'⟩) :
    Valid (l.set i (key, mk b' x' lc')) := by
  have hmem : ∀ e, e ∈ l.set i (key, mk b' x' lc') ↔ e = (key, mk b' x' lc') ∨ e ∈ l ∧ e.1 ≠ key :=
    fun e => mem_set hv.sorted hi
  have he := List.mem_of_getElem? hi
  have hord : b' ≤ key := hv.ordered he
  have habove : ∀ f ∈ l, key < f.1 → key < f.2.base := fun f hf => hv.apart_of_lt he hf
  have hbelow : ∀ f ∈ l, f.1 < key → f.1 < b' := fun f hf => hv.apart_of_lt hf he
  refine .mk (hv.sorted.set hi) ?_ ?_ ?_ ?_
  · intro e he'
    rcases (hmem e).1 he' with rfl | ⟨he', -⟩
    · exact hord
    · exact hv.ordered he'
  · intro e he' f hf hlt
    rcases (hmem e).1 he' with rfl | ⟨he', -⟩ <;> rcases (hmem f).1 hf with rfl | ⟨hf, -⟩
    · exact absurd hlt (lt_irrefl _)
    · exact habove f hf hlt
    · exact hbelow e he' hlt
    · exact hv.apart_of_lt he' hf hlt
  · intro e he' r hr
    rcases (hmem e).1 he' with rfl | ⟨he', -⟩
    · exact hin r hr
    · exact hv.within he' hr
  · intro e he'
    rcases (hmem e).1 he' with rfl | ⟨he', -⟩
    · exact hlc
    · exact hv.children he'

theorem stores_set (hv : Valid l) (hi : l[i]? = some (key, mk b' x' lc))
    {new : Extent (BitVec w) ε} (hlc : ∀ r, Stores lc' r ↔ r = new ∨ Stores lc r) :
    Stores (l.set i (key, mk b' x' lc')) r ↔ r = new ∨ Stores l r := by
  have hmem : ∀ e, e ∈ l.set i (key, mk b' x' lc') ↔ e = (key, mk b' x' lc') ∨ e ∈ l ∧ e.1 ≠ key :=
    fun e => mem_set hv.sorted hi
  have he := List.mem_of_getElem? hi
  have hold : Stores l ⟨b', key, x'⟩ := .child he
  have hnew := (hmem _).2 (.inl rfl)
  have hnew' : Stores (l.set i (key, mk b' x' lc')) ⟨b', key, x'⟩ := .child hnew
  constructor
  · intro hr
    obtain ⟨e, he', hre⟩ := stores_iff.1 hr
    rcases (hmem e).1 he' with rfl | ⟨he', -⟩
    · rcases hre with rfl | hr
      · exact .inr hold
      · exact ((hlc r).1 hr).imp id fun hr => .inner he hr
    · exact .inr (stores_iff.2 ⟨e, he', hre⟩)
  · rintro (rfl | hr)
    · exact .inner hnew ((hlc _).2 (.inl rfl))
    · obtain ⟨e, he', hre⟩ := stores_iff.1 hr
      by_cases hk : e.1 = key
      · obtain rfl := hv.sorted.eq_of_key he' he hk
        rcases hre with rfl | hr
        · exact hnew'
        · exact .inner hnew ((hlc r).2 (.inr hr))
      · exact stores_iff.2 ⟨e, (hmem e).2 (.inr ⟨he', hk⟩), hre⟩

end Set

/-- A range within a child nests with all that is stored when it nests with what the child has. -/
theorem nests_iff_of_child (hv : Valid l) (he : e ∈ l)
    (hin : Within (⟨base, high, entry⟩ : Extent (BitVec w) ε) (range e))
    (hne : ¬ SameEnds (⟨base, high, entry⟩ : Extent (BitVec w) ε) (range e)) :
    (∀ r, Stores l r → Nests r ⟨base, high, entry⟩)
      ↔ ∀ r, Stores e.2.map r → Nests r ⟨base, high, entry⟩ := by
  constructor
  · intro h r hr
    exact h r (.inner he hr)
  · intro h r hr
    obtain ⟨f, hf, hrf⟩ := stores_iff.1 hr
    by_cases hef : f = e
    · subst hef
      rcases hrf with rfl | hr
      · exact .inr ⟨.inr hin, fun hs => hne hs.symm⟩
      · exact h r hr
    · have hapart := (hv.apart hf he hef).of_within (hv.within_child hf hrf)
      exact .inl (hapart.symm.of_within hin).symm

/-- A range is stored when it nests with every stored one, and then it is stored next to them. -/
theorem storeRange_spec {size : BitVec w} (hv : Valid l) (hsize : size ≠ 0)
    (hle : base ≤ base + size - 1) : ∀ (b : BitVec w) (x : ε),
    ((∀ r, Stores l r → Nests r ⟨base, base + size - 1, entry⟩) →
      ∃ l', (mk b x l).storeRange base size entry = (true, mk b x l') ∧ Valid l'
        ∧ ∀ r, Stores l' r ↔ r = ⟨base, base + size - 1, entry⟩ ∨ Stores l r)
    ∧ (¬ (∀ r, Stores l r → Nests r ⟨base, base + size - 1, entry⟩) →
      (mk b x l).storeRange base size entry = (false, mk b x l)) := by
  induction hv with
  | @mk l sorted ordered apart within children ih =>
    intro b x
    have hv := Valid.mk sorted ordered apart within children
    by_cases hchild : ∃ e ∈ l, e.2.base ≤ base ∧ base + size - 1 ≤ e.1
    · obtain ⟨⟨key, b', x', lc⟩, he, hbase, hkey⟩ := hchild
      have hfirst := hv.first_of_has he ⟨hbase, hle.trans hkey⟩
      rw [storeRange_child hv hsize hle he hbase hkey]
      split_ifs with heq
      · refine ⟨fun h => ?_, fun _ => rfl⟩
        rcases h _ (.child he) with hap | ⟨-, hns⟩
        · exact absurd (⟨hle, le_rfl⟩ : Has _ _) (hap.not_has ⟨hbase.trans hle, hkey⟩)
        · exact absurd ⟨heq.1, heq.2⟩ hns
      · have hin : Within (⟨base, base + size - 1, entry⟩ : Extent (BitVec w) ε)
          (range (key, mk b' x' lc)) := ⟨hbase, hkey⟩
        have hne : ¬ SameEnds (⟨base, base + size - 1, entry⟩ : Extent (BitVec w) ε)
          (range (key, mk b' x' lc)) := fun hs => heq ⟨hs.1.symm, hs.2.symm⟩
        have hmap : (key, mk b' x' lc).2.map = lc := rfl
        obtain ⟨hyes, hno⟩ := ih _ he b' x'
        rw [hmap] at hyes hno
        rw [nests_iff_of_child hv he hin hne, hmap]
        refine ⟨fun h => ?_, fun h => ?_⟩
        · obtain ⟨lc', hstore, hlc', hiff⟩ := hyes h
          refine ⟨l.set (lowerBound l base) (key, mk b' x' lc'), by rw [hstore],
            valid_set hv hfirst hlc' fun r hr => ?_, fun r => stores_set hv hfirst hiff⟩
          rcases (hiff r).1 hr with rfl | hr
          · exact ⟨hin, hne⟩
          · exact within _ he r hr
        · obtain ⟨hlen, hget⟩ := List.getElem?_eq_some_iff.1 hfirst
          rw [hno h, ← hget, List.set_getElem_self]
    · have hout : ∀ e ∈ l, ¬ (e.2.base ≤ base ∧ base + size - 1 ≤ e.1) := fun e he h =>
        hchild ⟨e, he, h⟩
      rw [storeRange_over hv hsize hle hout]
      unfold storeHere
      by_cases hcross : (∃ e ∈ l, e.2.base < base ∧ base ≤ e.1)
        ∨ ∃ e ∈ l, e.2.base ≤ base + size - 1 ∧ base + size - 1 < e.1
      · rw [storeOver_none hv hcross]
        refine ⟨fun h => ?_, fun _ => rfl⟩
        obtain ⟨e, he, hor⟩ : ∃ e ∈ l, (e.2.base < base ∧ base ≤ e.1)
            ∨ (e.2.base ≤ base + size - 1 ∧ base + size - 1 < e.1) := by
          rcases hcross with ⟨e, he, h⟩ | ⟨e, he, h⟩
          · exact ⟨e, he, .inl h⟩
          · exact ⟨e, he, .inr h⟩
        exact absurd (h _ (.child he)) ((not_nests_iff hle hout he).2 hor)
      · rw [not_or] at hcross
        obtain ⟨l', hstore, hv', hiff⟩ := storeOver_some hv hle hout hcross.1 hcross.2
        rw [hstore]
        refine ⟨fun _ => ⟨l', rfl, hv', hiff⟩, fun h => absurd (fun r hr => ?_) h⟩
        refine nests_of_children hv hout (fun e he => ?_) hr
        by_contra hn
        rcases (not_nests_iff hle hout he).1 hn with h | h
        · exact hcross.1 ⟨e, he, h⟩
        · exact hcross.2 ⟨e, he, h⟩

/-! ## Looking an address up -/

/-- What is found is the entry of the smallest range with the address, and nothing only where no
range has it. -/
theorem retrieveRange_spec (hv : Valid l) : ∀ (b : BitVec w) (x : ε),
    (∀ y, (mk b x l).retrieveRange a = some y → ∃ r, Smallest {r | Stores l r} a r ∧ r.label = y)
    ∧ ((mk b x l).retrieveRange a = none → ∀ r, Stores l r → ¬ r.Has a) := by
  induction hv with
  | @mk l sorted ordered apart within children ih =>
    intro b x
    have hv := Valid.mk sorted ordered apart within children
    have hnone : (∀ e ∈ l, ¬ (range e).Has a) → ∀ r, Stores l r → ¬ r.Has a := by
      intro h r hr ha
      obtain ⟨e, he, hre⟩ := stores_iff.1 hr
      exact h e he ((hv.within_child he hre).has ha)
    rw [retrieveRange]
    split
    · rename_i hget
      refine ⟨fun y hy => absurd hy.symm (Option.some_ne_none y), fun _ => hnone fun e he ha => ?_⟩
      rw [hv.first_of_has he ha] at hget
      cases hget
    · rename_i key child hget
      obtain ⟨b', x', lc⟩ := child
      have hfirst := (getElem?_lowerBound hv.sorted).1 hget
      split_ifs with hlt
      · refine ⟨fun y hy => hy.elim, fun _ => hnone fun e he ha => ?_⟩
        rw [hv.first_of_has he ha, Option.some_inj] at hget
        subst hget
        exact absurd ha.1 (not_le.2 hlt)
      · have hhas : (range (key, mk b' x' lc)).Has a := ⟨not_lt.1 hlt, hfirst.2.1⟩
        have hmem := hfirst.1
        have hchild : ∀ s, Stores l s → s.Has a → s = range (key, mk b' x' lc) ∨ Stores lc s := by
          intro s hs ha
          obtain ⟨e, he, hse⟩ := stores_iff.1 hs
          obtain rfl := hv.eq_of_has he hmem ((hv.within_child he hse).has ha) hhas
          exact hse
        have hin : ∀ s, Stores lc s → Within s (range (key, mk b' x' lc)) := fun s hs =>
          (hv.within hmem hs).1
        have hmap : (key, mk b' x' lc).2.map = lc := rfl
        obtain ⟨hsome, hnone'⟩ := ih _ hmem b' x'
        rw [hmap] at hsome hnone'
        refine ⟨fun y hy => ?_, fun h => by cases h⟩
        rcases hc : (mk b' x' lc).retrieveRange a with _ | z
        · rw [hc] at hy
          refine ⟨range (key, mk b' x' lc), ⟨.child hmem, hhas, fun s hs ha => ?_⟩,
            Option.some_inj.1 hy⟩
          rcases hchild s hs ha with rfl | hs
          · exact ⟨le_rfl, le_rfl⟩
          · exact absurd ha (hnone' hc s hs)
        · rw [hc] at hy
          obtain ⟨r, ⟨hr, hra, hrmin⟩, hrz⟩ := hsome z hc
          refine ⟨r, ⟨.inner hmem hr, hra, fun s hs ha => ?_⟩, hrz.trans (Option.some_inj.1 hy)⟩
          rcases hchild s hs ha with rfl | hs
          · exact hin r hr
          · exact hrmin s hs ha

/-! ## The tree of a set of ranges -/

/-- What is below a child is what is strictly within it. -/
theorem stores_child_iff (hv : Valid l) (he : e ∈ l) :
    Stores e.2.map r ↔ Stores l r ∧ Within r (range e) ∧ r ≠ range e := by
  constructor
  · intro hr
    have hin := hv.within he hr
    exact ⟨.inner he hr, hin.1, fun h => hin.2 (h ▸ ⟨rfl, rfl⟩)⟩
  · rintro ⟨hr, hin, hne⟩
    obtain ⟨f, hf, hrf⟩ := stores_iff.1 hr
    have hrf' := hv.within_child hf hrf
    have hlow : r.Has r.low := ⟨le_rfl, hv.stores_ordered hr⟩
    obtain rfl := hv.eq_of_has hf he (hrf'.has hlow) (hin.has hlow)
    exact hrf.resolve_left hne

/-- A child's range is a child's range of every tree with the same ranges. -/
theorem child_of_stores (hv : Valid l) (hv' : Valid l') (h : ∀ r, Stores l r ↔ Stores l' r)
    (he : e ∈ l) : ∃ f ∈ l', range f = range e := by
  obtain ⟨f, hf, hef⟩ := stores_iff.1 ((h _).1 (.child he))
  rcases hef with hef | hef
  · exact ⟨f, hf, hef.symm⟩
  · have hin := hv'.within hf hef
    obtain ⟨g, hg, hfg⟩ := stores_iff.1 ((h _).2 (.child hf))
    have hfg' := hv.within_child hg hfg
    have hlow : (range e).Has e.2.base := ⟨le_rfl, hv.ordered he⟩
    obtain rfl := hv.eq_of_has hg he ((hin.1.trans hfg').has hlow) hlow
    exact absurd ⟨le_antisymm hfg'.1 hin.1.1, le_antisymm hin.1.2 hfg'.2⟩ hin.2

theorem ext {m m' : ContainedRangeMap w ε} (hb : m.base = m'.base) (hx : m.entry = m'.entry)
    (hm : m.map = m'.map) : m = m' := by
  obtain ⟨b, x, l⟩ := m
  obtain ⟨b', x', l'⟩ := m'
  simp only [ContainedRangeMap.base, ContainedRangeMap.entry, map] at hb hx hm
  rw [hb, hx, hm]

theorem eq_of_range (hmap : e.2.map = f.2.map) (hr : range e = range f) : e = f :=
  Prod.ext (congrArg Extent.high hr)
    (ext (congrArg Extent.low hr) (congrArg Extent.label hr) hmap)

/-- Trees with the same ranges are the same. -/
theorem eq_of_stores (hv : Valid l) : ∀ {l'}, Valid l' → (∀ r, Stores l r ↔ Stores l' r) →
    l = l' := by
  induction hv with
  | @mk l sorted ordered apart within children ih =>
    intro l' hv' h
    have hv := Valid.mk sorted ordered apart within children
    have hsub : ∀ e ∈ l, ∃ f ∈ l', range f = range e ∧ e = f := by
      intro e he
      obtain ⟨f, hf, hfe⟩ := child_of_stores hv hv' h he
      refine ⟨f, hf, hfe, eq_of_range (ih e he (hv'.children hf) fun r => ?_) hfe.symm⟩
      rw [stores_child_iff hv he, stores_child_iff hv' hf, h, hfe]
    refine hv.sorted.ext hv'.sorted fun e => ⟨fun he => ?_, fun he => ?_⟩
    · obtain ⟨f, hf, -, rfl⟩ := hsub e he
      exact hf
    · obtain ⟨f, hf, hfe⟩ := child_of_stores hv' hv (fun r => (h r).symm) he
      obtain ⟨g, hg, hgf, rfl⟩ := hsub f hf
      have hkey : e.1 = f.1 := congrArg Extent.high hfe.symm
      exact hv'.sorted.eq_of_key he hg hkey ▸ hf

end Xrash.ContainedRangeMap
