import Xrash.RangeMap
import Mathlib.Data.Set.Image
import Mathlib.Order.Bounds.Basic
import Mathlib.Tactic.Ring

/-!
# The ranges of a range map

The ranges of a map do not overlap, whatever calls made it. Storing a range first looks at the
first range that does not end below it; from there on the three strategies differ, and each leaves
a set of ranges that is described in terms of the old one.
-/

namespace Xrash

/-! ## Addresses -/

section Addresses

variable {w : ℕ} {a b x : BitVec w}

theorem toNat_one_of_lt (h : a < b) : (1 : BitVec w).toNat = 1 := by
  have hlt := b.isLt
  rw [BitVec.lt_def] at h
  have hmod : 1 < 2 ^ w := by omega
  exact Nat.mod_eq_of_lt hmod

theorem toNat_sub_one (h : x < b) : (b - 1).toNat = b.toNat - 1 := by
  have hone := toNat_one_of_lt h
  rw [BitVec.lt_def] at h
  rw [BitVec.toNat_sub_of_le (by rw [BitVec.le_def]; omega), hone]

theorem toNat_add_one (h : b < x) : (b + 1).toNat = b.toNat + 1 := by
  have hone := toNat_one_of_lt h
  have hlt := x.isLt
  rw [BitVec.lt_def] at h
  rw [BitVec.toNat_add_of_lt (by omega), hone]

theorem le_sub_one_iff (h : x < b) : a ≤ b - 1 ↔ a < b := by
  rw [BitVec.le_def, BitVec.lt_def, toNat_sub_one h]
  rw [BitVec.lt_def] at h
  omega

theorem add_one_le_iff (h : b < x) : b + 1 ≤ a ↔ b < a := by
  rw [BitVec.le_def, BitVec.lt_def, toNat_add_one h]
  omega

end Addresses

namespace RangeMap

variable {w : ℕ} {ε : Type*} {m : RangeMap w ε} {a base high key : BitVec w}
  {e f : BitVec w × Range w ε} {r : Range w ε}

/-! ## Looking a range up -/

/-- The ranges of `m'` are those of `m` changed by `g`, and `x`. -/
structure Adds (m m' : RangeMap w ε) (x : BitVec w × Range w ε)
    (g : BitVec w × Range w ε → BitVec w × Range w ε) : Prop where
  valid : m'.Valid
  mergeStrategy : m'.mergeStrategy = m.mergeStrategy
  ranges : m'.ranges = insert x (g '' m.ranges)
  key_ne : ∀ e ∈ m.ranges, (g e).1 ≠ x.1

/-- The first range that does not end below `a`. -/
def first (m : RangeMap w ε) (a : BitVec w) : Option (BitVec w × Range w ε) :=
  m.map.entries[m.map.lowerBound a]?

theorem first_eq_some : m.first a = some f ↔
    f ∈ m.ranges ∧ a ≤ f.1 ∧ ∀ e ∈ m.ranges, a ≤ e.1 → f.1 ≤ e.1 :=
  KeyList.getElem?_lowerBound m.map.sorted

theorem first_eq_none : m.first a = none ↔ ∀ e ∈ m.ranges, e.1 < a :=
  KeyList.getElem?_lowerBound_none

theorem eq_of_key (he : e ∈ m.ranges) (hf : f ∈ m.ranges) (h : e.1 = f.1) : e = f :=
  m.map.sorted.eq_of_key he hf h

/-- Ranges that share an address are the same. -/
theorem Valid.eq_of_contains (hv : m.Valid) (he : e ∈ m.ranges) (hf : f ∈ m.ranges)
    (hea : e.2.base ≤ a ∧ a ≤ e.1) (hfa : f.2.base ≤ a ∧ a ≤ f.1) : e = f := by
  rcases lt_trichotomy e.1 f.1 with hlt | heq | hgt
  · exact absurd (hea.2.trans_lt (hv.disjoint e he f hf hlt)) (not_lt.2 hfa.1)
  · exact eq_of_key he hf heq
  · exact absurd (hfa.2.trans_lt (hv.disjoint f hf e he hgt)) (not_lt.2 hea.1)

theorem Valid.first_of_contains (hv : m.Valid) (he : e ∈ m.ranges)
    (hea : e.2.base ≤ a ∧ a ≤ e.1) : m.first a = some e := by
  refine first_eq_some.2 ⟨he, hea.2, fun f hf hfa => ?_⟩
  by_contra hlt
  exact absurd (hfa.trans_lt (hv.disjoint f hf e he (not_le.1 hlt))) (not_lt.2 hea.1)

theorem retrieveRange_eq_some (hv : m.Valid) {x : Retrieved w ε} :
    m.retrieveRange a = some x ↔
      ∃ e ∈ m.ranges, (e.2.base ≤ a ∧ a ≤ e.1) ∧ retrieved e = x := by
  constructor
  · intro h
    unfold retrieveRange at h
    rcases hf : m.map.entries[m.map.lowerBound a]? with _ | f <;> rw [hf] at h
    · cases h
    · simp only [] at h
      split_ifs at h with hlt
      have hfirst := first_eq_some.1 (show m.first a = some f from hf)
      exact ⟨f, hfirst.1, ⟨not_lt.1 hlt, hfirst.2.1⟩, Option.some_inj.1 h⟩
  · rintro ⟨e, he, hea, rfl⟩
    have hf : m.map.entries[m.map.lowerBound a]? = some e := hv.first_of_contains he hea
    unfold retrieveRange
    rw [hf]
    exact if_neg (not_lt.2 hea.1)

/-! ## One layer of the recursion -/

/-- The map with one more range. -/
def put (m : RangeMap w ε) (high : BitVec w) (r : Range w ε) : RangeMap w ε :=
  { m with map := m.map.insert high r }

/-- The map with another range in place of the first that does not end below `a`. -/
def recut (m : RangeMap w ε) (a key : BitVec w) (r : Range w ε) : RangeMap w ε :=
  { m with map := (m.map.erase (m.map.lowerBound a)).insert key r }

theorem replace_eq (hv : m.Valid) (hf : m.first base = some f) (g : Retrieved w ε → Range w ε) :
    m.replace (m.map.lowerBound base) f.1 key g = some (m.recut base key (g (retrieved f))) := by
  have hmem := (first_eq_some.1 hf).1
  have hr : m.retrieveRange f.1 = some (retrieved f) :=
    (retrieveRange_eq_some hv).2 ⟨f, hmem, ⟨hv.ordered f hmem, le_rfl⟩, rfl⟩
  unfold replace
  rw [hr]
  rfl

theorem lowerBound_eq_iff (hle : base ≤ high) (hf : m.first base = some f) :
    m.map.lowerBound base = m.map.lowerBound high ↔ high ≤ f.1 :=
  KeyList.lowerBound_eq_iff m.map.sorted hle hf

theorem lowerBound_eq_of_none (hle : base ≤ high) (hf : m.first base = none) :
    m.map.lowerBound base = m.map.lowerBound high := by
  have hmono : m.map.lowerBound base ≤ m.map.lowerBound high :=
    KeyList.lowerBound_mono m.map.entries hle
  have hlen : m.map.entries.length ≤ m.map.lowerBound base := List.getElem?_eq_none_iff.1 hf
  have hmax : m.map.lowerBound high ≤ m.map.entries.length := KeyList.lowerBound_le_length
  omega

/-- What is done about the first range `f` that does not end below the new one, when it begins
before the new one ends. -/
def overlap (fuel : ℕ) (m : RangeMap w ε) (base delta size : BitVec w) (entry : ε)
    (f : BitVec w × Range w ε) : Option (Bool × RangeMap w ε) :=
  let high := base + (size - 1)
  match m.mergeStrategy with
  | .exclusiveRanges => some (false, m)
  | .truncateLower =>
    if base < f.2.base then storeRangeInternal fuel m base delta (f.2.base - base) entry
    else if f.2.base < base then
      storeRangeInternal fuel (m.recut base (base - 1) f.2) base delta size entry
    else some (false, m)
  | .truncateUpper =>
    if f.1 < high then
      storeRangeInternal fuel m (base + (f.1 - base + 1)) (delta + (f.1 - base + 1))
        (size - (f.1 - base + 1)) entry
    else if high < f.1 then
      storeRangeInternal fuel (m.recut base f.1 ⟨f.2.base + (high - f.2.base + 1),
        f.2.delta + (high - f.2.base + 1), f.2.entry⟩) base delta size entry
    else some (false, m)

variable {fuel : ℕ} {delta size : BitVec w} {entry : ε}

theorem storeRangeInternal_bad (h : size = 0 ∨ base + (size - 1) < base) :
    storeRangeInternal (fuel + 1) m base delta size entry = some (false, m) := by
  unfold storeRangeInternal
  exact if_pos h

theorem storeRangeInternal_none (hsize : size ≠ 0) (hle : base ≤ base + (size - 1))
    (hf : m.first base = none) :
    storeRangeInternal (fuel + 1) m base delta size entry
      = some (true, m.put (base + (size - 1)) ⟨base, delta, entry⟩) := by
  have hit := lowerBound_eq_of_none hle hf
  unfold first at hf
  unfold storeRangeInternal
  simp only [hsize, not_lt.2 hle, or_self, if_false, ne_eq, hit, not_true_eq_false]
  rw [← hit, hf]
  rfl

theorem storeRangeInternal_some (hv : m.Valid) (hsize : size ≠ 0)
    (hle : base ≤ base + (size - 1)) (hf : m.first base = some f) :
    storeRangeInternal (fuel + 1) m base delta size entry
      = if f.2.base ≤ base + (size - 1) then overlap fuel m base delta size entry f
        else some (true, m.put (base + (size - 1)) ⟨base, delta, entry⟩) := by
  have hit := lowerBound_eq_iff hle hf
  have hmem := (first_eq_some.1 hf).1
  have hrep : ∀ (key : BitVec w) (g : Retrieved w ε → Range w ε),
      m.replace (m.map.lowerBound base) f.1 key g = some (m.recut base key (g (retrieved f))) :=
    fun key g => replace_eq hv hf g
  have hget : m.map.entries[m.map.lowerBound base]? = some f := hf
  unfold storeRangeInternal overlap
  simp only [hsize, not_lt.2 hle, or_self, if_false]
  by_cases hkey : base + (size - 1) ≤ f.1
  · have heq := hit.2 hkey
    rw [if_neg (not_not.2 heq), ← heq]
    simp only [hget]
    by_cases hover : f.2.base ≤ base + (size - 1)
    · rw [if_pos hover, if_pos hover]
      rcases hs : m.mergeStrategy <;> simp only [hrep, Option.bind_some]
      · rfl
      · simp only [not_lt.2 hkey, if_false, retrieved]
    · rw [if_neg hover, if_neg hover]
      rfl
  · have hne := mt hit.1 hkey
    have hover : f.2.base ≤ base + (size - 1) :=
      (hv.ordered f hmem).trans (le_of_lt (not_le.1 hkey))
    rw [if_pos hne, if_pos hover]
    simp only [hget]
    rcases hs : m.mergeStrategy <;> simp only [hrep, Option.bind_some]
    · rfl
    · simp only [not_le.1 hkey, if_true]

/-! ## Sets of ranges -/

theorem ranges_put (h : ∀ e ∈ m.ranges, e.1 ≠ high) :
    (m.put high r).ranges = insert (high, r) m.ranges := by
  ext e
  have := KeyList.mem_insert (k := high) (v := r) m.map.sorted (e := e)
  constructor
  · intro he
    rcases this.1 he with he | ⟨rfl, -⟩
    · exact .inr he
    · exact .inl rfl
  · rintro (rfl | he)
    · exact this.2 (.inr ⟨rfl, h⟩)
    · exact this.2 (.inl he)

theorem ranges_recut (hf : m.first a = some f) (h : ∀ e ∈ m.ranges, e ≠ f → e.1 ≠ key) :
    (m.recut a key r).ranges = insert (key, r) (m.ranges \ {f}) := by
  obtain ⟨hlen, hfe⟩ := List.getElem?_eq_some_iff.1 hf
  have hdrop : ∀ e, e ∈ (m.map.erase (m.map.lowerBound a)).entries ↔ e ∈ m.ranges \ {f} := by
    intro e
    have := KeyList.mem_eraseIdx (e := e) m.map.sorted hlen
    rw [hfe] at this
    exact this
  have hput : (put { m with map := m.map.erase (m.map.lowerBound a) } key r).ranges
      = insert (key, r) (RangeMap.ranges { m with map := m.map.erase (m.map.lowerBound a) }) :=
    ranges_put fun e he => by
      obtain ⟨hmem, hne⟩ := (hdrop e).1 he
      exact h e hmem hne
  have hset : RangeMap.ranges { m with map := m.map.erase (m.map.lowerBound a) }
      = m.ranges \ {f} := Set.ext hdrop
  rw [hset] at hput
  exact hput

/-- A range that meets no stored one has a key of its own. -/
theorem key_ne_of_free (hv : m.Valid) (hle : base ≤ high)
    (h : ∀ e ∈ m.ranges, e.1 < base ∨ high < e.2.base) : ∀ e ∈ m.ranges, e.1 ≠ high := by
  intro e he
  rcases h e he with hlt | hlt
  · exact ne_of_lt (hlt.trans_le hle)
  · exact ne_of_gt (hlt.trans_le (hv.ordered e he))

/-- A range that meets no stored one can be added. -/
theorem valid_put (hv : m.Valid) (hr : r.base ≤ high)
    (h : ∀ e ∈ m.ranges, e.1 < r.base ∨ high < e.2.base) : (m.put high r).Valid := by
  have hne := key_ne_of_free hv hr h
  constructor
  · rw [ranges_put hne, Set.forall_mem_insert]
    exact ⟨hr, hv.ordered⟩
  · simp only [ranges_put hne, Set.forall_mem_insert, lt_self_iff_false, false_imp_iff, true_and]
    refine ⟨fun f hf hlt => ?_, fun e he => ⟨fun hlt => ?_, hv.disjoint e he⟩⟩
    · exact (h f hf).resolve_left (not_lt.2 (hr.trans hlt.le))
    · exact (h e he).resolve_right (not_lt.2 ((hv.ordered e he).trans hlt.le))

/-- A stored range can be replaced by one within it. -/
theorem valid_recut (hv : m.Valid) (hf : m.first a = some f) (hr : r.base ≤ key)
    (hbase : f.2.base ≤ r.base) (hkey : key ≤ f.1) :
    (m.recut a key r).Valid ∧ (m.recut a key r).ranges = insert (key, r) (m.ranges \ {f}) := by
  have hmem := (first_eq_some.1 hf).1
  have hsep : ∀ e ∈ m.ranges, e ≠ f → e.1 < r.base ∨ key < e.2.base := fun e he hne => by
    rcases lt_trichotomy e.1 f.1 with hlt | heq | hgt
    · exact .inl ((hv.disjoint e he f hmem hlt).trans_le hbase)
    · exact absurd (eq_of_key he hmem heq) hne
    · exact .inr (hkey.trans_lt (hv.disjoint f hmem e he hgt))
  have hranges : (m.recut a key r).ranges = insert (key, r) (m.ranges \ {f}) :=
    ranges_recut hf fun e he hne heq => by
      rcases hsep e he hne with hlt | hlt
      · exact absurd (heq ▸ hlt) (not_lt.2 hr)
      · exact absurd (heq ▸ hlt) (not_lt.2 (hv.ordered e he))
  refine ⟨⟨?_, ?_⟩, hranges⟩
  · rw [hranges, Set.forall_mem_insert]
    exact ⟨hr, fun e he => hv.ordered e he.1⟩
  · simp only [hranges, Set.forall_mem_insert, lt_self_iff_false, false_imp_iff, true_and]
    refine ⟨fun g hg hlt => ?_, fun e he => ⟨fun hlt => ?_, fun g hg => ?_⟩⟩
    · exact (hsep g hg.1 hg.2).resolve_left (not_lt.2 (hr.trans hlt.le))
    · exact (hsep e he.1 he.2).resolve_right (not_lt.2 ((hv.ordered e he.1).trans hlt.le))
    · exact hv.disjoint e he.1 g hg.1

/-- The new range meets no stored one when the first that does not end below it begins above. -/
theorem free_of_first (hv : m.Valid) (h : ∀ f, m.first base = some f → high < f.2.base) :
    ∀ e ∈ m.ranges, e.1 < base ∨ high < e.2.base := by
  intro e he
  by_cases hlt : e.1 < base
  · exact .inl hlt
  · right
    rcases hf : m.first base with _ | f
    · exact absurd (first_eq_none.1 hf e he) hlt
    · have hfirst := first_eq_some.1 hf
      rcases (hfirst.2.2 e he (not_lt.1 hlt)).eq_or_lt with heq | hgt
      · exact eq_of_key hfirst.1 he heq ▸ h f hf
      · exact (h f hf).trans ((hv.ordered f hfirst.1).trans_lt (hv.disjoint f hfirst.1 e he hgt))

/-- A range is put next to those of a map that are those of `m` changed by `g`. -/
theorem adds_put {m₀ : RangeMap w ε} {g : BitVec w × Range w ε → BitVec w × Range w ε}
    (hv : m.Valid) (hs : m.mergeStrategy = m₀.mergeStrategy) (hg : m.ranges = g '' m₀.ranges)
    (hle : r.base ≤ high) (h : ∀ e ∈ m.ranges, e.1 < r.base ∨ high < e.2.base) :
    Adds m₀ (m.put high r) (high, r) g := by
  have hne := key_ne_of_free hv hle h
  refine ⟨valid_put hv hle h, hs, ?_, fun e he => ?_⟩
  · rw [ranges_put hne, hg]
  · exact hne (g e) (hg ▸ Set.mem_image_of_mem g he)

variable (fuel delta entry) in
/-- Nothing stands in the way: one call stores the range. -/
theorem storeRangeInternal_free (hv : m.Valid) (hsize : size ≠ 0)
    (hhigh : base + (size - 1) = high) (hle : base ≤ high)
    (h : ∀ e ∈ m.ranges, e.1 < base ∨ high < e.2.base) :
    storeRangeInternal (fuel + 1) m base delta size entry
      = some (true, m.put high ⟨base, delta, entry⟩) := by
  subst hhigh
  rcases hf : m.first base with _ | f
  · exact storeRangeInternal_none hsize hle hf
  · have hfirst := first_eq_some.1 hf
    rw [storeRangeInternal_some hv hsize hle hf, if_neg]
    exact not_le.2 ((h f hfirst.1).resolve_left (not_lt.2 hfirst.2.1))

theorem image_eq_of_fixed {α : Type*} {g : α → α} {S : Set α} (h : ∀ x ∈ S, g x = x) :
    g '' S = S := by
  rw [Set.image_congr h, Set.image_id']

theorem image_eq_of_fixed_off {α : Type*} {g : α → α} {S : Set α} {x : α} (hx : x ∈ S)
    (h : ∀ y ∈ S, y ≠ x → g y = y) : g '' S = insert (g x) (S \ {x}) := by
  rw [← image_eq_of_fixed (g := g) (S := S \ {x}) fun y hy => h y hy.1 hy.2, ← Set.image_insert_eq,
    Set.insert_sdiff_singleton, Set.insert_eq_of_mem hx]

/-! ## Truncating the lower range -/

section Lower

variable (fuel delta entry)

theorem isGreatest_ends_high (hle : base ≤ high)
    (h : ∀ e ∈ m.ranges, e.1 < base ∨ high < e.2.base) (hv : m.Valid) :
    IsGreatest (m.ends base high) high := by
  refine ⟨⟨hle, le_rfl, fun e he hb => ?_⟩, fun a ha => ha.2.1⟩
  rcases h e he with hlt | hlt
  · exact absurd (hb.1.trans_le (hv.ordered e he)) (not_lt.2 hlt.le)
  · exact absurd hlt (not_lt.2 hb.2)

/-- The lower strategy where no stored range has the base of the new one. -/
theorem lower_above (hv : m.Valid) (hs : m.mergeStrategy = .truncateLower) (hsize : size ≠ 0)
    (hhigh : base + (size - 1) = high) (hle : base ≤ high)
    (h : ∀ f, m.first base = some f → base < f.2.base) :
    ∃ cut, storeRangeInternal (fuel + 2) m base delta size entry
        = some (true, m.put cut ⟨base, delta, entry⟩)
      ∧ IsGreatest (m.ends base high) cut ∧ ∀ e ∈ m.ranges, e.1 < base ∨ cut < e.2.base := by
  by_cases hfree : ∀ f, m.first base = some f → high < f.2.base
  · have hsep := free_of_first hv hfree
    exact ⟨high, storeRangeInternal_free _ _ _ hv hsize hhigh hle hsep,
      isGreatest_ends_high hle hsep hv, hsep⟩
  · push Not at hfree
    obtain ⟨f, hf, hfhigh⟩ := hfree
    have hbase := h f hf
    have hpred : ∀ a, a ≤ f.2.base - 1 ↔ a < f.2.base := fun a => le_sub_one_iff hbase
    have hsep : ∀ e ∈ m.ranges, e.1 < base ∨ f.2.base - 1 < e.2.base :=
        free_of_first hv fun g hg => by
      rw [hf, Option.some_inj] at hg
      subst hg
      exact (hpred _).1 le_rfl
    refine ⟨f.2.base - 1, ?_, ⟨⟨(hpred base).2 hbase, ?_, fun e he hb => ?_⟩, fun a ha => ?_⟩, hsep⟩
    · subst hhigh
      rw [storeRangeInternal_some hv hsize hle hf, if_pos hfhigh]
      unfold overlap
      simp only [hs, hbase, if_true]
      exact storeRangeInternal_free fuel delta entry hv (sub_ne_zero.2 (ne_of_gt hbase)) (by ring)
        ((hpred base).2 hbase) hsep
    · exact le_of_lt (((hpred _).1 le_rfl).trans_le hfhigh)
    · rcases hsep e he with hlt | hlt
      · exact absurd (hb.1.trans_le (hv.ordered e he)) (not_lt.2 hlt.le)
      · exact absurd hlt (not_lt.2 hb.2)
    · rw [hpred]
      exact not_le.1 fun hfa => ha.2.2 f (first_eq_some.1 hf).1 ⟨hbase, hfa⟩

theorem lower_at (hv : m.Valid) (hs : m.mergeStrategy = .truncateLower) (hsize : size ≠ 0)
    (hle : base ≤ base + (size - 1)) (h : ∃ e ∈ m.ranges, e.2.base = base) :
    storeRangeInternal (fuel + 1) m base delta size entry = some (false, m) := by
  obtain ⟨f, hmem, hbase⟩ := h
  have hf := hv.first_of_contains hmem ⟨le_of_eq hbase, hbase ▸ hv.ordered f hmem⟩
  rw [storeRangeInternal_some hv hsize hle hf, if_pos (by rw [hbase]; exact hle)]
  unfold overlap
  simp only [hs, hbase, lt_self_iff_false, if_false]

theorem cutBelow_of_not (h : ¬ (e.2.base < a ∧ a ≤ e.1)) : cutBelow a e = e := if_neg h

/-- The lower strategy where the range `f` has the base of the new one and begins below it. -/
theorem lower_within (hv : m.Valid) (hs : m.mergeStrategy = .truncateLower) (hsize : size ≠ 0)
    (hhigh : base + (size - 1) = high) (hle : base ≤ high) (hf : m.first base = some f)
    (hbase : f.2.base < base) :
    ∃ m' cut, storeRangeInternal (fuel + 3) m base delta size entry = some (true, m')
      ∧ IsGreatest (m.ends base high) cut
      ∧ Adds m m' (cut, ⟨base, delta, entry⟩) (cutBelow base) := by
  have hfirst := first_eq_some.1 hf
  have hpred : ∀ a, a ≤ base - 1 ↔ a < base := fun a => le_sub_one_iff hbase
  obtain ⟨hv', hranges⟩ := valid_recut (r := f.2) hv hf ((hpred _).2 hbase) le_rfl
    ((le_of_lt ((hpred _).1 le_rfl)).trans hfirst.2.1)
  have himage : cutBelow base '' m.ranges = insert (base - 1, f.2) (m.ranges \ {f}) := by
    have hcut : cutBelow base f = (base - 1, f.2) := if_pos ⟨hbase, hfirst.2.1⟩
    rw [image_eq_of_fixed_off hfirst.1 fun e he hne => ?_, hcut]
    refine cutBelow_of_not fun hb => hne ?_
    exact hv.eq_of_contains he hfirst.1 ⟨le_of_lt hb.1, hb.2⟩ ⟨le_of_lt hbase, hfirst.2.1⟩
  have hnext : ∀ g, (m.recut base (base - 1) f.2).first base = some g → base < g.2.base := by
    intro g hg
    obtain ⟨hmem, hge, -⟩ := first_eq_some.1 hg
    rw [hranges] at hmem
    rcases hmem with rfl | ⟨hmem, hne⟩
    · exact absurd ((hpred _).1 le_rfl) (not_lt.2 hge)
    · refine not_le.1 fun hgb => hne ?_
      exact hv.eq_of_contains hmem hfirst.1 ⟨hgb, hge⟩ ⟨le_of_lt hbase, hfirst.2.1⟩
  have hends : (m.recut base (base - 1) f.2).ends base high = m.ends base high := by
    unfold ends
    rw [hranges]
    simp only [Set.forall_mem_insert, not_lt.2 (le_of_lt hbase), false_and, not_false_eq_true,
      true_and]
    ext a
    refine and_congr_right fun _ => and_congr_right fun _ => ⟨fun h e he => ?_, fun h e he => ?_⟩
    · by_cases hef : e = f
      · rw [hef]
        exact fun hb => absurd hb.1 (not_lt.2 (le_of_lt hbase))
      · exact h e ⟨he, hef⟩
    · exact h e he.1
  obtain ⟨cut, hstore, hcut, hsep⟩ :=
    lower_above fuel delta entry hv' (by exact hs) hsize hhigh hle hnext
  refine ⟨_, cut, ?_, hends ▸ hcut, adds_put hv' rfl (hranges.trans himage.symm) hcut.1.1 hsep⟩
  rw [← hstore]
  subst hhigh
  rw [storeRangeInternal_some hv hsize hle hf, if_pos ((le_of_lt hbase).trans hle)]
  unfold overlap
  simp only [hs, not_lt.2 (le_of_lt hbase), if_false, hbase, if_true]

theorem lower_spec (hv : m.Valid) (hs : m.mergeStrategy = .truncateLower) (hsize : size ≠ 0)
    (hhigh : base + (size - 1) = high) (hle : base ≤ high)
    (h : ∀ e ∈ m.ranges, e.2.base ≠ base) :
    ∃ m' cut, storeRangeInternal (fuel + 3) m base delta size entry = some (true, m')
      ∧ IsGreatest (m.ends base high) cut
      ∧ Adds m m' (cut, ⟨base, delta, entry⟩) (cutBelow base) := by
  by_cases hin : ∃ f, m.first base = some f ∧ f.2.base < base
  · obtain ⟨f, hf, hbase⟩ := hin
    exact lower_within fuel delta entry hv hs hsize hhigh hle hf hbase
  · have hnext : ∀ f, m.first base = some f → base < f.2.base := fun f hf =>
      lt_of_le_of_ne (not_lt.1 fun hlt => hin ⟨f, hf, hlt⟩) (h f (first_eq_some.1 hf).1).symm
    obtain ⟨cut, hstore, hcut, hsep⟩ :=
      lower_above (fuel + 1) delta entry hv hs hsize hhigh hle hnext
    have hid : cutBelow base '' m.ranges = m.ranges := image_eq_of_fixed fun e he =>
      cutBelow_of_not fun hb => hin ⟨e, hv.first_of_contains he ⟨le_of_lt hb.1, hb.2⟩, hb.1⟩
    exact ⟨_, cut, hstore, hcut, adds_put hv rfl hid.symm hcut.1.1 hsep⟩

end Lower

/-! ## Truncating the upper range -/

section Upper

variable (fuel delta entry)

theorem cutAbove_of_not (h : ¬ (e.2.base ≤ a ∧ a < e.1)) : cutAbove a e = e := if_neg h

/-- The upper strategy where no stored range ends within the new one. -/
theorem upper_above (hv : m.Valid) (hs : m.mergeStrategy = .truncateUpper) (hsize : size ≠ 0)
    (hhigh : base + (size - 1) = high) (hle : base ≤ high)
    (h : ∀ f, m.first base = some f → high < f.1) :
    ∃ m', storeRangeInternal (fuel + 2) m base delta size entry = some (true, m')
      ∧ Adds m m' (high, ⟨base, delta, entry⟩) (cutAbove high) := by
  by_cases hfree : ∀ f, m.first base = some f → high < f.2.base
  · have hsep := free_of_first hv hfree
    have hid : cutAbove high '' m.ranges = m.ranges := image_eq_of_fixed fun e he =>
      cutAbove_of_not fun hb => by
        rcases hsep e he with hlt | hlt
        · exact absurd (hlt.trans_le hle) (not_lt.2 hb.2.le)
        · exact absurd hlt (not_lt.2 hb.1)
    exact ⟨_, storeRangeInternal_free _ _ _ hv hsize hhigh hle hsep,
      adds_put hv rfl hid.symm hle hsep⟩
  · push Not at hfree
    obtain ⟨f, hf, hfhigh⟩ := hfree
    have hfirst := first_eq_some.1 hf
    have hlt := h f hf
    have hsucc : ∀ a, high + 1 ≤ a ↔ high < a := fun a => add_one_le_iff hlt
    have hbase : f.2.base + (high - f.2.base + 1) = high + 1 := by ring
    obtain ⟨r, hr⟩ : ∃ r : Range w ε, r = ⟨f.2.base + (high - f.2.base + 1),
      f.2.delta + (high - f.2.base + 1), f.2.entry⟩ := ⟨_, rfl⟩
    have hrbase : r.base = high + 1 := by rw [hr, hbase]
    have habove : high < r.base := by rw [hrbase]; exact (hsucc _).1 le_rfl
    obtain ⟨hv', hranges⟩ := valid_recut hv hf (by rw [hrbase]; exact (hsucc _).2 hlt)
      (hfhigh.trans habove.le) (le_refl f.1)
    have hsep : ∀ e ∈ (m.recut base f.1 r).ranges, e.1 < base ∨ high < e.2.base := by
      rw [hranges, Set.forall_mem_insert]
      refine ⟨.inr habove, fun e he => ?_⟩
      rcases lt_trichotomy e.1 f.1 with hef | hef | hef
      · exact .inl (not_le.1 fun hge => absurd hef (not_lt.2 (hfirst.2.2 e he.1 hge)))
      · exact absurd (eq_of_key he.1 hfirst.1 hef) he.2
      · exact .inr (hlt.trans (hv.disjoint f hfirst.1 e he.1 hef))
    have himage : cutAbove high '' m.ranges = insert (f.1, r) (m.ranges \ {f}) := by
      have hcut : cutAbove high f = (f.1, r) := by
        rw [hr, hbase]
        exact if_pos ⟨hfhigh, hlt⟩
      rw [image_eq_of_fixed_off hfirst.1 fun e he hne => ?_, hcut]
      exact cutAbove_of_not fun hb => hne
        (hv.eq_of_contains he hfirst.1 ⟨hb.1, hb.2.le⟩ ⟨hfhigh, hlt.le⟩)
    refine ⟨(m.recut base f.1 r).put high ⟨base, delta, entry⟩, ?_,
      adds_put hv' rfl (hranges.trans himage.symm) hle hsep⟩
    rw [← storeRangeInternal_free fuel delta entry hv' hsize hhigh hle hsep]
    subst hhigh
    rw [storeRangeInternal_some hv hsize hle hf, if_pos hfhigh]
    unfold overlap
    simp only [hs, not_lt.2 hlt.le, if_false, hlt, if_true, hr]

theorem lowerBound_le_getCount : m.map.lowerBound a ≤ m.getCount :=
  KeyList.lowerBound_le_length

/-- The upper strategy passes a stored range that ends within the new one. -/
theorem upper_skip (hv : m.Valid) (hs : m.mergeStrategy = .truncateUpper) (hsize : size ≠ 0)
    (hhigh : base + (size - 1) = high) (hle : base ≤ high) (hf : m.first base = some f)
    (hlt : f.1 < high) :
    storeRangeInternal (fuel + 1) m base delta size entry
        = storeRangeInternal fuel m (f.1 + 1) (delta + (f.1 - base + 1)) (size - (f.1 - base + 1))
          entry
      ∧ size - (f.1 - base + 1) ≠ 0 ∧ f.1 + 1 + (size - (f.1 - base + 1) - 1) = high
      ∧ f.1 + 1 ≤ high ∧ m.map.lowerBound base < m.map.lowerBound (f.1 + 1)
      ∧ m.starts base high = m.starts (f.1 + 1) high := by
  have hfirst := first_eq_some.1 hf
  have hsucc : ∀ a, f.1 + 1 ≤ a ↔ f.1 < a := fun a => add_one_le_iff hlt
  refine ⟨?_, ?_, ?_, (hsucc _).2 hlt, ?_, ?_⟩
  · subst hhigh
    rw [storeRangeInternal_some hv hsize hle hf,
      if_pos ((hv.ordered f hfirst.1).trans hlt.le)]
    unfold overlap
    simp only [hs, hlt, if_true]
    congr 1
    ring
  · have hsub : size - (f.1 - base + 1) = high - f.1 := by rw [← hhigh]; ring
    rw [hsub]
    exact sub_ne_zero.2 (ne_of_gt hlt)
  · rw [← hhigh]
    ring
  · obtain ⟨hlen, hfe⟩ := List.getElem?_eq_some_iff.1 hf
    refine (KeyList.lt_lowerBound_iff m.map.sorted hlen).2 ?_
    rw [hfe]
    exact (hsucc _).1 le_rfl
  · ext a
    constructor
    · rintro ⟨-, hah, hall⟩
      exact ⟨(hsucc a).2 (not_le.1 fun haf => hall f hfirst.1 ⟨haf, hlt⟩), hah, hall⟩
    · rintro ⟨hfa, hah, hall⟩
      exact ⟨hfirst.2.1.trans ((hsucc a).1 hfa).le, hah, hall⟩

/-- The upper strategy where no stored range ends with the new one, with fuel for every range
that ends within it. -/
theorem upper_spec (hs : m.mergeStrategy = .truncateUpper) (hv : m.Valid)
    (h : ∀ e ∈ m.ranges, e.1 ≠ high) : ∀ (fuel : ℕ) {base : BitVec w} (delta : BitVec w)
    {size : BitVec w}, m.getCount + 2 ≤ fuel + m.map.lowerBound base → size ≠ 0 →
    base + (size - 1) = high → base ≤ high →
    ∃ m' start, storeRangeInternal fuel m base delta size entry = some (true, m')
      ∧ IsLeast (m.starts base high) start
      ∧ Adds m m' (high, ⟨start, delta + (start - base), entry⟩) (cutAbove high)
  | 0, base, _, _, hfuel, _, _, _ => by
    have := lowerBound_le_getCount (m := m) (a := base)
    omega
  | fuel + 1, base, delta, size, hfuel, hsize, hhigh, hle => by
    have hlen := lowerBound_le_getCount (m := m) (a := base)
    by_cases hin : ∃ f, m.first base = some f ∧ f.1 < high
    · obtain ⟨f, hf, hlt⟩ := hin
      obtain ⟨hstep, hsize', hhigh', hle', hcount, hstarts⟩ :=
        upper_skip fuel delta entry hv hs hsize hhigh hle hf hlt
      obtain ⟨m', start, hstore, hstart, hadds⟩ :=
        upper_spec hs hv h fuel (delta + (f.1 - base + 1)) (by omega) hsize' hhigh' hle'
      refine ⟨m', start, hstep.trans hstore, hstarts ▸ hstart, ?_⟩
      have hdelta : delta + (f.1 - base + 1) + (start - (f.1 + 1)) = delta + (start - base) := by
        ring
      exact hdelta ▸ hadds
    · have hnext : ∀ f, m.first base = some f → high < f.1 := fun f hf =>
        lt_of_le_of_ne (not_lt.1 fun hlt => hin ⟨f, hf, hlt⟩) (h f (first_eq_some.1 hf).1).symm
      obtain ⟨k, rfl⟩ : ∃ k, fuel = k + 1 := ⟨fuel - 1, by omega⟩
      obtain ⟨m', hstore, hadds⟩ := upper_above k delta entry hv hs hsize hhigh hle hnext
      refine ⟨m', base, hstore, ⟨⟨le_rfl, hle, fun e he hb => ?_⟩, fun a ha => ha.1⟩, ?_⟩
      · rcases hf : m.first base with _ | f
        · exact absurd (first_eq_none.1 hf e he) (not_lt.2 hb.1)
        · have hfe := (first_eq_some.1 hf).2.2 e he hb.1
          exact absurd ((hnext f hf).trans_le hfe) (not_lt.2 hb.2.le)
      · rw [sub_self, add_zero]
        exact hadds

theorem upper_at (hs : m.mergeStrategy = .truncateUpper) (hv : m.Valid) (hg : e ∈ m.ranges)
    (hkey : e.1 = high) : ∀ (fuel : ℕ) {base : BitVec w} (delta : BitVec w) {size : BitVec w},
    m.getCount + 2 ≤ fuel + m.map.lowerBound base → size ≠ 0 → base + (size - 1) = high →
    base ≤ high → storeRangeInternal fuel m base delta size entry = some (false, m)
  | 0, base, _, _, hfuel, _, _, _ => by
    have := lowerBound_le_getCount (m := m) (a := base)
    omega
  | fuel + 1, base, delta, size, hfuel, hsize, hhigh, hle => by
    obtain ⟨f, hf⟩ : ∃ f, m.first base = some f := Option.ne_none_iff_exists'.1 fun hnone =>
      absurd (first_eq_none.1 hnone e hg) (not_lt.2 (hkey ▸ hle))
    have hfirst := first_eq_some.1 hf
    rcases (hfirst.2.2 e hg (hkey ▸ hle)).eq_or_lt with heq | hlt
    · obtain rfl := eq_of_key hfirst.1 hg heq
      subst hkey
      rw [storeRangeInternal_some hv hsize (hhigh ▸ hle) hf, hhigh, if_pos (hv.ordered f hg)]
      unfold overlap
      simp only [hs, hhigh, lt_self_iff_false, if_false]
    · obtain ⟨hstep, hsize', hhigh', hle', hcount, -⟩ :=
        upper_skip fuel delta entry hv hs hsize hhigh hle hf (hkey ▸ hlt)
      rw [hstep]
      exact upper_at hs hv hg hkey fuel _ (by omega) hsize' hhigh' hle'

end Upper

/-! ## One call -/

section Calls

variable (fuel delta entry) in
/-- The exclusive strategy. -/
theorem exclusive_spec (hv : m.Valid) (hs : m.mergeStrategy = .exclusiveRanges) (hsize : size ≠ 0)
    (hhigh : base + (size - 1) = high) (hle : base ≤ high) :
    ((∀ e ∈ m.ranges, e.1 < base ∨ high < e.2.base) →
      ∃ m', storeRangeInternal (fuel + 1) m base delta size entry = some (true, m')
        ∧ Adds m m' (high, ⟨base, delta, entry⟩) id)
    ∧ (¬ (∀ e ∈ m.ranges, e.1 < base ∨ high < e.2.base) →
      storeRangeInternal (fuel + 1) m base delta size entry = some (false, m)) := by
  constructor
  · intro hsep
    exact ⟨_, storeRangeInternal_free fuel delta entry hv hsize hhigh hle hsep,
      adds_put hv rfl (Set.image_id _).symm hle hsep⟩
  · intro hsep
    have hfirst : ¬ ∀ f, m.first base = some f → high < f.2.base := mt (free_of_first hv) hsep
    push Not at hfirst
    obtain ⟨f, hf, hfhigh⟩ := hfirst
    subst hhigh
    rw [storeRangeInternal_some hv hsize hle hf, if_pos hfhigh]
    unfold overlap
    simp only [hs]

theorem partOf_cutBelow {c : Stored w ε} (h : PartOf e c) : PartOf (cutBelow a e) c := by
  unfold cutBelow
  split_ifs with hb
  · have hlt : a - 1 < a := (le_sub_one_iff hb.1).1 le_rfl
    exact ⟨h.entry, h.base, h.above, hlt.le.trans (hb.2.trans h.below)⟩
  · exact h

theorem partOf_cutAbove {c : Stored w ε} (h : PartOf e c) : PartOf (cutAbove a e) c := by
  unfold cutAbove
  split_ifs with hb
  · have hlt : a < a + 1 := (add_one_le_iff hb.2).1 le_rfl
    refine ⟨h.entry, ?_, h.above.trans (hb.1.trans hlt.le), h.below⟩
    have hbase := h.base
    calc a + 1 = e.2.base + (a - e.2.base + 1) := by ring
      _ = c.base + e.2.delta + (a - e.2.base + 1) := by rw [← hbase]
      _ = c.base + (e.2.delta + (a - e.2.base + 1)) := by ring
  · exact h

theorem cutBelow_injOn (hv : m.Valid) : Set.InjOn (cutBelow a) m.ranges := by
  have hbase : ∀ e : BitVec w × Range w ε, (cutBelow a e).2 = e.2 := fun e => by
    unfold cutBelow
    split_ifs <;> rfl
  intro e he f hf h
  have h2 : e.2 = f.2 := by rw [← hbase e, ← hbase f, h]
  rcases le_total e.1 f.1 with hle | hle
  · exact hv.eq_of_contains he hf ⟨le_rfl, hv.ordered e he⟩
      ⟨by rw [h2], (hv.ordered e he).trans hle⟩
  · exact hv.eq_of_contains he hf ⟨by rw [h2], (hv.ordered f hf).trans hle⟩
      ⟨le_rfl, hv.ordered f hf⟩

theorem cutAbove_injOn : Set.InjOn (cutAbove a) m.ranges := by
  have hkey : ∀ e : BitVec w × Range w ε, (cutAbove a e).1 = e.1 := fun e => by
    unfold cutAbove
    split_ifs <;> rfl
  intro e he f hf h
  exact eq_of_key he hf (by rw [← hkey e, ← hkey f, h])

theorem storeRange_unfit (h : ¬ Fits base size) :
    m.storeRange base size entry = some (false, m) := by
  refine storeRangeInternal_bad ?_
  unfold Fits at h
  rwa [not_and_or, not_not, not_le] at h

/-- A call of `StoreRange` returns. It leaves the map as it is, or adds a part of the range to the
ranges of the map, of which it keeps a part each. -/
theorem storeRange_cases (hv : m.Valid) (base size : BitVec w) (entry : ε) :
    m.storeRange base size entry = some (false, m)
      ∨ ∃ m' x g, m.storeRange base size entry = some (true, m') ∧ Adds m m' x g
        ∧ PartOf x ⟨base, size, entry⟩ ∧ Set.InjOn g m.ranges
        ∧ ∀ e ∈ m.ranges, ∀ c, PartOf e c → PartOf (g e) c := by
  by_cases hfit : Fits base size
  · obtain ⟨hsize, hle⟩ := hfit
    have hfuel : m.getCount + 2 ≤ m.getCount + 3 + m.map.lowerBound base := by omega
    rcases hs : m.mergeStrategy
    · obtain ⟨hfree, hblocked⟩ := exclusive_spec (m.getCount + 2) 0 entry hv hs hsize rfl hle
      by_cases hsep : ∀ e ∈ m.ranges, e.1 < base ∨ base + (size - 1) < e.2.base
      · obtain ⟨m', hstore, hadds⟩ := hfree hsep
        exact .inr ⟨m', _, id, hstore, hadds, ⟨rfl, (add_zero _).symm, le_rfl, le_rfl⟩,
          Set.injOn_id _, fun _ _ _ h => h⟩
      · exact .inl (hblocked hsep)
    · by_cases hat : ∃ e ∈ m.ranges, e.2.base = base
      · exact .inl (lower_at _ _ _ hv hs hsize hle hat)
      · obtain ⟨m', cut, hstore, hcut, hadds⟩ := lower_spec m.getCount 0 entry hv hs hsize rfl hle
          fun e he hb => hat ⟨e, he, hb⟩
        exact .inr ⟨m', _, _, hstore, hadds, ⟨rfl, (add_zero _).symm, le_rfl, hcut.1.2.1⟩,
          cutBelow_injOn hv, fun _ _ _ h => partOf_cutBelow h⟩
    · by_cases hat : ∃ e ∈ m.ranges, e.1 = base + (size - 1)
      · obtain ⟨e, he, hkey⟩ := hat
        exact .inl (upper_at entry hs hv he hkey _ 0 hfuel hsize rfl hle)
      · obtain ⟨m', start, hstore, hstart, hadds⟩ := upper_spec entry hs hv
          (fun e he hb => hat ⟨e, he, hb⟩) _ 0 hfuel hsize rfl hle
        refine .inr ⟨m', _, _, hstore, hadds, ⟨rfl, ?_, hstart.1.1, le_rfl⟩,
          cutAbove_injOn, fun _ _ _ h => partOf_cutAbove h⟩
        show start = base + (0 + (start - base))
        ring
  · exact .inl (storeRange_unfit hfit)

end Calls

end RangeMap

end Xrash
