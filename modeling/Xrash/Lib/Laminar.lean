import Mathlib.Order.Defs.LinearOrder
import Mathlib.Data.Set.Pairwise.Basic

/-!
# Nested intervals

Families of labelled intervals of which any two are apart or one is strictly within the other. The
smallest member with a given point is the only one of its kind.
-/

/-- A closed interval with a label. -/
structure Extent (α ι : Type*) where
  low : α
  high : α
  label : ι

namespace Extent

variable {α ι : Type*} [LinearOrder α]

def Has (r : Extent α ι) (a : α) : Prop := r.low ≤ a ∧ a ≤ r.high

def Apart (r s : Extent α ι) : Prop := r.high < s.low ∨ s.high < r.low

def Within (r s : Extent α ι) : Prop := s.low ≤ r.low ∧ r.high ≤ s.high

def SameEnds (r s : Extent α ι) : Prop := r.low = s.low ∧ r.high = s.high

/-- The two do not cross, and are not the same. -/
def Nests (r s : Extent α ι) : Prop :=
  Apart r s ∨ (Within r s ∨ Within s r) ∧ ¬ SameEnds r s

instance (r s : Extent α ι) : Decidable (Nests r s) := by
  unfold Nests Apart Within SameEnds
  infer_instance

variable {r s t : Extent α ι} {a : α}

theorem Within.trans (h : Within r s) (h' : Within s t) : Within r t :=
  ⟨h'.1.trans h.1, h.2.trans h'.2⟩

theorem Within.has (h : Within r s) (ha : r.Has a) : s.Has a :=
  ⟨h.1.trans ha.1, ha.2.trans h.2⟩

theorem Apart.symm (h : Apart r s) : Apart s r := Or.symm h

theorem Apart.not_has (h : Apart r s) (ha : r.Has a) : ¬ s.Has a := by
  rintro ⟨hl, hh⟩
  rcases h with h | h
  · exact absurd (ha.2.trans_lt (h.trans_le hl)) (lt_irrefl a)
  · exact absurd (hh.trans_lt (h.trans_le ha.1)) (lt_irrefl a)

/-- What is within one of two intervals that are apart is apart from the other. -/
theorem Apart.of_within (h : Apart s t) (hr : Within r s) : Apart r t :=
  h.imp hr.2.trans_lt fun h => h.trans_le hr.1

omit [LinearOrder α] in
theorem SameEnds.symm (h : SameEnds r s) : SameEnds s r := ⟨h.1.symm, h.2.symm⟩

theorem Nests.symm (h : Nests r s) : Nests s r :=
  h.imp Apart.symm fun h => ⟨h.1.symm, fun hs => h.2 hs.symm⟩

/-- Two intervals that share a point and nest: one is within the other. -/
theorem Nests.within (h : Nests r s) (hr : r.Has a) (hs : s.Has a) : Within r s ∨ Within s r := by
  rcases h with h | h
  · exact absurd hs (h.not_has hr)
  · exact h.1

/-- The interval is the smallest of the family with the point. -/
def Smallest (S : Set (Extent α ι)) (a : α) (r : Extent α ι) : Prop :=
  r ∈ S ∧ r.Has a ∧ ∀ s ∈ S, s.Has a → Within r s

theorem Smallest.unique {S : Set (Extent α ι)} (hS : S.Pairwise Nests) (hr : Smallest S a r)
    (hs : Smallest S a s) : r = s := by
  by_contra hne
  have hrs := hr.2.2 s hs.1 hs.2.1
  have hsr := hs.2.2 r hr.1 hr.2.1
  rcases hS hr.1 hs.1 hne with h | h
  · exact h.not_has hr.2.1 hs.2.1
  · exact h.2 ⟨le_antisymm hsr.1 hrs.1, le_antisymm hrs.2 hsr.2⟩

end Extent
