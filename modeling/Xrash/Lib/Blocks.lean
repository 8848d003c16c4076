import Mathlib.Order.Basic
import Mathlib.Data.Nat.Basic

/-!
# Blocks of memory

A block is a number of bytes from an address on.
-/

structure Block where
  start : ℕ
  size : ℕ
  deriving DecidableEq

namespace Block

variable {x y z : Block}

def Apart (x y : Block) : Prop := x.start + x.size ≤ y.start ∨ y.start + y.size ≤ x.start

def Within (x y : Block) : Prop := y.start ≤ x.start ∧ x.start + x.size ≤ y.start + y.size

def Has (x : Block) (p : ℕ) : Prop := x.start ≤ p ∧ p < x.start + x.size

instance (x : Block) (p : ℕ) : Decidable (x.Has p) := inferInstanceAs (Decidable (_ ∧ _))

theorem Apart.symm (h : Apart x y) : Apart y x := Or.symm h

theorem Within.refl (x : Block) : Within x x := ⟨Nat.le_refl _, Nat.le_refl _⟩

theorem Within.trans (h : Within x y) (h' : Within y z) : Within x z :=
  ⟨Nat.le_trans h'.1 h.1, Nat.le_trans h.2 h'.2⟩

theorem Within.has {p : ℕ} (h : Within x y) (hp : x.Has p) : y.Has p :=
  ⟨Nat.le_trans h.1 hp.1, Nat.lt_of_lt_of_le hp.2 h.2⟩

/-- What is within blocks that are apart is apart. -/
theorem Apart.of_within {x' y' : Block} (h : Apart x y) (hx : Within x' x) (hy : Within y' y) :
    Apart x' y' := by
  unfold Apart Within at *
  omega

end Block
