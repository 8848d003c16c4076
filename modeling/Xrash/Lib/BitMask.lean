import Mathlib.Data.BitVec
import Mathlib.Data.Nat.Count

/-!
# Masks of words

A list of words of `w` bits as a set of numbers: word `i / w` has bit `i % w` where `i` is in it.
-/

namespace BitMask

variable {w : ℕ}

/-- The mask has a number. -/
def Has (mask : List (BitVec w)) (i : ℕ) : Prop :=
  ((mask[i / w]?).getD 0).getLsbD (i % w) = true

instance decidableHas (mask : List (BitVec w)) (i : ℕ) : Decidable (Has mask i) :=
  inferInstanceAs (Decidable (_ = true))

def setBit (mask : List (BitVec w)) (i : ℕ) : List (BitVec w) :=
  mask.modify (i / w) (· ||| (1 : BitVec w) <<< (i % w))

def inter (mask mask' : List (BitVec w)) : List (BitVec w) := List.zipWith (· &&& ·) mask mask'

def count (mask : List (BitVec w)) : ℕ := (mask.map fun word => word.cpop.toNat).sum

theorem not_has_replicate (n i : ℕ) : ¬ Has (List.replicate n (0 : BitVec w)) i := by
  unfold Has
  rw [List.getElem?_replicate]
  split_ifs <;> simp

theorem has_inter {mask mask' : List (BitVec w)} {i : ℕ} :
    Has (inter mask mask') i ↔ Has mask i ∧ Has mask' i := by
  unfold Has inter
  rw [List.getElem?_zipWith]
  rcases mask[i / w]? with _ | x <;> rcases mask'[i / w]? with _ | y <;> simp

theorem has_setBit {mask : List (BitVec w)} {i j : ℕ} (hw : 0 < w) (hi : i < w * mask.length) :
    Has (setBit mask i) j ↔ Has mask j ∨ j = i := by
  have hlt : i / w < mask.length := Nat.div_lt_of_lt_mul hi
  have hj := Nat.mod_lt j hw
  unfold Has setBit
  rw [List.getElem?_modify]
  by_cases hdiv : i / w = j / w
  · have hget : mask[j / w]? = some mask[i / w] := hdiv ▸ List.getElem?_eq_getElem hlt
    have hbit : ((1 : BitVec w) <<< (i % w)).getLsbD (j % w) = decide (j % w = i % w) := by
      rw [show (1 : BitVec w) <<< (i % w) = BitVec.twoPow w (i % w) from rfl, BitVec.getLsbD_twoPow]
      rw [decide_eq_true (show i % w < w from Nat.mod_lt i hw), Bool.true_and]
      exact decide_eq_decide.2 eq_comm
    rw [hget, Option.map_eq_map, Option.map_some, Option.getD_some, Option.getD_some, if_pos hdiv,
      BitVec.getLsbD_or, hbit, Bool.or_eq_true, decide_eq_true_iff]
    refine or_congr Iff.rfl ⟨fun h => ?_, fun h => h ▸ rfl⟩
    rw [← Nat.div_add_mod j w, ← Nat.div_add_mod i w, hdiv, h]
  · simp only [hdiv, if_false, Option.map_eq_map, Option.map_id']
    exact ⟨.inl, fun h => h.resolve_right fun h => hdiv (h ▸ rfl)⟩

theorem has_cons {word : BitVec w} {mask : List (BitVec w)} {i : ℕ} (hw : 0 < w) :
    Has (word :: mask) (w + i) ↔ Has mask i := by
  unfold Has
  rw [Nat.add_div_left i hw, Nat.add_mod_left, List.getElem?_cons_succ]

theorem has_head {word : BitVec w} {mask : List (BitVec w)} {i : ℕ} (hi : i < w) :
    Has (word :: mask) i ↔ word.getLsbD i = true := by
  unfold Has
  rw [Nat.div_eq_of_lt hi, Nat.mod_eq_of_lt hi, List.getElem?_cons_zero, Option.getD_some]

theorem cpopNatRec_eq (word : BitVec w) : ∀ n,
    word.cpopNatRec n 0 = Nat.count (fun i => word.getLsbD i = true) n
  | 0 => rfl
  | n + 1 => by
    rw [BitVec.cpopNatRec_succ, BitVec.cpopNatRec_eq, cpopNatRec_eq word n, Nat.count_succ]
    rcases word.getLsbD n with _ | _ <;> rfl

/-- The bits are counted once each. -/
theorem count_eq (hw : 0 < w) : ∀ mask : List (BitVec w),
    count mask = Nat.count (Has mask) (w * mask.length)
  | [] => rfl
  | word :: mask => by
    have hhead : Nat.count (Has (word :: mask)) w
        = Nat.count (fun i => word.getLsbD i = true) w :=
      le_antisymm (Nat.count_mono_left fun i hi => (has_head hi).1)
        (Nat.count_mono_left fun i hi => (has_head hi).2)
    have ih := count_eq hw mask
    unfold count at ih ⊢
    rw [List.map_cons, List.sum_cons, ih, BitVec.toNat_cpop, cpopNatRec_eq, List.length_cons,
      Nat.mul_succ, Nat.add_comm (w * _), Nat.count_add, hhead]
    simp only [has_cons hw]

end BitMask
