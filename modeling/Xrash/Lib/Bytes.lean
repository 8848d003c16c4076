import Mathlib.Data.List.Basic
import Mathlib.Data.BitVec
import Mathlib.Data.Nat.Digits.Lemmas
import Mathlib.Tactic.Ring

/-!
# Words in memory

How a host stores words and other values as bytes, and reading them back from a block of memory. A
read that leaves the block has no result.
-/

/-- The bytes are in the memory, from a position on. -/
def At (mem : List UInt8) (pos : ℕ) (bytes : List UInt8) : Prop :=
  ∃ pre post, mem = pre ++ (bytes ++ post) ∧ pos = pre.length

namespace At

variable {mem l l' : List UInt8} {pos : ℕ}

theorem self (l : List UInt8) : At l 0 l := ⟨[], [], (List.append_nil l).symm, rfl⟩

theorem left (h : At mem pos (l ++ l')) : At mem pos l := by
  obtain ⟨pre, post, rfl, rfl⟩ := h
  exact ⟨pre, l' ++ post, by rw [List.append_assoc], rfl⟩

theorem right (h : At mem pos (l ++ l')) : At mem (pos + l.length) l' := by
  obtain ⟨pre, post, rfl, rfl⟩ := h
  exact ⟨pre ++ l, post, by simp only [List.append_assoc], List.length_append.symm⟩

theorem of_take (h : pos ≤ mem.length) (n : ℕ) : At mem pos ((mem.drop pos).take n) :=
  ⟨mem.take pos, (mem.drop pos).drop n, by rw [List.take_append_drop, List.take_append_drop],
    (List.length_take_of_le h).symm⟩

theorem drop_eq (h : At mem pos l) : ∃ post, mem.drop pos = l ++ post := by
  obtain ⟨pre, post, rfl, rfl⟩ := h
  exact ⟨post, List.drop_left⟩

theorem length_le (h : At mem pos l) : pos + l.length ≤ mem.length := by
  obtain ⟨pre, post, rfl, rfl⟩ := h
  rw [List.length_append, List.length_append]
  omega

end At

/-- A host's representation of values of a type, in as many bytes for each of them. -/
structure MemRepr (α : Type*) where
  size : ℕ
  write : α → List UInt8
  read : List UInt8 → α
  length_write : ∀ x, (write x).length = size
  read_write : ∀ x rest, read (write x ++ rest) = x

namespace MemRepr

variable {α : Type*} (R : MemRepr α)

/-- The value at a position of a block. -/
def readAt (mem : List UInt8) (pos : ℕ) : Option α :=
  if pos + R.size ≤ mem.length then some (R.read (mem.drop pos)) else none

/-- An array. -/
def writeAll (xs : List α) : List UInt8 := (xs.map R.write).flatten

@[simp] theorem writeAll_cons (x : α) (xs : List α) :
    R.writeAll (x :: xs) = R.write x ++ R.writeAll xs := rfl

theorem length_writeAll : ∀ xs : List α, (R.writeAll xs).length = xs.length * R.size
  | [] => (Nat.zero_mul _).symm
  | x :: xs => by
    rw [writeAll_cons, List.length_append, R.length_write, length_writeAll xs, List.length_cons,
      Nat.succ_mul, Nat.add_comm]

theorem readAt_of_at {mem : List UInt8} {x : α} {pos : ℕ} (h : At mem pos (R.write x)) :
    R.readAt mem pos = some x := by
  obtain ⟨pre, post, rfl, rfl⟩ := h
  unfold readAt
  rw [List.drop_left, R.read_write]
  refine if_pos ?_
  rw [List.length_append, List.length_append, R.length_write]
  omega

/-- The values of an array are where their index puts them. -/
theorem readAt_writeAll {mem : List UInt8} : ∀ {xs : List α} {x : α} {i pos : ℕ},
    At mem pos (R.writeAll xs) → xs[i]? = some x → R.readAt mem (pos + i * R.size) = some x
  | [], x, i, _, _, hx => by simp at hx
  | y :: xs, x, 0, pos, h, hx => by
    rw [List.getElem?_cons_zero, Option.some_inj] at hx
    subst hx
    rw [writeAll_cons] at h
    rw [Nat.zero_mul]
    exact R.readAt_of_at h.left
  | y :: xs, x, i + 1, pos, h, hx => by
    rw [List.getElem?_cons_succ] at hx
    rw [writeAll_cons] at h
    have hnext := readAt_writeAll h.right hx
    rw [R.length_write] at hnext
    rw [Nat.succ_mul, Nat.add_comm (i * R.size), ← Nat.add_assoc]
    exact hnext

end MemRepr

/-- A representation of words of `w` bits. -/
structure WordRepr (w : ℕ) extends MemRepr (BitVec w) where
  bits : 8 * size = w

/-! ## Little endian -/

namespace LittleEndian

def write : ℕ → ℕ → List UInt8
  | 0, _ => []
  | n + 1, x => UInt8.ofNat (x % 256) :: write n (x / 256)

def read : ℕ → List UInt8 → ℕ
  | 0, _ => 0
  | _ + 1, [] => 0
  | n + 1, b :: bs => b.toNat + 256 * read n bs

theorem length_write : ∀ n x, (write n x).length = n
  | 0, _ => rfl
  | n + 1, x => congrArg Nat.succ (length_write n (x / 256))

theorem read_write : ∀ (n x : ℕ) (rest : List UInt8), x < 256 ^ n → read n (write n x ++ rest) = x
  | 0, x, _, h => by
    rw [Nat.pow_zero] at h
    unfold read
    omega
  | n + 1, x, rest, h => by
    have hdiv : x / 256 < 256 ^ n := by
      rw [Nat.pow_succ] at h
      omega
    have hbyte : (UInt8.ofNat (x % 256)).toNat = x % 256 :=
      UInt8.toNat_ofNat_of_lt' (Nat.mod_lt _ (by decide))
    show (UInt8.ofNat (x % 256)).toNat + 256 * read n (write n (x / 256) ++ rest) = x
    rw [read_write n _ rest hdiv, hbyte]
    omega

/-- The words of `n` bytes, least byte first. -/
def repr (n : ℕ) : WordRepr (8 * n) where
  size := n
  write x := write n x.toNat
  read l := BitVec.ofNat _ (read n l)
  bits := rfl
  length_write x := length_write n x.toNat
  read_write x rest := by
    have hlt : x.toNat < 256 ^ n := by
      have := x.isLt
      rwa [Nat.pow_mul] at this
    rw [read_write n _ rest hlt, BitVec.ofNat_toNat, BitVec.setWidth_eq]

/-- The number that bytes stand for, the least first. -/
def unsigned (bytes : List UInt8) : ℕ := Nat.ofDigits 256 (bytes.map UInt8.toNat)

/-- The number that they stand for in two's complement. -/
def signed (bytes : List UInt8) : ℤ :=
  if 2 * unsigned bytes < 256 ^ bytes.length then unsigned bytes
  else unsigned bytes - 256 ^ bytes.length

theorem unsigned_lt (bytes : List UInt8) : unsigned bytes < 256 ^ bytes.length := by
  have h := Nat.ofDigits_lt_base_pow_length (b := 256) (l := bytes.map UInt8.toNat) (by decide)
    (by
      intro x hx
      obtain ⟨b, -, rfl⟩ := List.mem_map.1 hx
      exact b.toNat_lt)
  rwa [List.length_map] at h

/-- A bit above a number is added to it. -/
theorem two_pow_xor {k n : ℕ} (h : n < 2 ^ k) : 2 ^ k ^^^ n = 2 ^ k + n := by
  refine Nat.eq_of_testBit_eq fun j => ?_
  rw [Nat.testBit_xor, Nat.testBit_two_pow]
  rcases Nat.lt_trichotomy j k with hj | rfl | hj
  · rw [Nat.testBit_two_pow_add_gt hj, decide_eq_false hj.ne', Bool.false_xor]
  · rw [Nat.testBit_two_pow_add_eq, decide_eq_true rfl, Bool.true_xor]
  · have hle : 2 ^ (k + 1) ≤ 2 ^ j := Nat.pow_le_pow_right (by decide) hj
    rw [Nat.pow_succ] at hle
    have hn : n < 2 ^ j := by omega
    have hadd : 2 ^ k + n < 2 ^ j := by omega
    rw [Nat.testBit_lt_two_pow hn, Nat.testBit_lt_two_pow hadd, decide_eq_false hj.ne,
      Bool.false_xor]

/-- Sign extension without a branch. -/
theorem xor_sub {w k n : ℕ} (h : n < 2 ^ (k + 1)) :
    (BitVec.ofNat w n ^^^ BitVec.ofNat w (2 ^ k)) - BitVec.ofNat w (2 ^ k)
      = BitVec.ofInt w (if n < 2 ^ k then n else n - 2 ^ (k + 1)) := by
  have hpow : (2 : ℕ) ^ (k + 1) = 2 ^ k + 2 ^ k := by
    rw [Nat.pow_succ]
    omega
  rw [← BitVec.ofNat_xor]
  split_ifs with hn
  · rw [Nat.xor_comm, two_pow_xor hn, BitVec.ofNat_add, BitVec.add_comm, BitVec.add_sub_cancel,
      BitVec.ofInt_natCast]
  · obtain ⟨m, rfl⟩ := Nat.exists_eq_add_of_le (Nat.not_lt.1 hn)
    have hm : m < 2 ^ k := by omega
    have hxor : (2 ^ k + m) ^^^ 2 ^ k = m := by
      rw [← two_pow_xor hm, Nat.xor_comm, ← Nat.xor_assoc, Nat.xor_self, Nat.zero_xor]
    have hint : ((2 ^ k + m : ℕ) : ℤ) - 2 ^ (k + 1) = (m : ℤ) - (2 ^ k : ℕ) := by
      push_cast
      rw [pow_succ]
      ring
    rw [hxor, hint, Int.sub_eq_add_neg, BitVec.ofInt_add, BitVec.ofInt_neg, BitVec.ofInt_natCast,
      BitVec.ofInt_natCast, BitVec.sub_eq_add_neg]

end LittleEndian
