import Xrash.AddressMap
import Xrash.Lib.Runs

/-!
# Address maps over whole runs

A map holds, for each address, the first entry stored there since it was last cleared, and an
address is looked up to the entry at the greatest stored address that is not above it.
-/

namespace Xrash.AddressMap

open KeyList

variable {w : ℕ} {ε : Type*} {a b : BitVec w} {y : ε}

/-- The first entry stored at each address. -/
def IsFirst (m : AddressMap w ε) (cs : List (BitVec w × ε)) : Prop :=
  ∀ e, e ∈ m.map.entries ↔ cs.find? (fun c => decide (c.1 = e.1)) = some e

theorem find_ne_size {m : AddressMap w ε} :
    m.map.find a ≠ m.map.size ↔ ∃ e ∈ m.map.entries, e.1 = a := by
  unfold SortedMap.find SortedMap.size KeyList.find
  rw [ne_eq, List.findIdx_eq_length]
  simp

theorem find?_isSome (cs : List (BitVec w × ε)) :
    (∃ e, cs.find? (fun c => decide (c.1 = a)) = some e) ↔ ∃ c ∈ cs, c.1 = a := by
  rw [← Option.isSome_iff_exists, List.find?_isSome]
  simp

theorem IsFirst.mem_iff {m : AddressMap w ε} {cs : List (BitVec w × ε)} (h : IsFirst m cs) :
    (∃ e ∈ m.map.entries, e.1 = a) ↔ ∃ c ∈ cs, c.1 = a := by
  rw [← find?_isSome cs]
  constructor
  · rintro ⟨e, he, rfl⟩
    exact ⟨e, (h e).1 he⟩
  · rintro ⟨e, he⟩
    have hk : e.1 = a := by simpa using List.find?_some he
    refine ⟨e, (h e).2 ?_, hk⟩
    rw [hk]
    exact he

theorem IsFirst.store {m : AddressMap w ε} {cs : List (BitVec w × ε)} (h : IsFirst m cs)
    (a : BitVec w) (y : ε) : IsFirst (m.store a y).2 (cs ++ [(a, y)]) := by
  intro e
  have hlast : [(a, y)].find? (fun c => decide (c.1 = e.1)) = some e ↔ e = (a, y) := by
    rw [List.find?_singleton]
    by_cases hk : a = e.1
    · rw [if_pos (decide_eq_true hk), Option.some_inj, eq_comm]
    · rw [if_neg (by simpa using hk)]
      exact ⟨nofun, fun heq => absurd (by rw [heq]) hk⟩
  have hnone : cs.find? (fun c => decide (c.1 = e.1)) = none ↔ ¬ ∃ c ∈ cs, c.1 = e.1 := by
    rw [← find?_isSome cs, ← Option.isSome_iff_exists, Option.not_isSome_iff_eq_none]
  unfold AddressMap.store
  rw [List.find?_append]
  by_cases hin : ∃ f ∈ m.map.entries, f.1 = a
  · -- the entry that is there stays
    rw [if_pos (find_ne_size.2 hin), h e]
    rcases hfind : cs.find? (fun c => decide (c.1 = e.1)) with _ | c
    · rw [hfind, Option.none_or, hlast]
      refine ⟨nofun, ?_⟩
      rintro rfl
      exact absurd (h.mem_iff.1 hin) (hnone.1 hfind)
    · rw [hfind, Option.some_or]
  · rw [if_neg fun hne => hin (find_ne_size.1 hne)]
    show e ∈ KeyList.insert a y m.map.entries ↔ _
    have hnew : ∀ f ∈ m.map.entries, f.1 ≠ a := fun f hf hk => hin ⟨f, hf, hk⟩
    rw [mem_insert m.map.sorted, h e]
    rcases hfind : cs.find? (fun c => decide (c.1 = e.1)) with _ | c
    · rw [hfind, Option.none_or, hlast]
      exact ⟨fun hor => hor.elim nofun And.left, fun heq => .inr ⟨heq, hnew⟩⟩
    · rw [hfind, Option.some_or]
      refine ⟨fun hor => hor.elim id ?_, .inl⟩
      rintro ⟨rfl, -⟩
      exact absurd (h.mem_iff.2 ((find?_isSome cs).1 ⟨c, hfind⟩)) hin

theorem call_first {m : AddressMap w ε} {cs : List (BitVec w × ε)} (h : IsFirst m cs)
    (c : Call w ε) : IsFirst (m.call c) (record cs c) := by
  cases c with
  | store a y => exact h.store a y
  | clear => exact fun e => ⟨nofun, nofun⟩

theorem run_first (calls : List (Call w ε)) : IsFirst (run calls) (stores calls) := by
  suffices h : ∀ (calls : List (Call w ε)) {m : AddressMap w ε} {cs : List (BitVec w × ε)},
      IsFirst m cs → IsFirst (calls.foldl call m) (calls.foldl record cs) from
    h calls fun e => ⟨nofun, nofun⟩
  intro calls
  induction calls with
  | nil => exact id
  | cons c calls ih => exact fun h => ih (call_first h c)

theorem retrieve_eq_some {m : AddressMap w ε} : m.retrieve a = some (y, b)
    ↔ (b, y) ∈ m.map.entries ∧ b ≤ a ∧ ∀ f ∈ m.map.entries, f.1 ≤ a → f.1 ≤ b := by
  have hs := m.map.sorted
  unfold retrieve
  by_cases h0 : m.map.upperBound a = 0
  · rw [if_pos h0]
    refine ⟨nofun, fun ⟨he, hle, _⟩ => ?_⟩
    exact absurd hle (not_le.2 ((upperBound_eq_zero hs).1 h0 _ he))
  · rw [if_neg h0, Option.map_eq_some_iff, ← getElem?_upperBound_pred hs h0]
    constructor
    · rintro ⟨⟨k, v⟩, he, heq⟩
      cases heq
      exact he
    · exact fun he => ⟨_, he, rfl⟩

/-- After any calls, an address is looked up to the first entry stored at the greatest address not
above it, and a call of `Store` succeeds where nothing has been stored. -/
theorem run_retrieve (calls : List (Call w ε)) (a b : BitVec w) (y : ε) :
    ((run calls).retrieve a = some (y, b) ↔ b ≤ a
      ∧ (stores calls).find? (fun c => decide (c.1 = b)) = some (b, y)
      ∧ ∀ c ∈ stores calls, c.1 ≤ a → c.1 ≤ b)
    ∧ (((run calls).store a y).1 = true ↔ ∀ c ∈ stores calls, c.1 ≠ a) := by
  have h := run_first calls
  generalize run calls = m at h ⊢
  constructor
  · rw [retrieve_eq_some, h]
    refine ⟨fun ⟨he, hle, hmax⟩ => ⟨hle, he, fun c hc hca => ?_⟩,
      fun ⟨hle, he, hmax⟩ => ⟨he, hle, fun f hf hfa =>
        hmax f (List.mem_of_find?_eq_some ((h f).1 hf)) hfa⟩⟩
    obtain ⟨f, hf, hk⟩ := h.mem_iff.2 ⟨c, hc, rfl⟩
    rw [← hk] at hca ⊢
    exact hmax f hf hca
  · unfold store
    by_cases hin : ∃ f ∈ m.map.entries, f.1 = a
    · rw [if_pos (find_ne_size.2 hin)]
      obtain ⟨c, hc, hk⟩ := h.mem_iff.1 hin
      exact ⟨nofun, fun hall => absurd hk (hall c hc)⟩
    · rw [if_neg fun hne => hin (find_ne_size.1 hne)]
      exact ⟨fun _ c hc hk => hin (h.mem_iff.2 ⟨c, hc, hk⟩), fun _ => rfl⟩

end Xrash.AddressMap
