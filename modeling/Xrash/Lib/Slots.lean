import Mathlib.Data.Finmap

/-!
# Finite maps in slots

A list holds a finite map when each of its slots holds a key with its value or nothing, and no key
is held twice.
-/

namespace Slots

variable {α K V : Type*} (pair : α → Option (Sigma fun _ : K => V))

def Holds (l : List α) (d : Finmap fun _ : K => V) : Prop :=
  d.entries = (l.filterMap pair : Multiset (Sigma fun _ : K => V))

variable {pair} {l : List α} {d : Finmap fun _ : K => V} {a b : α} {f : α → α} {i j : ℕ} {k : K}
  {v w : V}

theorem holds_empty (h : ∀ a ∈ l, pair a = none) : Holds pair l ∅ := by
  unfold Holds
  rw [List.filterMap_eq_nil_iff.2 h]
  rfl

theorem Holds.card (h : Holds pair l d) : d.keys.card = l.countP fun a => (pair a).isSome := by
  show Multiset.card (Multiset.map Sigma.fst d.entries) = _
  rw [Multiset.card_map, h, Multiset.coe_card, List.length_filterMap_eq_countP]

/-- One slot, and the others. -/
theorem exists_split (hi : l[i]? = some a) (f : α → α) :
    ∃ l₁ l₂, l = l₁ ++ a :: l₂ ∧ l₁.length = i ∧ l.modify i f = l₁ ++ f a :: l₂ := by
  obtain ⟨l₁, a', l₂, rfl, rfl, hf⟩ :=
    List.exists_of_modify f (List.getElem?_eq_some_iff.1 hi).1
  rw [List.getElem?_append_right (Nat.le_refl _), Nat.sub_self] at hi
  obtain rfl : a' = a := by simpa using hi
  exact ⟨l₁, l₂, rfl, rfl, hf⟩

theorem coe_split (l₁ l₂ : List α) (a : α) :
    ((l₁ ++ a :: l₂).filterMap pair : Multiset (Sigma fun _ : K => V)) =
      ((pair a).toList ++ (l₁ ++ l₂).filterMap pair : List _) := by
  rw [Multiset.coe_eq_coe, List.filterMap_append, List.filterMap_append, List.filterMap_cons]
  rcases pair a with _ | p
  · rfl
  · exact List.perm_middle

/-- A key is in one slot only. -/
theorem Holds.index_unique (h : Holds pair l d) (hi : l[i]? = some a) (hj : l[j]? = some b)
    (ha : pair a = some ⟨k, v⟩) (hb : pair b = some ⟨k, w⟩) : i = j := by
  by_contra hne
  obtain ⟨l₁, l₂, rfl, rfl, -⟩ := exists_split hi id
  have hmem : b ∈ l₁ ++ l₂ := by
    rw [List.getElem?_append] at hj
    split_ifs at hj with hlt
    · exact List.mem_append_left _ (List.mem_of_getElem? hj)
    · rw [List.getElem?_cons, if_neg (by omega)] at hj
      exact List.mem_append_right _ (List.mem_of_getElem? hj)
  have hnodup := d.nodupKeys
  rw [h, coe_split, ha] at hnodup
  exact (List.nodupKeys_cons.1 hnodup).1
    (List.mem_keys.2 ⟨w, List.mem_filterMap.2 ⟨b, hmem, hb⟩⟩)

theorem Holds.countP (h : Holds pair l d) {p : α → Bool}
    (hp : ∀ a, p a = true ↔ ∃ v, pair a = some ⟨k, v⟩) (hi : l[i]? = some a) (ha : p a = true) :
    l.countP p = 1 := by
  obtain ⟨l₁, l₂, rfl, -, -⟩ := exists_split hi id
  obtain ⟨v, hv⟩ := (hp a).1 ha
  have hnodup := d.nodupKeys
  rw [h, coe_split, hv] at hnodup
  have hzero : (l₁ ++ l₂).countP p = 0 := by
    refine List.countP_eq_zero.2 fun b hb hpb => ?_
    obtain ⟨w, hw⟩ := (hp b).1 hpb
    exact (List.nodupKeys_cons.1 hnodup).1
      (List.mem_keys.2 ⟨w, List.mem_filterMap.2 ⟨b, hb, hw⟩⟩)
  rw [List.countP_append] at hzero
  rw [List.countP_append, List.countP_cons_of_pos ha]
  omega

theorem Holds.countP_le (h : Holds pair l d) {p : α → Bool}
    (hp : ∀ a, p a = true ↔ ∃ v, pair a = some ⟨k, v⟩) : l.countP p ≤ 1 := by
  by_cases hmem : ∃ a ∈ l, p a = true
  · obtain ⟨a, ha, hpa⟩ := hmem
    obtain ⟨i, hi⟩ := List.mem_iff_getElem?.1 ha
    exact (h.countP hp hi hpa).le
  · rw [List.countP_eq_zero.2 fun a ha hpa => hmem ⟨a, ha, hpa⟩]
    exact Nat.zero_le 1

/-- Writing a slot counts it anew. -/
theorem countP_modify (hi : l[i]? = some a) (p : α → Bool) (f : α → α) :
    (l.modify i f).countP p + (if p a then 1 else 0) = l.countP p + if p (f a) then 1 else 0 := by
  obtain ⟨l₁, l₂, rfl, -, hmod⟩ := exists_split hi f
  rw [hmod]
  simp only [List.countP_append, List.countP_cons]
  omega

/-- A slot that is written without effect. -/
theorem Holds.same (h : Holds pair l d) (hi : l[i]? = some a) (hf : pair (f a) = pair a) :
    Holds pair (l.modify i f) d := by
  obtain ⟨l₁, l₂, rfl, -, hmod⟩ := exists_split hi f
  rw [Holds, hmod, coe_split, hf, ← coe_split]
  exact h

variable [DecidableEq K]

theorem Holds.lookup (h : Holds pair l d) :
    d.lookup k = some v ↔ ∃ a ∈ l, pair a = some ⟨k, v⟩ := by
  rw [Finmap.lookup_eq_some_iff, h, Multiset.mem_coe, List.mem_filterMap]

theorem Holds.mem (h : Holds pair l d) : k ∈ d ↔ ∃ a ∈ l, ∃ v, pair a = some ⟨k, v⟩ := by
  rw [← Finmap.lookup_isSome, Option.isSome_iff_exists]
  simp only [h.lookup]
  exact ⟨fun ⟨v, a, ha, hv⟩ => ⟨a, ha, v, hv⟩, fun ⟨a, ha, v, hv⟩ => ⟨v, a, ha, hv⟩⟩

theorem entries_erase {s : Multiset (Sigma fun _ : K => V)} (h : d.entries = ⟨k, v⟩ ::ₘ s) :
    (d.erase k).entries = s := by
  induction d using Finmap.induction_on with
  | H t =>
    induction s using Quotient.inductionOn with
    | h s =>
      have hperm : t.entries.Perm (⟨k, v⟩ :: s) := Quotient.exact h
      have hs : List.kerase k ((⟨k, v⟩ : Sigma fun _ : K => V) :: s) = s :=
        List.kerase_cons_eq rfl
      have herase : (List.kerase k t.entries).Perm s := hs ▸ hperm.kerase t.nodupKeys
      exact Quotient.sound herase

theorem erase_of_notMem (h : k ∉ d) : d.erase k = d := by
  refine Finmap.ext_lookup fun k' => ?_
  by_cases hk : k' = k
  · rw [hk, Finmap.lookup_erase, Finmap.lookup_eq_none.2 h]
  · rw [Finmap.lookup_erase_ne hk]

theorem entries_insert (d : Finmap fun _ : K => V) (k : K) (v : V) :
    (d.insert k v).entries = ⟨k, v⟩ ::ₘ (d.erase k).entries := by
  induction d using Finmap.induction_on with
  | H t => rfl

/-- A slot with a key is emptied. -/
theorem Holds.erase (h : Holds pair l d) (hi : l[i]? = some a) (ha : pair a = some ⟨k, v⟩)
    (hf : pair (f a) = none) : Holds pair (l.modify i f) (d.erase k) := by
  obtain ⟨l₁, l₂, rfl, -, hmod⟩ := exists_split hi f
  rw [Holds, coe_split, ha] at h
  rw [Holds, hmod, coe_split, hf]
  exact entries_erase h

/-- A slot with a key gets another value. -/
theorem Holds.replace (h : Holds pair l d) (hi : l[i]? = some a) (ha : pair a = some ⟨k, v⟩)
    (hf : pair (f a) = some ⟨k, w⟩) : Holds pair (l.modify i f) (d.insert k w) := by
  obtain ⟨l₁, l₂, rfl, -, hmod⟩ := exists_split hi f
  rw [Holds, coe_split, ha] at h
  rw [Holds, hmod, coe_split, hf, entries_insert,
    entries_erase (s := (List.filterMap pair (l₁ ++ l₂) : Multiset _)) h]
  rfl

/-- A free slot gets a key. -/
theorem Holds.insert (h : Holds pair l d) (hi : l[i]? = some a) (ha : pair a = none)
    (hf : pair (f a) = some ⟨k, v⟩) (hk : k ∉ d) : Holds pair (l.modify i f) (d.insert k v) := by
  obtain ⟨l₁, l₂, rfl, -, hmod⟩ := exists_split hi f
  rw [Holds, coe_split, ha] at h
  rw [Holds, hmod, coe_split, hf, Finmap.entries_insert_of_notMem hk, h]
  rfl

end Slots
