import Mathlib.Data.List.Sort
import Mathlib.Data.List.Nodup
import Mathlib.Order.Defs.LinearOrder

/-!
# Ordered maps

A finite map as the list of its entries in increasing order of the keys. An iterator is an index
into the list, and the length of the list is the iterator past the end.
-/

namespace KeyList

variable {α β : Type*}

/-- Entries in increasing order of the keys, no two with the same key. -/
def Sorted [LT α] (l : List (α × β)) : Prop := l.Pairwise fun e f => e.1 < f.1

variable [LinearOrder α]

/-- The iterator of the first entry whose key is not less than `k`. -/
def lowerBound (l : List (α × β)) (k : α) : ℕ := l.findIdx fun e => decide (k ≤ e.1)

/-- The iterator of the first entry whose key is greater than `k`. -/
def upperBound (l : List (α × β)) (k : α) : ℕ := l.findIdx fun e => decide (k < e.1)

/-- The iterator of the entry under `k`, or past the end. -/
def find (l : List (α × β)) (k : α) : ℕ := l.findIdx fun e => decide (e.1 = k)

/-- An entry put in its place; nothing happens when the key is there already. -/
def insert (k : α) (v : β) : List (α × β) → List (α × β)
  | [] => [(k, v)]
  | e :: l => if k < e.1 then (k, v) :: e :: l else if k = e.1 then e :: l else e :: insert k v l

/-- The entries without those from iterator `i` on and before `j`. -/
def eraseBetween (l : List (α × β)) (i j : ℕ) : List (α × β) := l.take i ++ l.drop j

/-- The entries from iterator `i` on and before `j`. -/
def between (l : List (α × β)) (i j : ℕ) : List (α × β) := (l.take j).drop i

section Sorted

variable {l : List (α × β)} {k : α}

theorem Sorted.nodup (h : Sorted l) : l.Nodup :=
  h.imp fun {_ _} hlt heq => (ne_of_lt hlt) (congrArg Prod.fst heq)

theorem Sorted.nodup_keys (h : Sorted l) : (l.map Prod.fst).Nodup :=
  List.pairwise_map.2 (h.imp fun hlt => ne_of_lt hlt)

/-- One entry a key. -/
theorem Sorted.eq_of_key (h : Sorted l) {e f : α × β} (he : e ∈ l) (hf : f ∈ l)
    (hk : e.1 = f.1) : e = f :=
  List.inj_on_of_nodup_map h.nodup_keys he hf hk

/-- Sorted lists with the same entries are the same. -/
theorem Sorted.ext {l l' : List (α × β)} (h : Sorted l) (h' : Sorted l')
    (hmem : ∀ e, e ∈ l ↔ e ∈ l') : l = l' :=
  ((List.perm_ext_iff_of_nodup h.nodup h'.nodup).2 hmem).eq_of_pairwise
    (fun _ _ _ _ hab hba => absurd hab (not_lt_of_gt hba)) h h'

theorem Sorted.getElem_le (h : Sorted l) {i j : ℕ} (hi : i < l.length) (hj : j < l.length)
    (hij : i ≤ j) : l[i].1 ≤ l[j].1 := by
  rcases Nat.eq_or_lt_of_le hij with rfl | hlt
  · exact le_rfl
  · exact le_of_lt (List.pairwise_iff_getElem.1 h i j hi hj hlt)

theorem Sorted.tail {e : α × β} (h : Sorted (e :: l)) : Sorted l := (List.pairwise_cons.1 h).2

theorem Sorted.head_lt {e f : α × β} (h : Sorted (e :: l)) (hf : f ∈ l) : e.1 < f.1 :=
  (List.pairwise_cons.1 h).1 f hf

end Sorted

/-! ### Insertion -/

section Insert

theorem mem_insert {k : α} {v : β} : ∀ {l : List (α × β)}, Sorted l → ∀ {e : α × β},
    e ∈ insert k v l ↔ e ∈ l ∨ e = (k, v) ∧ ∀ f ∈ l, f.1 ≠ k
  | [], _, e => by simp [insert]
  | a :: l, h, e => by
    have hlt : ∀ f ∈ l, a.1 < f.1 := fun f hf => h.head_lt hf
    unfold insert
    split_ifs with h1 h2
    · have hne : ∀ f ∈ a :: l, f.1 ≠ k := by
        intro f hf
        rcases List.mem_cons.1 hf with rfl | hf
        · exact ne_of_gt h1
        · exact ne_of_gt (h1.trans (hlt f hf))
      rw [List.mem_cons, or_comm]
      exact or_congr_right ⟨fun he => ⟨he, hne⟩, And.left⟩
    · constructor
      · exact .inl
      · rintro (he | ⟨-, hne⟩)
        · exact he
        · exact absurd h2.symm (hne a List.mem_cons_self)
    · rw [List.mem_cons, mem_insert h.tail, List.mem_cons, List.forall_mem_cons]
      have hak : a.1 ≠ k := Ne.symm h2
      tauto

theorem sorted_insert {k : α} {v : β} : ∀ {l : List (α × β)}, Sorted l → Sorted (insert k v l)
  | [], _ => List.pairwise_singleton _ _
  | a :: l, h => by
    have hlt : ∀ f ∈ l, a.1 < f.1 := fun f hf => h.head_lt hf
    unfold insert
    split_ifs with h1 h2
    · refine List.pairwise_cons.2 ⟨fun f hf => ?_, h⟩
      rcases List.mem_cons.1 hf with rfl | hf
      · exact h1
      · exact h1.trans (hlt f hf)
    · exact h
    · refine List.pairwise_cons.2 ⟨fun f hf => ?_, sorted_insert h.tail⟩
      rcases (mem_insert h.tail).1 hf with hf | ⟨rfl, -⟩
      · exact hlt f hf
      · exact lt_of_le_of_ne (not_lt.1 h1) (Ne.symm h2)

end Insert

/-! ### Bounds -/

section Bounds

variable {l : List (α × β)} {k : α} {e : α × β} {i : ℕ}

/-- Where the keys start to satisfy a property that larger keys keep. -/
theorem lt_findIdx_iff (h : Sorted l) {p : α → Bool} (hp : ∀ a b, a ≤ b → p a → p b)
    (hi : i < l.length) : i < l.findIdx (fun e => p e.1) ↔ p l[i].1 = false := by
  constructor
  · intro hlt
    simpa using List.not_of_lt_findIdx hlt
  · intro hf
    by_contra hge
    have hlen : l.findIdx (fun e => p e.1) < l.length := by omega
    have htrue : p l[l.findIdx fun e => p e.1].1 = true := List.findIdx_getElem (w := hlen)
    exact absurd (hp _ _ (h.getElem_le hlen hi (not_lt.1 hge)) htrue) (by simp [hf])

theorem lt_lowerBound_iff (h : Sorted l) (hi : i < l.length) :
    i < lowerBound l k ↔ l[i].1 < k := by
  unfold lowerBound
  rw [lt_findIdx_iff h (p := fun a => decide (k ≤ a))
    (by simpa using fun a b hab hka => le_trans hka hab) hi]
  simp

theorem lt_upperBound_iff (h : Sorted l) (hi : i < l.length) :
    i < upperBound l k ↔ l[i].1 ≤ k := by
  unfold upperBound
  rw [lt_findIdx_iff h (p := fun a => decide (k < a))
    (by simpa using fun a b hab hka => lt_of_lt_of_le hka hab) hi]
  simp

theorem lowerBound_le_length : lowerBound l k ≤ l.length := List.findIdx_le_length

theorem upperBound_le_length : upperBound l k ≤ l.length := List.findIdx_le_length

theorem lowerBound_mono (l : List (α × β)) {k k' : α} (h : k ≤ k') :
    lowerBound l k ≤ lowerBound l k' :=
  List.findIdx_le_findIdx fun _ _ he => decide_eq_true (h.trans (of_decide_eq_true he))

/-- The entry at the lower bound is the one with the least key that is not less. -/
theorem getElem?_lowerBound (h : Sorted l) :
    l[lowerBound l k]? = some e ↔ e ∈ l ∧ k ≤ e.1 ∧ ∀ f ∈ l, k ≤ f.1 → e.1 ≤ f.1 := by
  constructor
  · intro he
    obtain ⟨hn, rfl⟩ := List.getElem?_eq_some_iff.1 he
    have hk : k ≤ l[lowerBound l k].1 := not_lt.1 fun hlt => by
      have := (lt_lowerBound_iff h hn).2 hlt
      omega
    refine ⟨List.getElem_mem hn, hk, fun f hf hkf => ?_⟩
    obtain ⟨j, hj, rfl⟩ := List.mem_iff_getElem.1 hf
    exact h.getElem_le hn hj (not_lt.1 fun hlt => not_lt.2 hkf ((lt_lowerBound_iff h hj).1 hlt))
  · rintro ⟨he, hk, hmin⟩
    obtain ⟨j, hj, rfl⟩ := List.mem_iff_getElem.1 he
    have hle : lowerBound l k ≤ j :=
      not_lt.1 fun hlt => not_lt.2 hk ((lt_lowerBound_iff h hj).1 hlt)
    have hn : lowerBound l k < l.length := by omega
    have hkn : k ≤ l[lowerBound l k].1 := not_lt.1 fun hlt => by
      have := (lt_lowerBound_iff h hn).2 hlt
      omega
    rw [List.getElem?_eq_getElem hn, Option.some_inj]
    exact h.eq_of_key (List.getElem_mem hn) he
      (le_antisymm (h.getElem_le hn hj hle) (hmin _ (List.getElem_mem hn) hkn))

/-- Two bounds are the same when the first entry from the one on is not before the other. -/
theorem lowerBound_eq_iff (h : Sorted l) {k' : α} (hle : k ≤ k')
    (he : l[lowerBound l k]? = some e) : lowerBound l k = lowerBound l k' ↔ k' ≤ e.1 := by
  obtain ⟨hn, rfl⟩ := List.getElem?_eq_some_iff.1 he
  have hlt := lt_lowerBound_iff (k := k') h hn
  have hmono := lowerBound_mono l hle
  rw [← not_lt, ← hlt]
  omega

theorem getElem?_lowerBound_none : l[lowerBound l k]? = none ↔ ∀ f ∈ l, f.1 < k := by
  rw [List.getElem?_eq_none_iff]
  constructor
  · intro hlen f hf
    have heq : l.findIdx (fun e => decide (k ≤ e.1)) = l.length :=
      le_antisymm lowerBound_le_length hlen
    exact not_le.1 (of_decide_eq_false (List.findIdx_eq_length.1 heq f hf))
  · intro hall
    exact le_of_eq
      (List.findIdx_eq_length.2 fun f hf => decide_eq_false (not_le.2 (hall f hf))).symm

/-- The entry before the upper bound is the one with the greatest key that is not greater. -/
theorem getElem?_upperBound_pred (h : Sorted l) (hpos : upperBound l k ≠ 0) :
    l[upperBound l k - 1]? = some e ↔ e ∈ l ∧ e.1 ≤ k ∧ ∀ f ∈ l, f.1 ≤ k → f.1 ≤ e.1 := by
  have hlen := upperBound_le_length (l := l) (k := k)
  have hn : upperBound l k - 1 < l.length := by omega
  have hkn : l[upperBound l k - 1].1 ≤ k := (lt_upperBound_iff h hn).1 (by omega)
  have hmax : ∀ f ∈ l, f.1 ≤ k → f.1 ≤ l[upperBound l k - 1].1 := by
    intro f hf hfk
    obtain ⟨j, hj, rfl⟩ := List.mem_iff_getElem.1 hf
    have := (lt_upperBound_iff h hj).2 hfk
    exact h.getElem_le hj hn (by omega)
  rw [List.getElem?_eq_getElem hn, Option.some_inj]
  constructor
  · rintro rfl
    exact ⟨List.getElem_mem hn, hkn, hmax⟩
  · rintro ⟨he, hk, hge⟩
    exact h.eq_of_key (List.getElem_mem hn) he
      (le_antisymm (hge _ (List.getElem_mem hn) hkn) (hmax e he hk))

theorem upperBound_eq_zero (h : Sorted l) : upperBound l k = 0 ↔ ∀ f ∈ l, k < f.1 := by
  constructor
  · intro h0 f hf
    obtain ⟨j, hj, rfl⟩ := List.mem_iff_getElem.1 hf
    exact not_le.1 fun hle => by
      have := (lt_upperBound_iff h hj).2 hle
      omega
  · intro hall
    by_contra hne
    have hlen := upperBound_le_length (l := l) (k := k)
    have h0 : 0 < l.length := by omega
    have hle : l[0].1 ≤ k := (lt_upperBound_iff h h0).1 (by omega)
    exact absurd (hall _ (List.getElem_mem h0)) (not_lt.2 hle)

theorem upperBound_of_key (h : Sorted l) (he : l[lowerBound l k]? = some e) (hk : e.1 = k) :
    upperBound l k = lowerBound l k + 1 := by
  obtain ⟨hn, rfl⟩ := List.getElem?_eq_some_iff.1 he
  have hlt := (lt_upperBound_iff h hn).2 hk.le
  have hlen := upperBound_le_length (l := l) (k := k)
  by_contra hne
  have hn' : lowerBound l k + 1 < l.length := by omega
  have hle := (lt_upperBound_iff (k := k) h hn').1 (by omega)
  have hsucc : l[lowerBound l k].1 < l[lowerBound l k + 1].1 :=
    List.pairwise_iff_getElem.1 h _ _ hn hn' (by omega)
  exact absurd (hle.trans hk.ge) (not_le.2 hsucc)

theorem upperBound_of_not_key (h : Sorted l) (hk : ∀ e ∈ l, e.1 ≠ k) :
    upperBound l k = lowerBound l k := by
  have hu := upperBound_le_length (l := l) (k := k)
  have hl := lowerBound_le_length (l := l) (k := k)
  have hiff : ∀ n (hn : n < l.length), n < upperBound l k ↔ n < lowerBound l k := fun n hn => by
    rw [lt_upperBound_iff h hn, lt_lowerBound_iff h hn]
    exact ⟨fun hle => lt_of_le_of_ne hle (hk _ (List.getElem_mem hn)), le_of_lt⟩
  by_contra hne
  rcases Nat.lt_or_gt_of_ne hne with hlt | hgt
  · exact absurd ((hiff _ (by omega)).2 hlt) (lt_irrefl _)
  · exact absurd ((hiff _ (by omega)).1 hgt) (lt_irrefl _)

/-- The index where a property starts to hold. -/
theorem findIdx_eq_of {γ : Type*} {l : List γ} {p : γ → Bool} {i : ℕ} (hi : i ≤ l.length)
    (h : ∀ j x, l[j]? = some x → (p x = true ↔ i ≤ j)) : l.findIdx p = i := by
  rcases Nat.eq_or_lt_of_le hi with rfl | hlt
  · refine List.findIdx_eq_length.2 fun x hx => ?_
    obtain ⟨j, hj, rfl⟩ := List.mem_iff_getElem.1 hx
    have := h j _ (List.getElem?_eq_getElem hj)
    rw [Bool.eq_false_iff]
    intro hp
    have := this.1 hp
    omega
  · refine (List.findIdx_eq hlt).2 ⟨(h i _ (List.getElem?_eq_getElem hlt)).2 le_rfl, ?_⟩
    intro j hj
    rw [Bool.eq_false_iff]
    intro hp
    have := (h j _ (List.getElem?_eq_getElem (by omega))).1 hp
    omega

/-- The iterators of a key that is there. -/
theorem bounds_of_key (h : Sorted l) (he : l[i]? = some e) :
    lowerBound l e.1 = i ∧ upperBound l e.1 = i + 1 ∧ find l e.1 = i := by
  obtain ⟨hi, rfl⟩ := List.getElem?_eq_some_iff.1 he
  have hlow : lowerBound l l[i].1 = i := by
    refine findIdx_eq_of hi.le fun j f hf => ?_
    obtain ⟨hj, rfl⟩ := List.getElem?_eq_some_iff.1 hf
    rw [decide_eq_true_iff]
    refine ⟨fun hle => not_lt.1 fun hlt => ?_, h.getElem_le hi hj⟩
    exact absurd (List.pairwise_iff_getElem.1 h j i hj hi hlt) (not_lt.2 hle)
  refine ⟨hlow, ?_, (List.findIdx_eq hi).2 ⟨decide_eq_true rfl, fun j hj => ?_⟩⟩
  · rw [upperBound_of_key h (by rw [hlow, he]) rfl, hlow]
  · have hlt := List.pairwise_iff_getElem.1 h j i (by omega) hi hj
    exact decide_eq_false (ne_of_lt hlt)

/-- The iterators of a key that is not there, between the smaller keys and the larger ones. -/
theorem bounds_of_gap (hi : i ≤ l.length)
    (h : ∀ j f, l[j]? = some f → (j < i → f.1 < k) ∧ (i ≤ j → k < f.1)) :
    lowerBound l k = i ∧ upperBound l k = i ∧ find l k = l.length := by
  refine ⟨findIdx_eq_of hi fun j f hf => ?_, findIdx_eq_of hi fun j f hf => ?_,
    List.findIdx_eq_length.2 fun f hf => ?_⟩
  · obtain ⟨hlt, hge⟩ := h j f hf
    rw [decide_eq_true_iff]
    exact ⟨fun hle => not_lt.1 fun hj => absurd (hlt hj) (not_lt.2 hle), fun hj => (hge hj).le⟩
  · obtain ⟨hlt, hge⟩ := h j f hf
    rw [decide_eq_true_iff]
    exact ⟨fun hk => not_lt.1 fun hj => absurd (hlt hj) (not_lt_of_gt hk), hge⟩
  · obtain ⟨j, hj⟩ := List.mem_iff_getElem?.1 hf
    obtain ⟨hlt, hge⟩ := h j f hj
    refine decide_eq_false fun hk => ?_
    rcases Nat.lt_or_ge j i with hji | hji
    · exact absurd hk (ne_of_lt (hlt hji))
    · exact absurd hk (ne_of_gt (hge hji))

/-- The iterators depend on the keys only. -/
theorem bounds_map {γ : Type*} (f : β → γ) (l : List (α × β)) (k : α) :
    lowerBound (l.map fun e => (e.1, f e.2)) k = lowerBound l k
      ∧ upperBound (l.map fun e => (e.1, f e.2)) k = upperBound l k
      ∧ find (l.map fun e => (e.1, f e.2)) k = find l k := by
  unfold lowerBound upperBound find
  simp only [List.findIdx_map]
  exact ⟨rfl, rfl, rfl⟩

theorem Sorted.map {γ : Type*} {f : β → γ} (h : Sorted l) : Sorted (l.map fun e => (e.1, f e.2)) :=
  List.pairwise_map.2 h

end Bounds

/-! ### Parts -/

section Parts

variable {l : List (α × β)} {e : α × β} {i j : ℕ} {a b : α}

omit [LinearOrder α] in
theorem mem_between_iff : e ∈ between l i j ↔ ∃ n, i ≤ n ∧ n < j ∧ l[n]? = some e := by
  unfold between
  rw [List.mem_iff_getElem?]
  constructor
  · rintro ⟨n, hn⟩
    rw [List.getElem?_drop, List.getElem?_take] at hn
    split_ifs at hn with hlt
    exact ⟨i + n, by omega, hlt, hn⟩
  · rintro ⟨n, hi, hj, hn⟩
    refine ⟨n - i, ?_⟩
    rw [List.getElem?_drop, List.getElem?_take, Nat.add_sub_cancel' hi, if_pos hj, hn]

omit [LinearOrder α] in
theorem mem_eraseBetween_iff :
    e ∈ eraseBetween l i j ↔ ∃ n, (n < i ∨ j ≤ n) ∧ l[n]? = some e := by
  unfold eraseBetween
  rw [List.mem_append, List.mem_iff_getElem?, List.mem_iff_getElem?]
  constructor
  · rintro (⟨n, hn⟩ | ⟨n, hn⟩)
    · rw [List.getElem?_take] at hn
      split_ifs at hn with hlt
      exact ⟨n, .inl hlt, hn⟩
    · rw [List.getElem?_drop] at hn
      exact ⟨j + n, .inr (by omega), hn⟩
  · rintro ⟨n, hlt | hle, hn⟩
    · exact .inl ⟨n, by rw [List.getElem?_take, if_pos hlt, hn]⟩
    · exact .inr ⟨n - j, by rw [List.getElem?_drop, Nat.add_sub_cancel' hle, hn]⟩

/-- The entries with keys from `a` to `b`. -/
theorem mem_between (h : Sorted l) :
    e ∈ between l (lowerBound l a) (upperBound l b) ↔ e ∈ l ∧ a ≤ e.1 ∧ e.1 ≤ b := by
  rw [mem_between_iff]
  constructor
  · rintro ⟨n, hi, hj, hn⟩
    obtain ⟨hlen, rfl⟩ := List.getElem?_eq_some_iff.1 hn
    refine ⟨List.getElem_mem hlen, not_lt.1 fun hlt => ?_, (lt_upperBound_iff h hlen).1 hj⟩
    have := (lt_lowerBound_iff h hlen).2 hlt
    omega
  · rintro ⟨he, ha, hb⟩
    obtain ⟨n, hlen, rfl⟩ := List.mem_iff_getElem.1 he
    refine ⟨n, not_lt.1 fun hlt => ?_, (lt_upperBound_iff h hlen).2 hb,
      List.getElem?_eq_getElem hlen⟩
    exact absurd ((lt_lowerBound_iff h hlen).1 hlt) (not_lt.2 ha)

theorem mem_eraseBetween (h : Sorted l) :
    e ∈ eraseBetween l (lowerBound l a) (upperBound l b) ↔ e ∈ l ∧ (e.1 < a ∨ b < e.1) := by
  rw [mem_eraseBetween_iff]
  constructor
  · rintro ⟨n, hor, hn⟩
    obtain ⟨hlen, rfl⟩ := List.getElem?_eq_some_iff.1 hn
    refine ⟨List.getElem_mem hlen, hor.imp (lt_lowerBound_iff h hlen).1 fun hge => ?_⟩
    exact not_le.1 fun hle => absurd ((lt_upperBound_iff h hlen).2 hle) (by omega)
  · rintro ⟨he, hor⟩
    obtain ⟨n, hlen, rfl⟩ := List.mem_iff_getElem.1 he
    refine ⟨n, hor.imp (lt_lowerBound_iff h hlen).2 fun hgt => ?_, List.getElem?_eq_getElem hlen⟩
    exact not_lt.1 fun hlt => absurd ((lt_upperBound_iff h hlen).1 hlt) (not_le.2 hgt)

theorem Sorted.between (h : Sorted l) : Sorted (between l i j) :=
  h.sublist ((List.drop_sublist _ _).trans (List.take_sublist _ _))

theorem Sorted.eraseBetween (h : Sorted l) (hij : i ≤ j) : Sorted (eraseBetween l i j) := by
  have hsub : (l.take i ++ l.drop j).Sublist (l.take i ++ l.drop i) :=
    (List.Sublist.refl _).append (List.drop_sublist_drop_left l hij)
  rw [List.take_append_drop] at hsub
  exact h.sublist hsub

/-- A value put in place of another under the same key. -/
theorem mem_set (h : Sorted l) {k : α} {v v' : β} (hi : l[i]? = some (k, v)) :
    e ∈ l.set i (k, v') ↔ e = (k, v') ∨ e ∈ l ∧ e.1 ≠ k := by
  obtain ⟨hlen, hli⟩ := List.getElem?_eq_some_iff.1 hi
  rw [List.mem_iff_getElem?]
  constructor
  · rintro ⟨n, hn⟩
    rw [List.getElem?_set] at hn
    split_ifs at hn with hin
    · exact .inl (Option.some_inj.1 hn).symm
    · obtain ⟨hn', rfl⟩ := List.getElem?_eq_some_iff.1 hn
      refine .inr ⟨List.getElem_mem hn', fun hk => hin ?_⟩
      have heq : l[i] = l[n] :=
        h.eq_of_key (List.getElem_mem hlen) (List.getElem_mem hn') (by rw [hli, hk])
      exact (List.Nodup.getElem_inj_iff h.nodup).1 heq
  · rintro (rfl | ⟨he, hk⟩)
    · exact ⟨i, by rw [List.getElem?_set_self hlen]⟩
    · obtain ⟨n, hn, rfl⟩ := List.mem_iff_getElem.1 he
      refine ⟨n, ?_⟩
      rw [List.getElem?_set_ne, List.getElem?_eq_getElem hn]
      rintro rfl
      exact hk (by rw [hli])

theorem Sorted.set (h : Sorted l) {k : α} {v v' : β} (hi : l[i]? = some (k, v)) :
    Sorted (l.set i (k, v')) := by
  obtain ⟨hlen, hli⟩ := List.getElem?_eq_some_iff.1 hi
  have hkey : ∀ n (hn : n < l.length),
      ((l.set i (k, v')).get ⟨n, by simpa using hn⟩).1 = l[n].1 := by
    intro n hn
    rw [List.get_eq_getElem, List.getElem_set]
    split_ifs with hin
    · subst hin
      rw [hli]
    · rfl
  refine List.pairwise_iff_getElem.2 fun a b ha hb hab => ?_
  rw [List.length_set] at ha hb
  have hlt := List.pairwise_iff_getElem.1 h a b ha hb hab
  rw [← hkey a ha, ← hkey b hb] at hlt
  exact hlt

end Parts

/-! ### Removal -/

section Removal

variable {l : List (α × β)} {e : α × β} {i : ℕ}

theorem mem_eraseIdx (h : Sorted l) (hi : i < l.length) :
    e ∈ l.eraseIdx i ↔ e ∈ l ∧ e ≠ l[i] := by
  rw [List.mem_eraseIdx_iff_getElem]
  constructor
  · rintro ⟨j, hj, hne, rfl⟩
    refine ⟨List.getElem_mem hj, fun heq => ?_⟩
    exact hne ((List.Nodup.getElem_inj_iff h.nodup).1 heq)
  · rintro ⟨he, hne⟩
    obtain ⟨j, hj, rfl⟩ := List.mem_iff_getElem.1 he
    exact ⟨j, hj, fun hji => hne (by subst hji; rfl), rfl⟩

end Removal

end KeyList

/-- A map ordered by its keys. -/
structure SortedMap (α β : Type*) [LT α] where
  entries : List (α × β)
  sorted : KeyList.Sorted entries

namespace SortedMap

variable {α β : Type*} [LinearOrder α]

def empty : SortedMap α β := ⟨[], List.Pairwise.nil⟩

def size (m : SortedMap α β) : ℕ := m.entries.length

def lowerBound (m : SortedMap α β) (k : α) : ℕ := KeyList.lowerBound m.entries k

def upperBound (m : SortedMap α β) (k : α) : ℕ := KeyList.upperBound m.entries k

def find (m : SortedMap α β) (k : α) : ℕ := KeyList.find m.entries k

def insert (m : SortedMap α β) (k : α) (v : β) : SortedMap α β :=
  ⟨KeyList.insert k v m.entries, KeyList.sorted_insert m.sorted⟩

/-- The map without the entry at an iterator. -/
def erase (m : SortedMap α β) (i : ℕ) : SortedMap α β :=
  ⟨m.entries.eraseIdx i, m.sorted.sublist (List.eraseIdx_sublist _ _)⟩

theorem ext {m m' : SortedMap α β} (h : ∀ e, e ∈ m.entries ↔ e ∈ m'.entries) : m = m' := by
  have := m.sorted.ext m'.sorted h
  cases m
  cases m'
  simpa using this

end SortedMap
