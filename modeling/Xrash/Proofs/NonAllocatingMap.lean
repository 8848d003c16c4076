import Xrash.NonAllocatingMap
import Xrash.Lib.Slots

/-!
# The map without allocation as a dictionary

With keys that fit an entry, the map is a finite map of at most as many keys as it has entries. A
key that does not fit is stored cut off, and is not found again.
-/

namespace Xrash

/-! ## Arrays of characters -/

theorem strncmpEq_iff {n : ℕ} {s t : Str} (hs : '\x00' ∉ s) (hn : t.length = n)
    (ht : '\x00' ∈ t) : strncmpEq s t n = true ↔ t.takeWhile (· ≠ '\x00') = s := by
  induction n generalizing s t with
  | zero =>
    rw [List.length_eq_zero_iff] at hn
    simp [hn] at ht
  | succ n ih =>
    rcases t with _ | ⟨c, t⟩
    · simp at hn
    rcases s with _ | ⟨d, s⟩
    · by_cases hc : c = '\x00'
      · simp [strncmpEq, hc]
      · simp [strncmpEq, hc, Ne.symm hc]
    · simp only [List.mem_cons, not_or] at hs ht
      by_cases hdc : d = c
      · subst hdc
        have ht' : '\x00' ∈ t := ht.resolve_left hs.1
        simp [strncmpEq, Ne.symm hs.1, ih hs.2 (by simpa using hn) ht']
      · simp [strncmpEq, hdc, List.takeWhile_cons]
        intro h
        split at h <;> simp_all

theorem takeWhile_strncpy (n : ℕ) {s : Str} (hs : '\x00' ∉ s) :
    ((strncpy s (n + 1)).set n '\x00').takeWhile (· ≠ '\x00') = s.take n := by
  induction n generalizing s with
  | zero => rcases s with _ | ⟨c, s⟩ <;> simp [strncpy]
  | succ n ih =>
    rcases s with _ | ⟨c, s⟩
    · simp [strncpy, List.replicate_succ]
    · simp only [List.mem_cons, not_or] at hs
      simpa [strncpy, Ne.symm hs.1] using ih hs.2

namespace Buffer

variable {n : ℕ}

theorem length_str (b : Buffer n) : b.str.length < n := by
  have hle := (List.takeWhile_prefix (fun c => decide (c ≠ '\x00')) (l := b.1)).length_le
  rcases Nat.lt_or_ge b.str.length n with hlt | hge
  · exact hlt
  · have heq := (List.takeWhile_prefix (fun c => decide (c ≠ '\x00')) (l := b.1)).eq_of_length_le
      (by rw [b.2.1]; exact hge)
    have hmem : '\x00' ∈ b.1.takeWhile fun c => decide (c ≠ '\x00') := by
      rw [heq]
      exact b.2.2
    simpa using List.mem_takeWhile_imp hmem

theorem strncmpEq_str {key : Str} (hkey : '\x00' ∉ key) (b : Buffer n) :
    strncmpEq key b.1 n = decide (b.str = key) := by
  rw [Bool.eq_iff_iff, strncmpEq_iff hkey b.2.1 b.2.2, decide_eq_true_iff]
  rfl

theorem head_eq (b : Buffer n) : b.1.head? = some '\x00' ↔ b.str = [] := by
  obtain ⟨_ | ⟨c, s⟩, hb⟩ := b
  · exact absurd hb.2 List.not_mem_nil
  · by_cases hc : c = '\x00' <;> simp [str, hc]

variable [NeZero n]

theorem str_zero : (zero : Buffer n).str = [] := by
  rw [← head_eq]
  obtain ⟨m, rfl⟩ := Nat.exists_eq_succ_of_ne_zero (NeZero.ne n)
  rfl

theorem str_clear (b : Buffer n) : b.clear.str = [] := by
  rw [← head_eq]
  obtain ⟨_ | ⟨c, s⟩, hb⟩ := b
  · exact absurd hb.2 List.not_mem_nil
  · rfl

/-- A string is cut off at the last place. -/
theorem str_copy {s : Str} (hs : '\x00' ∉ s) : (copy s : Buffer n).str = s.take (n - 1) := by
  obtain ⟨m, rfl⟩ := Nat.exists_eq_succ_of_ne_zero (NeZero.ne n)
  show ((strncpy s (m + 1)).set m '\x00').takeWhile _ = s.take m
  exact takeWhile_strncpy m hs

end Buffer

namespace Entry

variable {keySize valueSize : ℕ} {e : Entry keySize valueSize} {k v : Str}

theorem isActive_iff : e.isActive = true ↔ e.key.str ≠ [] := by
  rw [isActive, decide_eq_true_iff, Ne, Buffer.head_eq]

def content (e : Entry keySize valueSize) : Sigma fun _ : Str => Str := ⟨e.key.str, e.value.str⟩

/-- The key and value of an entry that has them. -/
def pair (e : Entry keySize valueSize) : Option (Sigma fun _ : Str => Str) :=
  if e.key.str = [] then none else some e.content

theorem pair_none : e.pair = none ↔ e.key.str = [] := by
  simp [pair]

theorem pair_some : e.pair = some ⟨k, v⟩ ↔ k ≠ [] ∧ e.key.str = k ∧ e.value.str = v := by
  unfold pair
  split_ifs with h
  · simp only [false_iff, not_and]
    exact fun hk hek => absurd (hek.symm.trans h) hk
  · simp only [content, Option.some.injEq, Sigma.mk.injEq, heq_eq_eq]
    exact ⟨fun hkv => ⟨hkv.1 ▸ h, hkv⟩, And.right⟩

theorem isSome_pair : e.pair.isSome = e.isActive := by
  rw [Bool.eq_iff_iff, isActive_iff, Option.isSome_iff_ne_none, Ne, pair_none]

end Entry

namespace NonAllocatingMap

open Slots

variable {keySize valueSize numEntries : ℕ} {m m' : NonAllocatingMap keySize valueSize numEntries}
  {d : Finmap fun _ : Str => Str} {e : Entry keySize valueSize} {key value : Str} {i index : ℕ}

theorem lt_of_getElem? (h : m.entries[i]? = some e) : i < numEntries := by
  rw [← m.length_entries]
  exact (List.getElem?_eq_some_iff.1 h).1

theorem getEntryIndexForKey_cases (m : NonAllocatingMap keySize valueSize numEntries)
    (hkey : '\x00' ∉ key) :
    (∃ e, m.entries[m.getEntryIndexForKey key]? = some e ∧ e.key.str = key) ∨
      m.getEntryIndexForKey key = numEntries ∧ ∀ e ∈ m.entries, e.key.str ≠ key := by
  have hp : m.getEntryIndexForKey key =
      m.entries.findIdx fun e => decide (e.key.str = key) := by
    simp only [getEntryIndexForKey, Buffer.strncmpEq_str hkey]
  rw [hp]
  by_cases h : ∃ e ∈ m.entries, e.key.str = key
  · have hget := List.findIdx_getElem?_eq_getElem_of_exists
      (p := fun e : Entry keySize valueSize => decide (e.key.str = key)) (by simpa using h)
    exact Or.inl ⟨_, hget, by simpa using List.findIdx_of_getElem?_eq_some hget⟩
  · push Not at h
    exact Or.inr ⟨by rw [List.findIdx_eq_length_of_false (by simpa using h), m.length_entries], h⟩

theorem getValueForKey_eq (h : Holds Entry.pair m.entries d) (hkey : '\x00' ∉ key)
    (hne : key ≠ []) : m.getValueForKey key = d.lookup key := by
  rcases m.getEntryIndexForKey_cases hkey with ⟨e, he, hek⟩ | ⟨hi, hnone⟩
  · rw [getValueForKey, he, eq_comm]
    exact h.lookup.2 ⟨e, List.mem_of_getElem? he, Entry.pair_some.2 ⟨hne, hek, rfl⟩⟩
  · rw [getValueForKey, hi, List.getElem?_eq_none m.length_entries.le, eq_comm,
      Option.map_none, Finmap.lookup_eq_none, h.mem]
    rintro ⟨e, he, v, hv⟩
    exact hnone e he (Entry.pair_some.1 hv).2.1

/-- The empty key is that of the free entries. -/
theorem getValueForKey_nil (m : NonAllocatingMap keySize valueSize numEntries) :
    m.getValueForKey [] = (m.entries.find? (!·.isActive)).map (·.value.str) := by
  have hfree : (fun e : Entry keySize valueSize => decide (e.key.str = [])) = (!·.isActive) := by
    funext e
    by_cases he : e.key.str = [] <;> simp [he, Entry.isActive_iff, ← Bool.not_eq_true]
  simp only [getValueForKey, getEntryIndexForKey, Buffer.strncmpEq_str List.not_mem_nil, hfree,
    List.find?_eq_getElem?_findIdx]

theorem getCount_eq (h : Holds Entry.pair m.entries d) : m.getCount = d.keys.card := by
  rw [h.card]
  simp only [Entry.isSome_pair]
  rfl

theorem getCount_le (m : NonAllocatingMap keySize valueSize numEntries) :
    m.getCount ≤ numEntries :=
  List.countP_le_length.trans m.length_entries.le

theorem getCount_full (m : NonAllocatingMap keySize valueSize numEntries) :
    m.getCount = numEntries ↔ ∀ e ∈ m.entries, e.key.str ≠ [] := by
  have h : m.getCount = m.entries.length ↔ ∀ e ∈ m.entries, e.key.str ≠ [] := by
    simp only [getCount, List.countP_eq_length, Entry.isActive_iff]
  rwa [m.length_entries] at h

/-- The key of an entry. -/
def keyAt (m : NonAllocatingMap keySize valueSize numEntries) (i : ℕ) : Option Str :=
  m.entries[i]?.map (·.key.str)

theorem keyAt_modify_ne {j : ℕ} (hij : j ≠ i)
    (f : Entry keySize valueSize → Entry keySize valueSize) :
    (m.modify j f).keyAt i = m.keyAt i := by
  simp only [keyAt, modify, List.getElem?_modify_ne f m.entries hij]

theorem keyAt_modify_value (j : ℕ) (b : Buffer valueSize) :
    (m.modify j fun e => { e with value := b }).keyAt i = m.keyAt i := by
  simp only [keyAt, modify, List.getElem?_modify]
  rcases m.entries[i]? with _ | e
  · rfl
  · by_cases hij : j = i <;> simp [hij]

theorem keyAt_eq : m.keyAt i = some key ↔ ∃ e, m.entries[i]? = some e ∧ e.key.str = key := by
  rw [keyAt, Option.map_eq_some_iff]

theorem keyCount_eq (hkey : '\x00' ∉ key) (m : NonAllocatingMap keySize valueSize numEntries) :
    m.keyCount key = m.entries.countP fun e => decide (e.key.str = key) := by
  simp only [keyCount, Buffer.strncmpEq_str hkey]

variable [NeZero keySize] [NeZero valueSize]

theorem holds_removeAtIndex (h : Holds Entry.pair m.entries d) (he : m.entries[i]? = some e) :
    Holds Entry.pair (m.removeAtIndex i).2.entries (d.erase e.key.str) := by
  have hlt := lt_of_getElem? he
  rw [removeAtIndex, if_neg (Nat.not_le.2 hlt)]
  have hclear : Entry.pair (⟨e.key.clear, e.value.clear⟩ : Entry keySize valueSize) = none :=
    Entry.pair_none.2 (Buffer.str_clear _)
  by_cases hk : e.key.str = []
  · have hnot : e.key.str ∉ d := by
      rw [h.mem]
      rintro ⟨e', -, v, hv⟩
      exact (Entry.pair_some.1 hv).1 hk
    rw [erase_of_notMem hnot]
    exact h.same he (hclear.trans (Entry.pair_none.2 hk).symm)
  · exact h.erase he (Entry.pair_some.2 ⟨hk, rfl, rfl⟩) hclear

theorem holds_removeKey (h : Holds Entry.pair m.entries d) (hkey : '\x00' ∉ key) :
    Holds Entry.pair (m.removeKey key).2.entries (d.erase key) := by
  rcases m.getEntryIndexForKey_cases hkey with ⟨e, he, rfl⟩ | ⟨hi, hnone⟩
  · exact holds_removeAtIndex h he
  · have hnot : key ∉ d := by
      rw [h.mem]
      rintro ⟨e, he, v, hv⟩
      exact hnone e he (Entry.pair_some.1 hv).2.1
    rw [erase_of_notMem hnot, removeKey, hi, removeAtIndex, if_pos (Nat.le_refl _)]
    exact h

/-- What storing a value does: it is written to the entry of the key, or the key and the value are
written to a free entry, or there is none. -/
theorem setKeyValue_cases (m : NonAllocatingMap keySize valueSize numEntries) (hkey : '\x00' ∉ key)
    (hne : key ≠ []) (value : Str) :
    (∃ e, m.entries[m.getEntryIndexForKey key]? = some e ∧ e.key.str = key ∧
      m.setKeyValue key (some value) = (m.getEntryIndexForKey key,
        m.modify (m.getEntryIndexForKey key) fun e => { e with value := .copy value })) ∨
    (∃ i e, m.entries[i]? = some e ∧ e.key.str = [] ∧ (∀ e ∈ m.entries, e.key.str ≠ key) ∧
      m.setKeyValue key (some value) = (i, m.modify i fun _ => ⟨.copy key, .copy value⟩)) ∨
    (∀ e ∈ m.entries, e.key.str ≠ key ∧ e.key.str ≠ []) ∧
      m.setKeyValue key (some value) = (numEntries, m) := by
  have hset : m.setKeyValue key (some value) =
      if (m.entryIndex key).1 = numEntries then (numEntries, (m.entryIndex key).2)
      else ((m.entryIndex key).1, (m.entryIndex key).2.modify (m.entryIndex key).1
        fun e => { e with value := .copy value }) := by
    rw [setKeyValue, if_neg hne]
  rcases m.getEntryIndexForKey_cases hkey with ⟨e, he, hek⟩ | ⟨hi, hnone⟩
  · have hlt := lt_of_getElem? he
    have hidx : m.entryIndex key = (m.getEntryIndexForKey key, m) := by
      simp only [entryIndex, if_neg hlt.ne]
    rw [hset, hidx, if_neg hlt.ne]
    exact Or.inl ⟨e, he, hek, rfl⟩
  · have hidx : m.entryIndex key = (m.entries.findIdx (!·.isActive),
        m.modify (m.entries.findIdx (!·.isActive)) fun e => { e with key := .copy key }) := by
      simp only [entryIndex, if_pos hi]
    by_cases hfree : ∃ e ∈ m.entries, (!e.isActive) = true
    · have hget := List.findIdx_getElem?_eq_getElem_of_exists hfree
      have hactive := List.findIdx_of_getElem?_eq_some hget
      rw [Bool.not_eq_true', ← Bool.not_eq_true, Entry.isActive_iff, not_not] at hactive
      rw [hset, hidx, if_neg (lt_of_getElem? hget).ne]
      refine Or.inr (Or.inl ⟨_, _, hget, hactive, hnone, ?_⟩)
      simp only [modify, List.modify_modify_eq]
      rfl
    · push Not at hfree
      have hfull := List.findIdx_eq_length_of_false (p := fun e => !e.isActive)
        fun e he => Bool.eq_false_of_not_eq_true (hfree e he)
      refine Or.inr (Or.inr ⟨fun e he => ⟨hnone e he, ?_⟩, ?_⟩)
      · simpa [Entry.isActive_iff] using hfree e he
      · rw [hset, hidx, hfull, if_pos m.length_entries]
        simp only [modify, List.modify_eq_self (Nat.le_refl _)]

/-- A dictionary of no more than `numEntries` keys, and values that are cut off. -/
def storeKey (valueSize numEntries : ℕ) (d : Finmap fun _ : Str => Str) (key : Str) :
    Option Str → Finmap fun _ : Str => Str
  | none => d.erase key
  | some value =>
    if key = [] ∨ key ∉ d ∧ numEntries ≤ d.keys.card then d
    else d.insert key (value.take (valueSize - 1))

theorem holds_setKeyValue (h : Holds Entry.pair m.entries d) (hkey : '\x00' ∉ key)
    (hlt : key.length < keySize) {value : Option Str} (hvalue : ∀ v ∈ value, '\x00' ∉ v) :
    Holds Entry.pair (m.setKeyValue key value).2.entries
      (storeKey valueSize numEntries d key value) := by
  rcases value with _ | value
  · exact holds_removeKey h hkey
  have hvalue := Buffer.str_copy (n := valueSize) (hvalue value rfl)
  by_cases hne : key = []
  · rwa [setKeyValue, storeKey, if_pos hne, if_pos (Or.inl hne)]
  rcases m.setKeyValue_cases hkey hne value with ⟨e, he, rfl, heq⟩ |
    ⟨i, e, he, hfree, hnone, heq⟩ | ⟨hfull, heq⟩
  · have hmem : e.key.str ∈ d :=
      h.mem.2 ⟨e, List.mem_of_getElem? he, _, Entry.pair_some.2 ⟨hne, rfl, rfl⟩⟩
    rw [heq, storeKey, if_neg (by simp [hne, hmem])]
    exact h.replace he (Entry.pair_some.2 ⟨hne, rfl, rfl⟩) (Entry.pair_some.2 ⟨hne, rfl, hvalue⟩)
  · have hnot : key ∉ d := by
      rw [h.mem]
      rintro ⟨e, he, v, hv⟩
      exact hnone e he (Entry.pair_some.1 hv).2.1
    have hroom : d.keys.card < numEntries := by
      rw [← getCount_eq h]
      exact Nat.lt_of_le_of_ne m.getCount_le fun hall =>
        m.getCount_full.1 hall e (List.mem_of_getElem? he) hfree
    rw [heq, storeKey, if_neg (by simp [hne, hnot, hroom])]
    refine h.insert he (Entry.pair_none.2 hfree) (Entry.pair_some.2 ⟨hne, ?_, hvalue⟩) hnot
    rw [Buffer.str_copy hkey, List.take_of_length_le (by omega)]
  · have hnot : key ∉ d := by
      rw [h.mem]
      rintro ⟨e, he, v, hv⟩
      exact (hfull e he).1 (Entry.pair_some.1 hv).2.1
    have hcard : d.keys.card = numEntries := by
      rw [← getCount_eq h]
      exact m.getCount_full.2 fun e he => (hfull e he).2
    rwa [heq, storeKey, if_pos (Or.inr ⟨hnot, hcard.ge⟩)]

/-! ## Runs -/

/-- A run of `SetKeyValue`. -/
def setAll (m : NonAllocatingMap keySize valueSize numEntries) (ops : List (Str × Option Str)) :
    NonAllocatingMap keySize valueSize numEntries :=
  ops.foldl (fun m op => (m.setKeyValue op.1 op.2).2) m

def storeAll (valueSize numEntries : ℕ) (d : Finmap fun _ : Str => Str)
    (ops : List (Str × Option Str)) : Finmap fun _ : Str => Str :=
  ops.foldl (fun d op => storeKey valueSize numEntries d op.1 op.2) d

theorem holds_new : Holds Entry.pair
    (new : NonAllocatingMap keySize valueSize numEntries).entries ∅ := by
  refine holds_empty fun e he => ?_
  obtain rfl := (List.mem_replicate.1 he).2
  exact Entry.pair_none.2 Buffer.str_zero

theorem holds_setAll (ops : List (Str × Option Str)) (h : Holds Entry.pair m.entries d)
    (hops : ∀ op ∈ ops, '\x00' ∉ op.1 ∧ op.1.length < keySize ∧ ∀ v ∈ op.2, '\x00' ∉ v) :
    Holds Entry.pair (m.setAll ops).entries (storeAll valueSize numEntries d ops) := by
  induction ops generalizing m d with
  | nil => exact h
  | cons op ops ih =>
    rw [List.forall_mem_cons] at hops
    exact ih (holds_setKeyValue h hops.1.1 hops.1.2.1 hops.1.2.2) hops.2

/-- A run with keys that fit the entries is a run of a dictionary. -/
theorem setAll_dictionary (ops : List (Str × Option Str))
    (hops : ∀ op ∈ ops, '\x00' ∉ op.1 ∧ op.1.length < keySize ∧ ∀ v ∈ op.2, '\x00' ∉ v) :
    let m : NonAllocatingMap keySize valueSize numEntries := new.setAll ops
    let d := storeAll valueSize numEntries ∅ ops
    (∀ key, '\x00' ∉ key → key ≠ [] → m.getValueForKey key = d.lookup key) ∧
      m.getCount = d.keys.card ∧
      d.entries = ((m.iterate 0).map Entry.content : List (Sigma fun _ : Str => Str)) := by
  intro m d
  have h : Holds Entry.pair m.entries d := holds_setAll ops holds_new hops
  refine ⟨fun key hkey hne => getValueForKey_eq h hkey hne, getCount_eq h, h.trans ?_⟩
  rw [iterate_eq, List.drop_zero, ← List.filterMap_eq_map, List.filterMap_filter]
  congr 2
  funext e
  by_cases hactive : e.isActive
  · rw [if_pos hactive, Entry.pair, if_neg (Entry.isActive_iff.1 hactive)]
    rfl
  · rw [if_neg hactive, Entry.pair_none]
    exact not_not.1 (Entry.isActive_iff.not.1 hactive)

/-- Two entries, a value that is cut off, and a key without room. -/
theorem setAll_dictionary_two :
    let ops := [("ab".toList, some "xyzw".toList), ("c".toList, some "1".toList),
      ("d".toList, some "2".toList), ("ab".toList, none)]
    let m : NonAllocatingMap 4 4 2 := new.setAll ops
    let d := storeAll 4 2 ∅ ops
    (∀ key, '\x00' ∉ key → key ≠ [] → m.getValueForKey key = d.lookup key) ∧
      m.getCount = d.keys.card ∧
      d.entries = ((m.iterate 0).map Entry.content : List (Sigma fun _ : Str => Str)) :=
  setAll_dictionary _ (by decide)

/-! ## Indices -/

/-- An operation with C strings whose key, if it has one, fits an entry. -/
def Op.Fits (keySize : ℕ) : Op → Prop
  | .setKeyValue key value => '\x00' ∉ key ∧ key.length < keySize ∧ ∀ v ∈ value, '\x00' ∉ v
  | .setValueAtIndex _ value => '\x00' ∉ value
  | .removeKey key => '\x00' ∉ key
  | .removeAtIndex _ => True

/-- An operation that does not remove a key, nor what is at its index. -/
def Op.Keeps (key : Str) (index : ℕ) : Op → Prop
  | .setKeyValue key' value => value = none → '\x00' ∉ key' ∧ key' ≠ key
  | .setValueAtIndex .. => True
  | .removeKey key' => '\x00' ∉ key' ∧ key' ≠ key
  | .removeAtIndex index' => index' ≠ index

theorem Op.Fits.holds {op : Op} (hop : op.Fits keySize) (h : Holds Entry.pair m.entries d) :
    ∃ d', Holds Entry.pair (op.apply m).entries d' := by
  cases op with
  | setKeyValue key value => exact ⟨_, holds_setKeyValue h hop.1 hop.2.1 hop.2.2⟩
  | setValueAtIndex index value =>
    simp only [Op.apply, NonAllocatingMap.setValueAtIndex]
    split
    · exact ⟨d, h⟩
    · next hlt =>
      obtain ⟨e, he⟩ : ∃ e, m.entries[index]? = some e :=
        ⟨_, List.getElem?_eq_getElem (by rw [m.length_entries]; omega)⟩
      by_cases hk : e.key.str = []
      · exact ⟨d, h.same he (by rw [Entry.pair_none.2 hk, Entry.pair_none]; exact hk)⟩
      · exact ⟨_, h.replace he (Entry.pair_some.2 ⟨hk, rfl, rfl⟩)
          (Entry.pair_some.2 ⟨hk, rfl, rfl⟩)⟩
  | removeKey key => exact ⟨_, holds_removeKey h hop⟩
  | removeAtIndex index =>
    rcases Nat.lt_or_ge index numEntries with hlt | hge
    · exact ⟨_, holds_removeAtIndex h
        (List.getElem?_eq_getElem (by rw [m.length_entries]; exact hlt))⟩
    · refine ⟨d, ?_⟩
      rwa [Op.apply, NonAllocatingMap.removeAtIndex, if_pos hge]

theorem holds_run {ops : List Op} (hops : ∀ op ∈ ops, op.Fits keySize)
    (h : Holds Entry.pair m.entries d) :
    ∃ d', Holds Entry.pair (ops.foldl Op.apply m).entries d' := by
  induction ops generalizing m d with
  | nil => exact ⟨d, h⟩
  | cons op ops ih =>
    rw [List.forall_mem_cons] at hops
    obtain ⟨d', hd'⟩ := hops.1.holds h
    exact ih hops.2 hd'

theorem holds_reached (valueSize numEntries : ℕ) [NeZero valueSize] {ops : List Op}
    (hops : ∀ op ∈ ops, op.Fits keySize) :
    ∃ d, Holds Entry.pair
      (ops.foldl Op.apply (new : NonAllocatingMap keySize valueSize numEntries)).entries d :=
  holds_run hops holds_new

theorem keyAt_removeAtIndex {j : ℕ} (hij : j ≠ i) : (m.removeAtIndex j).2.keyAt i = m.keyAt i := by
  unfold removeAtIndex
  split
  · rfl
  · exact keyAt_modify_ne hij _

theorem keyAt_removeKey {key' : Str} (hkey' : '\x00' ∉ key') (hne : key' ≠ key)
    (h : m.keyAt i = some key) : (m.removeKey key').2.keyAt i = some key := by
  rw [removeKey, keyAt_removeAtIndex, h]
  rintro rfl
  rcases m.getEntryIndexForKey_cases hkey' with ⟨e, he, hek⟩ | ⟨hi, -⟩
  · rw [keyAt, he] at h
    exact hne (hek.symm.trans (Option.some.inj h))
  · rw [keyAt, hi, List.getElem?_eq_none m.length_entries.le] at h
    cases h

theorem Op.Keeps.keyAt {op : Op} (hop : op.Fits keySize) (hkeeps : op.Keeps key i) (hne : key ≠ [])
    (h : m.keyAt i = some key) : (op.apply m).keyAt i = some key := by
  cases op with
  | setKeyValue key' value =>
    rcases value with _ | value
    · exact keyAt_removeKey (hkeeps rfl).1 (hkeeps rfl).2 h
    by_cases hne' : key' = []
    · rwa [Op.apply, NonAllocatingMap.setKeyValue, if_pos hne']
    rw [Op.apply]
    rcases m.setKeyValue_cases hop.1 hne' value with ⟨e, he, hek, heq⟩ |
      ⟨j, e, he, hfree, hnone, heq⟩ | ⟨hfull, heq⟩
    · rw [heq, keyAt_modify_value, h]
    · rw [heq, keyAt_modify_ne, h]
      rintro rfl
      rw [NonAllocatingMap.keyAt, he] at h
      exact hne ((Option.some.inj h).symm.trans hfree)
    · rwa [heq]
  | setValueAtIndex index value =>
    rw [Op.apply, NonAllocatingMap.setValueAtIndex]
    split
    · exact h
    · rw [keyAt_modify_value, h]
  | removeKey key' => exact keyAt_removeKey hkeeps.1 hkeeps.2 h
  | removeAtIndex index => rw [Op.apply, keyAt_removeAtIndex hkeeps, h]

theorem keyAt_run {ops : List Op} (hops : ∀ op ∈ ops, op.Fits keySize)
    (hkeeps : ∀ op ∈ ops, op.Keeps key i) (hne : key ≠ []) (h : m.keyAt i = some key) :
    (ops.foldl Op.apply m).keyAt i = some key := by
  induction ops generalizing m with
  | nil => exact h
  | cons op ops ih =>
    rw [List.forall_mem_cons] at hops hkeeps
    exact ih hops.2 hkeeps.2 (hkeeps.1.keyAt hops.1 hne h)

/-- Storing a value under a key that an entry has. -/
theorem setKeyValue_of_keyAt (h : Holds Entry.pair m.entries d) (hkey : '\x00' ∉ key)
    (hne : key ≠ []) (hi : m.keyAt i = some key) (value : Str) :
    m.setKeyValue key (some value) = (i, m.setValueAtIndex i value) := by
  obtain ⟨e, he, hek⟩ := keyAt_eq.1 hi
  rcases m.setKeyValue_cases hkey hne value with ⟨e', he', hek', heq⟩ |
    ⟨_, _, _, _, hnone, _⟩ | ⟨hfull, _⟩
  · have hij : i = m.getEntryIndexForKey key := h.index_unique he he'
      (Entry.pair_some.2 ⟨hne, hek, rfl⟩) (Entry.pair_some.2 ⟨hne, hek', rfl⟩)
    rw [heq, ← hij, setValueAtIndex, if_neg (Nat.not_le.2 (lt_of_getElem? he))]
  · exact absurd hek (hnone e (List.mem_of_getElem? he))
  · exact absurd hek (hfull e (List.mem_of_getElem? he)).1

/-- The entry whose index is returned has the key and the value. -/
theorem setKeyValue_entry (hkey : '\x00' ∉ key) (hlt : key.length < keySize) (hne : key ≠ [])
    (hset : m.setKeyValue key (some value) = (index, m')) (hindex : index ≠ numEntries) :
    ∃ e, m'.entries[index]? = some e ∧ e.key.str = key ∧ e.value = .copy value := by
  rcases m.setKeyValue_cases hkey hne value with ⟨e, he, hek, heq⟩ |
    ⟨j, e, he, hfree, hnone, heq⟩ | ⟨hfull, heq⟩
  · obtain ⟨rfl, rfl⟩ := Prod.mk.inj (hset.symm.trans heq)
    exact ⟨{ e with value := .copy value }, by simp [modify, he], hek, rfl⟩
  · obtain ⟨rfl, rfl⟩ := Prod.mk.inj (hset.symm.trans heq)
    refine ⟨⟨.copy key, .copy value⟩, by simp [modify, he], ?_, rfl⟩
    rw [Buffer.str_copy hkey, List.take_of_length_le (by omega)]
  · exact absurd (Prod.mk.inj (hset.symm.trans heq)).1 hindex

/-- The index that a key is stored at is good until the key is removed. -/
theorem setValueAtIndex_run {ops ops' : List Op} (hops : ∀ op ∈ ops, op.Fits keySize)
    (hkey : '\x00' ∉ key) (hlt : key.length < keySize) (hne : key ≠ []) (hvalue : '\x00' ∉ value)
    (hset : (ops.foldl Op.apply new).setKeyValue key (some value) = (index, m'))
    (hindex : index ≠ numEntries) (hops' : ∀ op ∈ ops', op.Fits keySize)
    (hkeeps : ∀ op ∈ ops', op.Keeps key index) (value' : Str) :
    (ops'.foldl Op.apply m').setKeyValue key (some value') =
      (index, (ops'.foldl Op.apply m').setValueAtIndex index value') := by
  obtain ⟨d, hd⟩ := holds_reached valueSize numEntries hops
  have hd' := holds_setKeyValue hd hkey hlt
    (show ∀ v ∈ some value, '\x00' ∉ v by simpa using hvalue)
  rw [hset] at hd'
  obtain ⟨d'', hd''⟩ := holds_run hops' hd'
  obtain ⟨e, he, hek, -⟩ := setKeyValue_entry hkey hlt hne hset hindex
  exact setKeyValue_of_keyAt hd'' hkey hne
    (keyAt_run hops' hkeeps hne (keyAt_eq.2 ⟨e, he, hek⟩)) value'

/-! ## Keys that do not fit -/

omit [NeZero keySize] [NeZero valueSize] in
/-- The first entry that has a key is the one it is looked up in. -/
theorem getValueForKey_of_first (hkey : '\x00' ∉ key) (he : m.entries[i]? = some e)
    (hek : e.key.str = key) (hfirst : ∀ j < i, m.keyAt j ≠ some key) :
    m.getValueForKey key = some e.value.str := by
  obtain ⟨hi, rfl⟩ := List.getElem?_eq_some_iff.1 he
  have hindex : m.getEntryIndexForKey key = i := by
    simp only [getEntryIndexForKey, Buffer.strncmpEq_str hkey]
    rw [List.findIdx_eq hi]
    refine ⟨decide_eq_true hek, fun j hj => decide_eq_false fun hjk => hfirst j hj ?_⟩
    rw [keyAt, List.getElem?_eq_getElem (hj.trans hi), Option.map_some, hjk]
  rw [getValueForKey, hindex, he, Option.map_some]

omit [NeZero keySize] [NeZero valueSize] in
theorem keyAt_ne_of_lt (hkey : '\x00' ∉ key) (h : i < m.getEntryIndexForKey key) :
    m.keyAt i ≠ some key := by
  simp only [getEntryIndexForKey, Buffer.strncmpEq_str hkey] at h
  intro hk
  obtain ⟨e, he, hek⟩ := keyAt_eq.1 hk
  obtain ⟨hi, rfl⟩ := List.getElem?_eq_some_iff.1 he
  exact of_decide_eq_false (List.not_of_lt_findIdx h) hek

/-- A key that fits is found again, and is there as often as before, or once. -/
theorem setKeyValue_fits (hkey : '\x00' ∉ key) (hlt : key.length < keySize) (hne : key ≠ [])
    (hvalue : '\x00' ∉ value) (hset : m.setKeyValue key (some value) = (index, m'))
    (hindex : index ≠ numEntries) :
    m'.getValueForKey key = some (value.take (valueSize - 1)) ∧
      m'.keyCount key = max (m.keyCount key) 1 := by
  rw [keyCount_eq hkey, keyCount_eq hkey]
  rcases m.setKeyValue_cases hkey hne value with ⟨e, he, hek, heq⟩ |
    ⟨i, e, he, hfree, hnone, heq⟩ | ⟨hfull, heq⟩
  · obtain ⟨rfl, rfl⟩ := Prod.mk.inj (hset.symm.trans heq)
    constructor
    · have he' : (m.modify (m.getEntryIndexForKey key)
          fun e => { e with value := .copy value }).entries[m.getEntryIndexForKey key]?
          = some { e with value := .copy value } := by simp [modify, he]
      rw [getValueForKey_of_first hkey he' hek fun j hj => ?_, Buffer.str_copy hvalue]
      rw [keyAt_modify_value]
      exact keyAt_ne_of_lt hkey hj
    · have hcount := countP_modify he (fun e => decide (e.key.str = key))
        fun e => { e with value := .copy value }
      have hpos : 0 < m.entries.countP fun e => decide (e.key.str = key) :=
        List.countP_pos_iff.2 ⟨e, List.mem_of_getElem? he, decide_eq_true hek⟩
      simp only [hek, decide_true, if_true] at hcount
      simp only [modify]
      omega
  · obtain ⟨rfl, rfl⟩ := Prod.mk.inj (hset.symm.trans heq)
    have hstr : (Buffer.copy key : Buffer keySize).str = key := by
      rw [Buffer.str_copy hkey, List.take_of_length_le (by omega)]
    constructor
    · have he' : (m.modify index fun _ => ⟨.copy key, .copy value⟩).entries[index]?
          = some ⟨.copy key, .copy value⟩ := by simp [modify, he]
      rw [getValueForKey_of_first hkey he' hstr fun j hj => ?_, Buffer.str_copy hvalue]
      rw [keyAt_modify_ne (Nat.ne_of_gt hj)]
      intro hk
      obtain ⟨e, he, hek⟩ := keyAt_eq.1 hk
      exact hnone e (List.mem_of_getElem? he) hek
    · have hcount := countP_modify he (fun e => decide (e.key.str = key))
        fun _ => ⟨.copy key, .copy value⟩
      have hzero : m.entries.countP (fun e => decide (e.key.str = key)) = 0 :=
        List.countP_eq_zero.2 (by simpa using hnone)
      have hek := hnone e (List.mem_of_getElem? he)
      simp only [hek, hstr, decide_false, decide_true, if_true, hzero, Bool.false_eq_true, if_false]
        at hcount
      simp only [modify]
      omega
  · exact absurd (Prod.mk.inj (hset.symm.trans heq)).1 hindex

omit [NeZero keySize] [NeZero valueSize] in
/-- One that does not is in no entry. -/
theorem key_of_not_fits (hle : keySize ≤ key.length) (hkey : '\x00' ∉ key) :
    m.getValueForKey key = none ∧ m.keyCount key = 0 := by
  have hnone : ∀ e ∈ m.entries, e.key.str ≠ key := fun e _ h =>
    absurd (h ▸ e.key.length_str) (Nat.not_lt.2 hle)
  constructor
  · rcases m.getEntryIndexForKey_cases hkey with ⟨e, he, hek⟩ | ⟨hi, -⟩
    · exact absurd hek (hnone e (List.mem_of_getElem? he))
    · rw [getValueForKey, hi, List.getElem?_eq_none m.length_entries.le, Option.map_none]
  · rw [keyCount_eq hkey, List.countP_eq_zero.2 (by simpa using hnone)]

/-- After any operations, a key that is stored is found again just if it fits, and passes the check
that it is there once just if it also was not there twice before. It was not if the keys that were
stored all fit. -/
theorem setKeyValue_fits_iff (ops : List Op) (hkey : '\x00' ∉ key) (hne : key ≠ [])
    (hvalue : '\x00' ∉ value)
    (hset : (ops.foldl Op.apply new).setKeyValue key (some value) = (index, m'))
    (hindex : index ≠ numEntries) :
    (m'.getValueForKey key = some (value.take (valueSize - 1)) ↔ key.length < keySize) ∧
      (m'.keyCount key = 1 ↔ key.length < keySize ∧ keyCount (ops.foldl Op.apply
        (new : NonAllocatingMap keySize valueSize numEntries)) key ≤ 1) ∧
      ((∀ op ∈ ops, op.Fits keySize) → keyCount (ops.foldl Op.apply
        (new : NonAllocatingMap keySize valueSize numEntries)) key ≤ 1) := by
  refine ⟨?_, ?_, fun hops => ?_⟩
  · by_cases hlt : key.length < keySize
    · exact iff_of_true (setKeyValue_fits hkey hlt hne hvalue hset hindex).1 hlt
    · have hnone := (key_of_not_fits (m := m') (Nat.not_lt.1 hlt) hkey).1
      exact iff_of_false (by rw [hnone]; exact Option.some_ne_none _ |>.symm) hlt
  · by_cases hlt : key.length < keySize
    · have hcount := (setKeyValue_fits hkey hlt hne hvalue hset hindex).2
      rw [hcount, and_iff_right hlt]
      omega
    · have hzero := (key_of_not_fits (m := m') (Nat.not_lt.1 hlt) hkey).2
      exact iff_of_false (by rw [hzero]; exact Nat.zero_ne_one) fun h => hlt h.1
  · obtain ⟨d, hd⟩ := holds_reached valueSize numEntries hops
    rw [keyCount_eq hkey]
    exact hd.countP_le (k := key) fun e => by simp [Entry.pair_some, hne]

/-- A key of one character too many is stored twice, and then what is left of it. -/
theorem setKeyValue_fits_iff_long :
    let ops := [.setKeyValue "abcd".toList (some "1".toList),
      .setKeyValue "abcd".toList (some "2".toList)]
    let m : NonAllocatingMap 4 4 2 := ops.foldl Op.apply new
    let m' := (m.setKeyValue "abc".toList (some "3".toList)).2
    (m'.getValueForKey "abc".toList = some ("3".toList.take (4 - 1)) ↔
        "abc".toList.length < 4) ∧
      (m'.keyCount "abc".toList = 1 ↔ "abc".toList.length < 4 ∧ m.keyCount "abc".toList ≤ 1) ∧
      ((∀ op ∈ ops, op.Fits 4) → m.keyCount "abc".toList ≤ 1) :=
  setKeyValue_fits_iff _ (by decide) (by decide) (by decide) rfl (by decide)

end NonAllocatingMap

end Xrash
