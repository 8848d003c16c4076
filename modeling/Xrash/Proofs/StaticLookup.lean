import Xrash.Proofs.StaticMap
import Xrash.Proofs.ContainedRangeMapRun
import Mathlib.Data.Option.Basic

/-!
# Looking up serialized maps

A static map over a block that was written for a map finds what the map finds, wherever the block is
in memory, and reads nothing outside that memory.
-/

namespace Xrash

open KeyList

/-- The static map reads its memory only, and its answer is related to that of the map. -/
def Agrees {α β : Type*} (R : α → β → Prop) (x : Option (Option α)) (y : Option β) : Prop :=
  ∃ z, x = some z ∧ Option.Rel R z y

theorem Agrees.imp {α β : Type*} {R R' : α → β → Prop} {x : Option (Option α)} {y : Option β}
    (hxy : Agrees R x y) (hR : ∀ a b, y = some b → R a b → R' a b) : Agrees R' x y := by
  obtain ⟨z, hz, hrel⟩ := hxy
  refine ⟨z, hz, ?_⟩
  cases hrel with
  | some hab => exact .some (hR _ _ rfl hab)
  | none => exact .none

/-! ## Maps -/

section Map

variable {κ : Type} {ε : Type*} {h : Abi κ} {s : SimpleSerializer ε} {mem : List UInt8} {pos : ℕ}

theorem holds_entries (f : ε → List UInt8) {l : List (κ × ε)}
    (hat : At mem pos (h.writeMap (l.map fun e => (e.1, f e.2))))
    (hlen : (h.writeMap (l.map fun e => (e.1, f e.2))).length < 2 ^ 32) :
    ∃ m, StaticMap.ofRaw h mem pos = some m ∧ m.mem = mem
      ∧ m.Holds h (l.map fun e => (e.1, f e.2)) := by
  obtain ⟨m, hraw, hmem, -, hm⟩ := StaticMap.holds_writeMap hat hlen
  exact ⟨m, hraw, hmem, hm⟩

theorem getElem?_node (f : ε → List UInt8) {l : List (κ × ε)} {i : ℕ} {e : κ × ε}
    (he : l[i]? = some e) : (l.map fun e => (e.1, f e.2))[i]? = some (e.1, f e.2) := by
  rw [List.getElem?_map, he]
  rfl

variable [LinearOrder κ]

section Nodes

variable (f : ε → List UInt8) {m : StaticMap} {sm : SortedMap κ ε}
  (hm : m.Holds h (sm.entries.map fun e => (e.1, f e.2)))

include hm

theorem numNodes_holds : m.numNodes = sm.entries.length := by rw [hm.numNodes, List.length_map]

theorem node_holds {i : ℕ} {e : κ × ε} (he : sm.entries[i]? = some e) :
    m.getKey h i = some e.1 ∧ ∃ p, m.getValuePtr h i = some p ∧ At m.mem p (f e.2) := by
  exact ⟨hm.getKey (getElem?_node f he), hm.getValuePtr (getElem?_node f he)⟩

/-- The iterator before the upper bound is in the map. -/
theorem decrement_holds (a : κ) (hne : sm.upperBound a ≠ 0) :
    m.decrement (sm.upperBound a) = ((sm.upperBound a - 1 : ℕ) : ℤ)
      ∧ ∃ e, sm.entries[sm.upperBound a - 1]? = some e := by
  have hle : sm.upperBound a ≤ sm.entries.length := upperBound_le_length
  have hn := numNodes_holds f hm
  have hlt : sm.upperBound a - 1 < sm.entries.length := by omega
  have hvalid : m.IsValid (sm.upperBound a) := by
    unfold StaticMap.IsValid
    omega
  refine ⟨?_, sm.entries[sm.upperBound a - 1], List.getElem?_eq_getElem hlt⟩
  unfold StaticMap.decrement
  rw [if_neg (not_not.2 hvalid), if_neg (by omega)]
  omega

variable [Zero κ]

theorem bounds_holds (a : κ) : m.find h a = some (sm.find a : ℤ)
    ∧ m.lowerBound h a = some (sm.lowerBound a : ℤ)
    ∧ m.upperBound h a = some (sm.upperBound a : ℤ) := by
  obtain ⟨hlower, hupper, hfind⟩ := bounds_map f sm.entries a
  rw [hm.find sm.sorted.map, hm.lowerBound sm.sorted.map, hm.upperBound sm.sorted.map, hlower,
    hupper, hfind]
  exact ⟨rfl, rfl, rfl⟩

end Nodes

variable [Zero κ]

/-- The validation accepts a serialized map exactly when no value before the last takes no bytes. -/
theorem stdMap_validate (sm : SortedMap κ ε) (hat : At mem pos (h.stdMapWrite s sm))
    (hlen : (h.stdMapWrite s sm).length < 2 ^ 32) :
    ∃ m, StaticMap.ofRaw h mem pos = some m ∧ m.validateInMemoryStructure h
      = some (sm.entries.dropLast.all fun e => !(s.write e.2).isEmpty) := by
  obtain ⟨m, hraw, rfl, hm⟩ := holds_entries s.write hat hlen
  refine ⟨m, hraw, ?_⟩
  rw [hm.validate sm.sorted.map, ← List.map_dropLast, List.all_map]
  rfl

/-- A null pointer before another one has the same offset as that one. -/
theorem stdMap_validate_two :
    ∃ m, StaticMap.ofRaw (.littleEndian 8) ((Abi.littleEndian 8).stdMapWrite
        (SimpleSerializer.linkedPtr .bool)
        ((SortedMap.empty.insert 7 (some true)).insert 3 none)) 0 = some m
      ∧ m.validateInMemoryStructure (.littleEndian 8) = some false :=
  stdMap_validate ((SortedMap.empty.insert 7 (some true)).insert 3 none) (At.self _) (by decide)

end Map

variable {w : ℕ} {ε : Type*} {h : Abi (BitVec w)} {s : SimpleSerializer ε} {mem : List UInt8}
  {pos : ℕ}

/-! ## Address maps -/

/-- What is found is where the entry is, and the address it was stored at. -/
def StaticAddressMap.Reads (s : SimpleSerializer ε) (mem : List UInt8) (x : ℕ × BitVec w)
    (y : ε × BitVec w) : Prop := At mem x.1 (s.write y.1) ∧ x.2 = y.2

theorem StaticAddressMap.retrieve_holds {m : StaticMap} {am : AddressMap w ε}
    (hm : m.Holds h (am.map.entries.map fun e => (e.1, s.write e.2))) (a : BitVec w) :
    Agrees (StaticAddressMap.Reads s m.mem) (m.retrieve h a) (am.retrieve a) := by
  obtain ⟨-, -, hupper⟩ := bounds_holds s.write hm a
  unfold StaticMap.retrieve AddressMap.retrieve
  rw [hupper]
  by_cases h0 : am.map.upperBound a = 0
  · rw [if_pos h0, h0]
    exact ⟨none, rfl, .none⟩
  · obtain ⟨hdec, e, he⟩ := decrement_holds s.write hm a h0
    obtain ⟨hkey, p, hp, hat⟩ := node_holds s.write hm he
    rw [if_neg h0, he]
    simp only [Option.bind_eq_bind, Option.bind_some, hdec, hkey, hp]
    rw [if_neg (by omega)]
    exact ⟨some (p, e.1), rfl, .some ⟨hat, rfl⟩⟩

theorem addressMap_lookup (am : AddressMap w ε) (hat : At mem pos (h.addressMapWrite s am))
    (hlen : (h.addressMapWrite s am).length < 2 ^ 32) :
    ∃ m, StaticMap.ofRaw h mem pos = some m
      ∧ ∀ a, Agrees (StaticAddressMap.Reads s mem) (m.retrieve h a) (am.retrieve a) := by
  obtain ⟨m, hraw, rfl, hm⟩ := holds_entries s.write hat hlen
  exact ⟨m, hraw, StaticAddressMap.retrieve_holds hm⟩

/-! ## Range maps -/

namespace StaticRangeMap

/-- What is found is where the entry is, and the base and size of its range. -/
def Reads (s : SimpleSerializer ε) (mem : List UInt8) (x : StaticRetrieved w) (y : Retrieved w ε) :
    Prop := At mem x.entry (s.write y.entry) ∧ x.base = y.base ∧ x.size = y.size

/-- The bytes of a range. -/
def bytes (h : Abi (BitVec w)) (s : SimpleSerializer ε) (r : Range w ε) : List UInt8 :=
  h.key.write r.base ++ s.write r.entry

section

variable {m : StaticMap} {rm : RangeMap w ε}
  (hm : m.Holds h (rm.map.entries.map fun e => (e.1, bytes h s e.2)))

include hm

theorem retrieved_holds {i : ℕ} {e : BitVec w × Range w ε} (he : rm.map.entries[i]? = some e) :
    ∃ p x, m.getValuePtr h i = some p ∧ h.key.readAt m.mem p = some e.2.base
      ∧ StaticRangeMap.retrieved h m i = some x ∧ Reads s m.mem x (Xrash.retrieved e) := by
  obtain ⟨hkey, p, hp, hat⟩ := node_holds (bytes h s) hm he
  have hbase := h.key.readAt_of_at hat.left
  have hentry := hat.right
  rw [MemRepr.length_write] at hentry
  refine ⟨p, ⟨p + h.key.size, e.2.base, e.1 - e.2.base + 1⟩, hp, hbase, ?_, hentry, rfl, rfl⟩
  unfold StaticRangeMap.retrieved
  rw [hp, hkey]
  simp only [Option.bind_eq_bind, Option.bind_some, hbase]
  rfl

theorem retrieveRange_holds (a : BitVec w) :
    Agrees (Reads s m.mem) (retrieveRange h m a) (rm.retrieveRange a) := by
  have hn := numNodes_holds (bytes h s) hm
  obtain ⟨-, hlower, -⟩ := bounds_holds (bytes h s) hm a
  unfold retrieveRange RangeMap.retrieveRange
  rw [hlower]
  rcases he : rm.map.entries[rm.map.lowerBound a]? with _ | e
  · have hlen : rm.map.lowerBound a = rm.map.entries.length :=
      le_antisymm lowerBound_le_length (List.getElem?_eq_none_iff.1 he)
    simp only [Option.bind_eq_bind, Option.bind_some, hlen, hn, if_true]
    exact ⟨none, rfl, .none⟩
  · have hlt := (List.getElem?_eq_some_iff.1 he).1
    obtain ⟨p, x, hp, hbase, hx, hreads⟩ := retrieved_holds hm he
    simp only [Option.bind_eq_bind, Option.bind_some, hp, hbase, hx]
    rw [if_neg (by omega)]
    by_cases ha : a < e.2.base
    · rw [if_pos ha, if_pos ha]
      exact ⟨none, rfl, .none⟩
    · rw [if_neg ha, if_neg ha]
      exact ⟨some x, rfl, .some hreads⟩

theorem retrieveNearestRange_holds (a : BitVec w) :
    Agrees (Reads s m.mem) (retrieveNearestRange h m a) (rm.retrieveNearestRange a) := by
  obtain ⟨-, -, hupper⟩ := bounds_holds (bytes h s) hm a
  obtain ⟨z, hz, hrel⟩ := retrieveRange_holds hm a
  unfold retrieveNearestRange RangeMap.retrieveNearestRange
  rw [hz]
  generalize rm.retrieveRange a = y at hrel ⊢
  cases hrel with
  | some hreads => exact ⟨some _, rfl, .some hreads⟩
  | none =>
    simp only [Option.bind_eq_bind, Option.bind_some, hupper]
    by_cases h0 : rm.map.upperBound a = 0
    · rw [if_pos h0, if_pos (by omega)]
      exact ⟨none, rfl, .none⟩
    · obtain ⟨hdec, e, he⟩ := decrement_holds (bytes h s) hm a h0
      obtain ⟨p, x, hp, hbase, hx, hreads⟩ := retrieved_holds hm he
      rw [if_neg h0, if_neg (by omega), hdec, hx, he]
      exact ⟨some x, rfl, .some hreads⟩

/-- The tests of an index agree, so an index below the number of ranges leads to its range. -/
theorem retrieveRangeAtIndex_holds {i : ℤ} (hi : 0 ≤ i) :
    ∃ y, rm.retrieveRangeAtIndex i = some y
      ∧ Agrees (Reads s m.mem) (retrieveRangeAtIndex h m i) y := by
  have hn := numNodes_holds (bytes h s) hm
  obtain ⟨n, rfl⟩ := Int.eq_ofNat_of_zero_le hi
  unfold retrieveRangeAtIndex RangeMap.retrieveRangeAtIndex RangeMap.getCount SortedMap.size
  rw [hn, Int.toNat_natCast]
  by_cases hle : rm.map.entries.length ≤ n
  · rw [if_pos (by omega), if_pos (by omega)]
    exact ⟨none, rfl, none, rfl, .none⟩
  · have hlt : n < rm.map.entries.length := by omega
    obtain ⟨p, x, hp, hbase, hx, hreads⟩ := retrieved_holds hm (List.getElem?_eq_getElem hlt)
    rw [if_neg (by omega), if_neg (by omega), hx, List.getElem?_eq_getElem hlt]
    exact ⟨_, rfl, some x, rfl, .some hreads⟩

/-- An index below zero passes the test of both, and there is no iterator at it. -/
theorem retrieveRangeAtIndex_neg {i : ℤ} (hi : i < 0) : retrieveRangeAtIndex h m i = none
    ∧ rm.retrieveRangeAtIndex i = rm.map.entries.head?.map fun e => some (Xrash.retrieved e) := by
  have hn := numNodes_holds (bytes h s) hm
  have hvalid : ¬ m.IsValid i := fun hi' => not_le.2 hi hi'.1
  constructor
  · unfold retrieveRangeAtIndex StaticRangeMap.retrieved StaticMap.getValuePtr
    rw [if_neg (by omega), if_pos hvalid]
    rfl
  · unfold RangeMap.retrieveRangeAtIndex RangeMap.getCount
    rw [if_neg (by omega), Int.toNat_of_nonpos hi.le, List.head?_eq_getElem?]

end

/-- The three look-ups of a static range map over a serialized range map. For an index below zero
the range map gives its first range, and the static one reads through a null pointer. -/
theorem rangeMap_lookup (rm : RangeMap w ε) (hat : At mem pos (h.rangeMapWrite s rm))
    (hlen : (h.rangeMapWrite s rm).length < 2 ^ 32) :
    ∃ m, StaticMap.ofRaw h mem pos = some m
      ∧ (∀ a, Agrees (Reads s mem) (retrieveRange h m a) (rm.retrieveRange a))
      ∧ (∀ a, Agrees (Reads s mem) (retrieveNearestRange h m a) (rm.retrieveNearestRange a))
      ∧ (∀ i ≥ 0, ∃ y, rm.retrieveRangeAtIndex i = some y
        ∧ Agrees (Reads s mem) (retrieveRangeAtIndex h m i) y)
      ∧ ∀ i < 0, retrieveRangeAtIndex h m i = none ∧ rm.retrieveRangeAtIndex i
        = rm.map.entries.head?.map fun e => some (Xrash.retrieved e) := by
  obtain ⟨m, hraw, rfl, hm⟩ := holds_entries (bytes h s) hat hlen
  exact ⟨m, hraw, retrieveRange_holds hm, retrieveNearestRange_holds hm,
    fun i hi => retrieveRangeAtIndex_holds hm hi, fun i hi => retrieveRangeAtIndex_neg hm hi⟩

/-- Two ranges, with a gap between them. -/
def twoRanges : RangeMap 64 Bool := ⟨.exclusiveRanges,
  (SortedMap.empty.insert 19 ⟨10, 0, true⟩).insert 34 ⟨30, 0, false⟩⟩

theorem rangeMap_lookup_two :
    ∃ m, StaticMap.ofRaw (.littleEndian 8) ((Abi.littleEndian 8).rangeMapWrite .bool twoRanges) 0
        = some m
      ∧ (∀ a, Agrees (Reads .bool ((Abi.littleEndian 8).rangeMapWrite .bool twoRanges))
        (retrieveRange (.littleEndian 8) m a) (twoRanges.retrieveRange a))
      ∧ (∀ a, Agrees (Reads .bool ((Abi.littleEndian 8).rangeMapWrite .bool twoRanges))
        (retrieveNearestRange (.littleEndian 8) m a) (twoRanges.retrieveNearestRange a))
      ∧ (∀ i ≥ 0, ∃ y, twoRanges.retrieveRangeAtIndex i = some y
        ∧ Agrees (Reads .bool ((Abi.littleEndian 8).rangeMapWrite .bool twoRanges))
          (retrieveRangeAtIndex (.littleEndian 8) m i) y)
      ∧ ∀ i < 0, retrieveRangeAtIndex (.littleEndian 8) m i = none
        ∧ twoRanges.retrieveRangeAtIndex i = some (some ⟨true, 10, 0, 10⟩) :=
  rangeMap_lookup twoRanges (At.self _) (by decide)

end StaticRangeMap

/-! ## Contained range maps -/

namespace StaticContainedRangeMap

/-- What is found is where the entry is, or null when it takes no bytes. -/
def Reads (s : SimpleSerializer ε) (mem : List UInt8) (x : Option ℕ) (y : ε) : Prop :=
  if s.write y = [] then x = none else ∃ p, x = some p ∧ At mem p (s.write y)

/-- A node of less than 4 GiB is read as it was written. -/
theorem ofRaw_write {b : BitVec w} {x : ε} {l : List (BitVec w × ContainedRangeMap w ε)}
    (hat : At mem pos (h.containedWrite s (.mk b x l)))
    (hlen : (h.containedWrite s (.mk b x l)).length < 2 ^ 32) :
    ∃ c : StaticContainedRangeMap w, ofRaw h mem pos = some c ∧ c.base = b
      ∧ Reads s mem c.entryPtr x ∧ c.map.mem = mem
      ∧ c.map.Holds h (l.map fun e => (e.1, h.containedWrite s e.2)) := by
  rw [h.containedWrite_mk] at hat hlen
  simp only [List.length_append, MemRepr.length_write] at hlen
  have hentry := hat.right.right
  have hsize : s.sizeOf x = (s.write x).length := s.sizeOf_eq x (by omega)
  have hnat : (BitVec.ofNat 32 (s.sizeOf x)).toNat = s.sizeOf x := by
    rw [BitVec.toNat_ofNat, Nat.mod_eq_of_lt (by omega)]
  have hzero : BitVec.ofNat 32 (s.sizeOf x) = 0 ↔ s.write x = [] := by
    rw [← BitVec.toNat_inj, hnat, ← List.length_eq_zero_iff, hsize]
    exact Iff.rfl
  have hu32 := h.u32.readAt_of_at hat.right.left
  simp only [MemRepr.length_write] at hentry hu32
  have hmap := hentry.right
  rw [← hsize] at hmap
  obtain ⟨m, hraw, hmem, -, hm⟩ := StaticMap.holds_writeMap hmap (by omega)
  refine ⟨⟨b, BitVec.ofNat 32 (s.sizeOf x), if BitVec.ofNat 32 (s.sizeOf x) = 0 then none
    else some (pos + h.key.size + h.u32.size), m⟩, ?_, rfl, ?_, hmem, hm⟩
  · unfold ofRaw
    rw [h.key.readAt_of_at hat.left, hu32]
    simp only [Option.bind_eq_bind, Option.bind_some, hnat, hraw]
    rfl
  · unfold Reads
    by_cases h0 : s.write x = []
    · rw [if_pos h0]
      exact if_pos (hzero.2 h0)
    · rw [if_neg h0]
      exact ⟨_, if_neg fun hz => h0 (hzero.1 hz), hentry.left⟩

theorem retrieveRange_past {b : BitVec w} {x : ε} {l : List (BitVec w × ContainedRangeMap w ε)}
    {a : BitVec w} (hget : l[KeyList.lowerBound l a]? = none) :
    (ContainedRangeMap.mk b x l).retrieveRange a = none := by
  rw [ContainedRangeMap.retrieveRange]
  split
  · rfl
  · rename_i h
    rw [hget] at h
    cases h

theorem retrieveRange_first {b b' : BitVec w} {x x' : ε} {a key : BitVec w}
    {l l' : List (BitVec w × ContainedRangeMap w ε)}
    (hget : l[KeyList.lowerBound l a]? = some (key, .mk b' x' l')) :
    (ContainedRangeMap.mk b x l).retrieveRange a
      = if a < b' then none
        else some (((ContainedRangeMap.mk b' x' l').retrieveRange a).getD x') := by
  rw [ContainedRangeMap.retrieveRange]
  split
  · rename_i h
    rw [hget] at h
    cases h
  · rename_i h
    rw [hget, Option.some_inj, Prod.mk.injEq] at h
    obtain ⟨rfl, rfl⟩ := h
    rfl

/-- By induction on the bound: each level of the tree takes one call. -/
theorem retrieveRange_write : ∀ (n : ℕ) (c : ContainedRangeMap w ε), c.depth ≤ n →
    ContainedRangeMap.Valid c.map → ∀ {pos : ℕ}, At mem pos (h.containedWrite s c) →
    (h.containedWrite s c).length < 2 ^ 32 → ∀ a,
    Agrees (Reads s mem) (retrieveRange h mem n pos a) (c.retrieveRange a)
  | 0, .mk b x l, hn, _, _, _, _, _ => by
    rw [ContainedRangeMap.depth_mk] at hn
    omega
  | n + 1, .mk b x l, hn, hv, pos, hat, hlen, a => by
    obtain ⟨c, hc, -, -, hmem, hm⟩ := ofRaw_write hat hlen
    have hm' : c.map.Holds h ((⟨l, hv.sorted⟩ : SortedMap _ _).entries.map
      fun e => (e.1, h.containedWrite s e.2)) := hm
    have hcount := numNodes_holds (h.containedWrite s) hm'
    obtain ⟨-, hlower, -⟩ := bounds_holds (h.containedWrite s) hm' a
    change c.map.lowerBound h a = some (KeyList.lowerBound l a : ℤ) at hlower
    change c.map.numNodes = l.length at hcount
    unfold retrieveRange
    rw [hc]
    simp only [Option.bind_eq_bind, Option.bind_some, hlower, hcount]
    rcases hget : l[KeyList.lowerBound l a]? with _ | ⟨key, child⟩
    · have hend : KeyList.lowerBound l a = l.length :=
        le_antisymm lowerBound_le_length (List.getElem?_eq_none_iff.1 hget)
      rw [hend, if_pos rfl, retrieveRange_past hget]
      exact ⟨none, rfl, .none⟩
    · have hlt := (List.getElem?_eq_some_iff.1 hget).1
      obtain ⟨-, p, hp, hchild⟩ := node_holds (h.containedWrite s) hm' hget
      rw [hmem] at hchild
      have hsmall : (h.containedWrite s child).length < 2 ^ 32 :=
        (h.length_value_le (getElem?_node (h.containedWrite s) hget)).trans_lt hm.small
      have hdepth : child.depth < (ContainedRangeMap.mk b x l).depth :=
        ContainedRangeMap.depth_child (List.mem_of_getElem? hget)
      obtain ⟨b', x', l'⟩ := child
      obtain ⟨c', hc', hbase, hentry, -, -⟩ := ofRaw_write hchild hsmall
      obtain ⟨z, hz, hrel⟩ := retrieveRange_write n (.mk b' x' l') (by omega)
        (hv.children (List.mem_of_getElem? hget)) hchild hsmall a
      rw [if_neg (by omega), hp, retrieveRange_first hget]
      simp only [Option.bind_some, hc', hbase, hz]
      generalize (ContainedRangeMap.mk b' x' l').retrieveRange a = y at hrel ⊢
      by_cases hlow : a < b'
      · rw [if_pos hlow, if_pos hlow]
        exact ⟨none, rfl, .none⟩
      · rw [if_neg hlow, if_neg hlow]
        cases hrel with
        | none => exact ⟨some c'.entryPtr, rfl, .some hentry⟩
        | some hreads => exact ⟨some _, rfl, .some hreads⟩

/-- After any calls, the static map over the serialized tree finds what the tree does, with no more
calls of itself than the tree has levels. -/
theorem contained_lookup (default : ε) (calls : List (ContainedRangeMap.Call w ε))
    (hat : At mem pos (h.containedWrite s (ContainedRangeMap.run default calls)))
    (hlen : (h.containedWrite s (ContainedRangeMap.run default calls)).length < 2 ^ 32) :
    ∀ fuel ≥ (ContainedRangeMap.run default calls).depth, ∀ a,
      Agrees (Reads s mem) (retrieveRange h mem fuel pos a)
        ((ContainedRangeMap.run default calls).retrieveRange a) :=
  fun n hn a => retrieveRange_write n _ hn (ContainedRangeMap.run_ok default calls).1 hat hlen a

theorem run_nested : ContainedRangeMap.run false [.storeRange 10 20 true, .storeRange 12 4 false]
    = (.mk 0 false [(29, .mk 10 true [(15, .mk 12 false [])])] : ContainedRangeMap 64 Bool) := by
  have houter : (.mk 0 false [] : ContainedRangeMap 64 Bool).storeRange 10 20 true
      = (true, .mk 0 false [(29, .mk 10 true [])]) := by
    rw [ContainedRangeMap.storeRange]
    rfl
  have hinner : (.mk 10 true [] : ContainedRangeMap 64 Bool).storeRange 12 4 false
      = (true, .mk 10 true [(15, .mk 12 false [])]) := by
    rw [ContainedRangeMap.storeRange]
    rfl
  have hv : ContainedRangeMap.Valid [((29 : BitVec 64), .mk 10 true [])] := by
    have h := (ContainedRangeMap.run_ok false [.storeRange (10 : BitVec 64) 20 true]).1
    change ContainedRangeMap.Valid
      ((.mk 0 false [] : ContainedRangeMap 64 Bool).storeRange 10 20 true).2.map at h
    rw [houter] at h
    exact h
  have hstore : (.mk 0 false [(29, .mk 10 true [])] : ContainedRangeMap 64 Bool).storeRange 12 4
      false = (true, .mk 0 false [(29, .mk 10 true [(15, .mk 12 false [])])]) := by
    refine (ContainedRangeMap.storeRange_child hv (by decide) (by decide) List.mem_cons_self
      (by decide) (by decide)).trans ?_
    rw [hinner]
    rfl
  show (((ContainedRangeMap.mk 0 false []).storeRange 10 20 true).2.storeRange 12 4 false).2 = _
  rw [houter, hstore]

theorem contained_lookup_nested :
    (ContainedRangeMap.run false [.storeRange (10 : BitVec 64) 20 true,
      .storeRange 12 4 false]).depth = 3 ∧ ∀ fuel ≥ 3, ∀ a,
    Agrees (Reads .bool ((Abi.littleEndian 8).containedWrite .bool (ContainedRangeMap.run false
        [.storeRange 10 20 true, .storeRange 12 4 false])))
      (retrieveRange (.littleEndian 8) ((Abi.littleEndian 8).containedWrite .bool
        (ContainedRangeMap.run false [.storeRange 10 20 true, .storeRange 12 4 false])) fuel 0 a)
      ((ContainedRangeMap.run false [.storeRange 10 20 true,
        .storeRange 12 4 false]).retrieveRange a) := by
  have hdepth : (ContainedRangeMap.run false [.storeRange (10 : BitVec 64) 20 true,
      .storeRange 12 4 false]).depth = 3 := by
    rw [run_nested]
    simp only [ContainedRangeMap.depth_mk, List.map_cons, List.map_nil]
    rfl
  refine ⟨hdepth, fun fuel hfuel => contained_lookup false _ (At.self _) ?_ fuel ?_⟩
  · rw [run_nested]
    simp only [Abi.containedWrite_mk, List.map_cons, List.map_nil]
    decide
  · exact hdepth.trans_le hfuel

end StaticContainedRangeMap

end Xrash
