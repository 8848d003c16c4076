import Xrash.StaticMap
import Xrash.Proofs.Serializer

/-!
# Serialized maps

A block the serializers write is looked up like the map it was made from: the binary searches find
the iterators of the ordered map, and each read stays within the memory of the block.
-/

namespace Xrash

open KeyList

variable {κ : Type} (h : Abi κ)

/-! ## Reading a block -/

namespace StaticMap

variable {h} {m : StaticMap} {nodes : List (κ × List UInt8)} {key : κ}

/-- The map reads these keys and values. -/
structure Holds (h : Abi κ) (m : StaticMap) (nodes : List (κ × List UInt8)) : Prop where
  count : h.u32.readAt m.mem m.rawData = some (BitVec.ofNat 32 nodes.length)
  toInt_count : (BitVec.ofNat 32 nodes.length).toInt = nodes.length
  numNodes : m.numNodes = nodes.length
  offsets : m.offsets = m.rawData + h.u32.size
  key : ∀ (i : ℕ) (e : κ × List UInt8), nodes[i]? = some e →
    h.key.readAt m.mem (m.keys + i * h.key.size) = some e.1
  offset : ∀ i : ℕ, i < nodes.length → h.u32.readAt m.mem (m.offsets + i * h.u32.size)
    = some (BitVec.ofNat 32 (h.valueOffset nodes i))
  value : ∀ (i : ℕ) (e : κ × List UInt8), nodes[i]? = some e →
    At m.mem (m.rawData + h.valueOffset nodes i) e.2
  small : (h.writeMap nodes).length < 2 ^ 32

theorem u32_size (h : Abi κ) : h.u32.size = 4 := by
  have := h.u32.bits
  omega

/-- Values one after the other, split around one of them. -/
theorem flatten_split : ∀ {vs : List (List UInt8)} {i : ℕ} {v : List UInt8}, vs[i]? = some v →
    vs.flatten = (vs.take i).flatten ++ (v ++ (vs.drop (i + 1)).flatten)
  | [], _, _, hv => by simp at hv
  | u :: vs, 0, v, hv => by
    rw [List.getElem?_cons_zero, Option.some_inj] at hv
    subst hv
    rfl
  | u :: vs, i + 1, v, hv => by
    rw [List.getElem?_cons_succ] at hv
    rw [List.flatten_cons, flatten_split hv, List.take_succ_cons, List.flatten_cons,
      List.append_assoc]
    rfl

/-- A block of less than 4 GiB, wherever it is in memory, is read as it was written. -/
theorem holds_writeMap {mem : List UInt8} {pos : ℕ} (hat : At mem pos (h.writeMap nodes))
    (hlen : (h.writeMap nodes).length < 2 ^ 32) :
    ∃ m, ofRaw h mem pos = some m ∧ m.mem = mem ∧ m.rawData = pos ∧ Holds h m nodes := by
  have hu32 := u32_size h
  have hsize := h.length_writeMap nodes
  have hstart : h.valuesStart nodes.length
      = 4 + nodes.length * 4 + nodes.length * h.key.size := by
    unfold Abi.valuesStart Abi.headerSize
    rw [hu32]
    omega
  have hcount : nodes.length < 2 ^ 30 := by omega
  rw [h.writeMap_eq] at hat
  have hn : (BitVec.ofNat 32 nodes.length).toInt = nodes.length := by
    have hnat : (BitVec.ofNat 32 nodes.length).toNat = nodes.length := by
      rw [BitVec.toNat_ofNat, Nat.mod_eq_of_lt (by omega)]
    rw [BitVec.toInt_eq_toNat_of_lt (by rw [hnat]; omega), hnat]
  have hoffsets := hat.right.left
  have hkeys := hat.right.right.left
  have hvalues := hat.right.right.right
  rw [MemRepr.length_write] at hoffsets hkeys hvalues
  rw [MemRepr.length_writeAll, Abi.length_offsetsFrom, List.length_map] at hkeys hvalues
  rw [MemRepr.length_writeAll, List.length_map] at hvalues
  refine ⟨⟨mem, pos, nodes.length, pos + h.u32.size,
    (pos + (1 + (nodes.length : ℤ)) * h.u32.size).toNat⟩, ?_, rfl, rfl,
    h.u32.readAt_of_at hat.left, hn, rfl, rfl, ?_, ?_, ?_, hlen⟩
  · unfold ofRaw
    rw [h.u32.readAt_of_at hat.left]
    simp only [Option.bind_eq_bind, Option.bind_some, hn]
    rfl
  · intro i e he
    have hfst : (nodes.map Prod.fst)[i]? = some e.1 := by rw [List.getElem?_map, he]; rfl
    have hpos : (pos + (1 + (nodes.length : ℤ)) * h.u32.size).toNat
        = pos + h.u32.size + nodes.length * h.u32.size := by
      rw [hu32]
      omega
    show h.key.readAt mem (_ + i * h.key.size) = some e.1
    rw [hpos]
    exact h.key.readAt_writeAll hkeys hfst
  · intro i hi
    refine h.u32.readAt_writeAll hoffsets (Abi.getElem?_offsetsFrom _ _ ?_)
    rw [List.length_map]
    exact hi
  · intro i e he
    have hsnd : (nodes.map Prod.snd)[i]? = some e.2 := by rw [List.getElem?_map, he]; rfl
    rw [flatten_split hsnd] at hvalues
    have hval := hvalues.right.left
    unfold Abi.valueOffset Abi.valuesStart Abi.headerSize
    rw [Nat.add_mul, Nat.one_mul]
    simp only [Nat.add_assoc] at hval ⊢
    exact hval

section Nodes

variable (hm : Holds h m nodes) {i : ℕ} {e : κ × List UInt8}

include hm

theorem Holds.isValid (he : nodes[i]? = some e) : m.IsValid i := by
  have hi := (List.getElem?_eq_some_iff.1 he).1
  unfold IsValid
  rw [hm.numNodes]
  omega

theorem Holds.getKey (he : nodes[i]? = some e) : m.getKey h i = some e.1 := by
  unfold StaticMap.getKey
  rw [if_neg (not_not.2 (hm.isValid he)), Int.toNat_natCast, hm.key i e he]

theorem Holds.toNat_offset (i : ℕ) :
    (BitVec.ofNat 32 (h.valueOffset nodes i)).toNat = h.valueOffset nodes i := by
  have hle := h.valueOffset_le nodes i
  have hsmall := hm.small
  rw [BitVec.toNat_ofNat, Nat.mod_eq_of_lt (by omega)]

/-- The value of a node is where its iterator points to. -/
theorem Holds.getValuePtr (he : nodes[i]? = some e) :
    ∃ p, m.getValuePtr h i = some p ∧ At m.mem p e.2 := by
  refine ⟨m.rawData + h.valueOffset nodes i, ?_, hm.value i e he⟩
  unfold StaticMap.getValuePtr
  rw [if_neg (not_not.2 (hm.isValid he)), Int.toNat_natCast,
    hm.offset i (List.getElem?_eq_some_iff.1 he).1, Option.map_some, hm.toNat_offset]

variable [Zero κ]

theorem Holds.getKeyAtIndex (he : nodes[i]? = some e) : m.getKeyAtIndex h i = some e.1 := by
  have hi := (List.getElem?_eq_some_iff.1 he).1
  unfold StaticMap.getKeyAtIndex
  rw [if_neg, Int.toNat_natCast, hm.key i e he]
  rw [hm.numNodes]
  omega

end Nodes

variable [LinearOrder κ] [Zero κ]

/-! ## Binary search -/

section Search

variable (hm : Holds h m nodes)

include hm

/-- The search ends at an entry with the key, or between the smaller keys and the larger ones. -/
theorem Holds.search (hs : Sorted nodes) (hit miss : ℕ → ℤ) (first last : ℕ)
    (hle : first ≤ last) (hlast : last ≤ nodes.length)
    (hbelow : ∀ i e, nodes[i]? = some e → i < first → e.1 < key)
    (habove : ∀ i e, nodes[i]? = some e → last ≤ i → key < e.1) :
    (∃ i e, nodes[i]? = some e ∧ e.1 = key ∧ m.search h hit miss key first last = some (hit i))
      ∨ ∃ i ≤ nodes.length, (∀ j e, nodes[j]? = some e → (j < i → e.1 < key) ∧ (i ≤ j → key < e.1))
        ∧ m.search h hit miss key first last = some (miss i) := by
  rw [StaticMap.search]
  by_cases hlt : first < last
  · have hmid : first + (last - first) / 2 < nodes.length := by omega
    have hget := List.getElem?_eq_getElem hmid
    have hmono : ∀ {i j : ℕ} {e f : κ × List UInt8}, nodes[i]? = some e →
        nodes[j]? = some f → i ≤ j → e.1 ≤ f.1 := by
      intro i j e f he hf hij
      obtain ⟨hi, rfl⟩ := List.getElem?_eq_some_iff.1 he
      obtain ⟨hj, rfl⟩ := List.getElem?_eq_some_iff.1 hf
      exact hs.getElem_le hi hj hij
    rw [if_pos hlt]
    simp only [hm.getKeyAtIndex hget]
    rcases lt_trichotomy key nodes[first + (last - first) / 2].1 with hk | hk | hk
    · have hcmp : compare key nodes[first + (last - first) / 2].1 = -1 := if_pos hk
      rw [hcmp, if_neg (by decide), if_pos (by decide)]
      exact Holds.search hs hit miss first _ (by omega) (by omega) hbelow fun i e he hi =>
        hk.trans_le (hmono hget he hi)
    · have hcmp : compare key nodes[first + (last - first) / 2].1 = 0 := by
        unfold compare
        rw [hk, if_neg (lt_irrefl _), if_pos rfl]
      rw [hcmp, if_pos rfl]
      exact .inl ⟨_, _, hget, hk.symm, rfl⟩
    · have hcmp : compare key nodes[first + (last - first) / 2].1 = 1 := by
        unfold compare
        rw [if_neg (not_lt.2 hk.le), if_neg (ne_of_gt hk)]
      rw [hcmp, if_neg (by decide), if_neg (by decide)]
      exact Holds.search hs hit miss _ last (by omega) hlast (fun i e he hi =>
        (hmono he hget (by omega)).trans_lt hk) habove
  · have heq : first = last := by omega
    subst heq
    rw [if_neg hlt]
    exact .inr ⟨first, hlast, fun j e he => ⟨hbelow j e he, habove j e he⟩, rfl⟩
  termination_by last - first

/-- From the whole block on. -/
theorem Holds.search_all (hs : Sorted nodes) (key : κ) (hit miss : ℕ → ℤ) :
    (∃ i e, nodes[i]? = some e ∧ e.1 = key
        ∧ m.search h hit miss key 0 m.numNodes.toNat = some (hit i))
      ∨ ∃ i ≤ nodes.length, (∀ j e, nodes[j]? = some e → (j < i → e.1 < key) ∧ (i ≤ j → key < e.1))
        ∧ m.search h hit miss key 0 m.numNodes.toNat = some (miss i) := by
  have hn : m.numNodes.toNat = nodes.length := by rw [hm.numNodes, Int.toNat_natCast]
  rw [hn]
  refine hm.search hs hit miss 0 _ (Nat.zero_le _) le_rfl (fun i e _ hi => absurd hi (by omega)) ?_
  intro i e he hi
  have := (List.getElem?_eq_some_iff.1 he).1
  omega

theorem Holds.lowerBound (hs : Sorted nodes) :
    m.lowerBound h key = some (KeyList.lowerBound nodes key : ℤ) := by
  unfold StaticMap.lowerBound
  rcases hm.search_all hs key (fun middle => middle) (fun first => first) with
    ⟨i, e, he, rfl, hsearch⟩ | ⟨i, hi, hsep, hsearch⟩
  · rw [hsearch, (bounds_of_key hs he).1]
  · rw [hsearch, (bounds_of_gap hi hsep).1]

theorem Holds.upperBound (hs : Sorted nodes) :
    m.upperBound h key = some (KeyList.upperBound nodes key : ℤ) := by
  unfold StaticMap.upperBound
  rcases hm.search_all hs key (fun middle => middle + 1) (fun first => first) with
    ⟨i, e, he, rfl, hsearch⟩ | ⟨i, hi, hsep, hsearch⟩
  · rw [hsearch, (bounds_of_key hs he).2.1]
    rfl
  · rw [hsearch, (bounds_of_gap hi hsep).2.1]

theorem Holds.find (hs : Sorted nodes) : m.find h key = some (KeyList.find nodes key : ℤ) := by
  unfold StaticMap.find
  rcases hm.search_all hs key (fun middle => middle) (fun _ => m.numNodes) with
    ⟨i, e, he, rfl, hsearch⟩ | ⟨i, hi, hsep, hsearch⟩
  · rw [hsearch, (bounds_of_key hs he).2.2]
  · rw [hsearch, (bounds_of_gap hi hsep).2.2, hm.numNodes]

end Search

/-! ## Validation -/

section Validate

variable (hm : Holds h m nodes)

include hm

/-- The offset of a node is larger than that of the node before it unless that one has no bytes. -/
theorem Holds.nodeIncreases (hs : Sorted nodes) {i : ℕ} {d e : κ × List UInt8}
    (hd : nodes[i]? = some d) (he : nodes[i + 1]? = some e) :
    m.nodeIncreases h (i + 1) = some (!d.2.isEmpty) := by
  obtain ⟨hi, rfl⟩ := List.getElem?_eq_some_iff.1 hd
  obtain ⟨hi', rfl⟩ := List.getElem?_eq_some_iff.1 he
  have hkey : m.getKeyAtIndex h ((i + 1 : ℕ) - 1 : ℤ) = some nodes[i].1 := by
    rw [show ((i + 1 : ℕ) - 1 : ℤ) = (i : ℕ) by omega]
    exact hm.getKeyAtIndex hd
  have hcmp : compare nodes[i + 1].1 nodes[i].1 = 1 := by
    have hlt := List.pairwise_iff_getElem.1 hs i (i + 1) hi hi' (Nat.lt_succ_self i)
    unfold compare
    rw [if_neg (not_lt_of_gt hlt), if_neg (ne_of_gt hlt)]
  have hle : BitVec.ofNat 32 (h.valueOffset nodes (i + 1))
      ≤ BitVec.ofNat 32 (h.valueOffset nodes i) ↔ nodes[i].2 = [] := by
    rw [BitVec.le_def, hm.toNat_offset, hm.toNat_offset, h.valueOffset_succ hd,
      ← List.length_eq_zero_iff]
    omega
  unfold StaticMap.nodeIncreases
  rw [hm.offset _ hi', Nat.add_sub_cancel, hm.offset _ hi, hkey, hm.getKeyAtIndex he]
  simp only [Option.bind_eq_bind, Option.bind_some, hle, hcmp]
  by_cases hempty : nodes[i].2 = []
  · rw [if_pos hempty]
    simp [hempty]
  · rw [if_neg hempty]
    simp [hempty]

theorem Holds.nodesIncrease (hs : Sorted nodes) : ∀ (n i : ℕ), i + n < nodes.length →
    m.nodesIncrease h (i + 1) n = some (((nodes.drop i).take n).all fun e => !e.2.isEmpty)
  | 0, i, _ => by simp [StaticMap.nodesIncrease]
  | n + 1, i, hlt => by
    have hi : i < nodes.length := by omega
    have hi' : i + 1 < nodes.length := by omega
    have hstep := hm.nodeIncreases hs (List.getElem?_eq_getElem hi) (List.getElem?_eq_getElem hi')
    have ih := Holds.nodesIncrease hs n (i + 1) (by omega)
    simp only [List.drop_eq_getElem_cons hi, List.take_succ_cons, List.all_cons]
    unfold StaticMap.nodesIncrease
    rw [hstep]
    by_cases hempty : nodes[i].2 = []
    · simp [hempty]
    · have hne : nodes[i].2.isEmpty = false := by simpa using hempty
      simp only [Option.bind_eq_bind, Option.bind_some, hne, Bool.not_false, if_true, ih,
        Bool.true_and]

/-- A block with its keys in order passes the validation when only the last value may be empty. -/
theorem Holds.validate (hs : Sorted nodes) : m.validateInMemoryStructure h
    = some (nodes.dropLast.all fun e => !e.2.isEmpty) := by
  have hu32 := u32_size h
  have hloop : m.nodesIncrease h 1 (m.numNodes.toNat - 1)
      = some (nodes.dropLast.all fun e => !e.2.isEmpty) := by
    rw [hm.numNodes, Int.toNat_natCast]
    rcases Nat.eq_zero_or_pos nodes.length with h0 | hpos
    · rw [h0, List.length_eq_zero_iff.1 h0]
      rfl
    · have hrun := hm.nodesIncrease hs (nodes.length - 1) 0 (by omega)
      rw [List.drop_zero, ← List.dropLast_eq_take] at hrun
      exact hrun
  unfold validateInMemoryStructure
  rw [hm.count, Option.map_some, hm.toInt_count]
  simp only [Option.bind_eq_bind, Option.bind_some, hloop]
  rw [if_neg (by omega)]
  by_cases h0 : m.numNodes = 0
  · rw [if_neg (not_not.2 h0)]
  · have hn := hm.numNodes
    have hpos : 0 < nodes.length := by omega
    have hoffset := hm.offset 0 hpos
    have hfirst : h.u32.size * (m.numNodes.toNat + 1) + h.key.size * m.numNodes.toNat
        = h.valueOffset nodes 0 := by
      unfold Abi.valueOffset Abi.valuesStart Abi.headerSize
      rw [hn, Int.toNat_natCast, hu32, List.take_zero, List.flatten_nil, List.length_nil,
        Nat.mul_comm h.key.size]
      omega
    have hle := h.valueOffset_le nodes 0
    have hsmall := hm.small
    rw [Nat.zero_mul, Nat.add_zero] at hoffset
    rw [if_pos h0, hfirst, if_neg (by omega), hoffset]
    simp

end Validate

end StaticMap

end Xrash
