import Xrash.Serializer

/-!
# What the serializers write

The loop of `Write` fills an array of offsets, an array of keys and the values, one after the other,
so a block of less than 4 GiB is as long as `SizeOf` says. `Serialize` keeps the length in 32 bits,
and is right for those blocks only.
-/

namespace Xrash.Abi

section Keys

variable {κ : Type} {ε : Type*} (h : Abi κ) (s : SimpleSerializer ε)

/-! ## The layout -/

/-- Where each of the values begins, when the first does at `start`. -/
def offsetsFrom : ℕ → List (List UInt8) → List (BitVec 32)
  | _, [] => []
  | start, v :: vs => BitVec.ofNat 32 start :: offsetsFrom (start + v.length) vs

theorem length_offsetsFrom : ∀ (start : ℕ) (vs : List (List UInt8)),
    (offsetsFrom start vs).length = vs.length
  | _, [] => rfl
  | start, v :: vs => congrArg Nat.succ (length_offsetsFrom (start + v.length) vs)

theorem getElem?_offsetsFrom : ∀ (start : ℕ) (vs : List (List UInt8)) {i : ℕ}, i < vs.length →
    (offsetsFrom start vs)[i]? = some (BitVec.ofNat 32 (start + (vs.take i).flatten.length))
  | _, [], _, hi => absurd hi (Nat.not_lt_zero _)
  | start, v :: vs, 0, _ => rfl
  | start, v :: vs, i + 1, hi => by
    have := getElem?_offsetsFrom (start + v.length) vs (Nat.lt_of_succ_lt_succ hi)
    unfold offsetsFrom
    rw [List.getElem?_cons_succ, this, List.take_succ_cons, List.flatten_cons, List.length_append,
      Nat.add_assoc]

theorem foldl_writeNode (start : ℕ) : ∀ (nodes : List (κ × List UInt8)) (r : Regions),
    nodes.foldl (fun r e => h.writeNode start r e.1 e.2) r
      = ⟨r.offsets ++ h.u32.writeAll (offsetsFrom (start + r.values.length) (nodes.map Prod.snd)),
        r.keys ++ h.key.writeAll (nodes.map Prod.fst),
        r.values ++ (nodes.map Prod.snd).flatten⟩
  | [], r => by simp [MemRepr.writeAll, offsetsFrom]
  | e :: nodes, r => by
    rw [List.foldl_cons, foldl_writeNode start nodes]
    simp only [writeNode, List.map_cons, offsetsFrom, MemRepr.writeAll_cons, List.flatten_cons,
      List.append_assoc, List.length_append, Nat.add_assoc]

/-- Where the values begin. -/
def valuesStart (n : ℕ) : ℕ := h.headerSize n + n * h.key.size

theorem writeMap_eq (nodes : List (κ × List UInt8)) : h.writeMap nodes
    = h.u32.write (BitVec.ofNat 32 nodes.length)
      ++ (h.u32.writeAll (offsetsFrom (h.valuesStart nodes.length) (nodes.map Prod.snd))
      ++ (h.key.writeAll (nodes.map Prod.fst) ++ (nodes.map Prod.snd).flatten)) := by
  unfold writeMap
  simp only [foldl_writeNode, List.nil_append, List.length_nil, Nat.add_zero]
  rfl

theorem length_writeMap (nodes : List (κ × List UInt8)) :
    (h.writeMap nodes).length
      = h.valuesStart nodes.length + (nodes.map Prod.snd).flatten.length := by
  rw [writeMap_eq]
  simp only [List.length_append, MemRepr.length_write, MemRepr.length_writeAll,
    length_offsetsFrom, List.length_map]
  unfold valuesStart headerSize
  rw [Nat.add_mul, Nat.one_mul]
  omega

/-- Where the value of a node begins. -/
def valueOffset (nodes : List (κ × List UInt8)) (i : ℕ) : ℕ :=
  h.valuesStart nodes.length + ((nodes.map Prod.snd).take i).flatten.length

theorem valueOffset_succ {nodes : List (κ × List UInt8)} {i : ℕ} {e : κ × List UInt8}
    (he : nodes[i]? = some e) :
    h.valueOffset nodes (i + 1) = h.valueOffset nodes i + e.2.length := by
  have hsnd : (nodes.map Prod.snd)[i]? = some e.2 := by rw [List.getElem?_map, he]; rfl
  unfold valueOffset
  rw [List.take_add_one, hsnd, Option.toList_some, List.flatten_append, List.length_append,
    List.flatten_singleton, Nat.add_assoc]

theorem valueOffset_le (nodes : List (κ × List UInt8)) (i : ℕ) :
    h.valueOffset nodes i ≤ (h.writeMap nodes).length := by
  rw [length_writeMap]
  unfold valueOffset
  have hsplit := congrArg (fun l => (List.flatten l).length)
    (List.take_append_drop i (nodes.map Prod.snd))
  simp only [List.flatten_append, List.length_append] at hsplit
  omega

theorem length_value_le {nodes : List (κ × List UInt8)} {i : ℕ} {e : κ × List UInt8}
    (he : nodes[i]? = some e) : e.2.length ≤ (h.writeMap nodes).length := by
  have hnext := h.valueOffset_succ he
  have hle := h.valueOffset_le nodes (i + 1)
  omega

/-! ## Sizes -/

theorem foldl_size {α : Type*} (f : α → ℕ) : ∀ (l : List α) (n : ℕ),
    l.foldl (fun size e => size + f e) n = n + (l.map f).sum
  | [], n => rfl
  | e :: l, n => by
    rw [List.foldl_cons, foldl_size f l, List.map_cons, List.sum_cons, Nat.add_assoc]

/-- The size of a block, counted node by node as `SizeOf` does. -/
theorem length_writeMap_foldl {α : Type*} (key : α → κ) (value : α → List UInt8)
    (l : List α) : (h.writeMap (l.map fun e => (key e, value e))).length
      = l.foldl (fun size e => size + (h.key.size + (value e).length))
        (h.headerSize l.length) := by
  rw [length_writeMap, foldl_size, List.map_map, List.length_flatten, List.map_map, List.length_map]
  have hsum : (l.map fun e => h.key.size + (value e).length).sum
      = l.length * h.key.size + (l.map fun e => (value e).length).sum := by
    induction l with
    | nil => simp
    | cons e l ih =>
      simp only [List.map_cons, List.sum_cons, List.length_cons, ih, Nat.succ_mul]
      omega
  rw [hsum]
  unfold valuesStart
  rw [Nat.add_assoc]
  rfl

/-- The values of a block take no more bytes than the block. -/
theorem length_value_lt {α : Type*} {k : α → κ} {v : α → List UInt8} {l : List α} {n : ℕ}
    (hlt : (h.writeMap (l.map fun e => (k e, v e))).length < n) :
    ∀ e ∈ l, (v e).length < n := by
  intro e he
  obtain ⟨i, hi⟩ := List.mem_iff_getElem?.1 he
  have hnode : (l.map fun e => (k e, v e))[i]? = some (k e, v e) := by
    rw [List.getElem?_map, hi]
    rfl
  exact (h.length_value_le hnode).trans_lt hlt

theorem foldl_size_congr {α : Type*} {f g : α → ℕ} {l : List α} (h : ∀ e ∈ l, f e = g e) (n : ℕ) :
    l.foldl (fun size e => size + f e) n = l.foldl (fun size e => size + g e) n := by
  rw [foldl_size, foldl_size, List.map_congr_left h]

end Keys

variable {w : ℕ} {ε : Type*} (h : Abi (BitVec w)) (s : SimpleSerializer ε)

theorem rangeMapSizeOf_eq {m : RangeMap w ε} (hlt : (h.rangeMapWrite s m).length < 2 ^ 32) :
    h.rangeMapSizeOf s m = (h.rangeMapWrite s m).length := by
  have hvalues := h.length_value_lt (k := Prod.fst)
    (v := fun e : BitVec w × Range w ε => h.key.write e.2.base ++ s.write e.2.entry) hlt
  unfold rangeMapWrite rangeMapSizeOf SortedMap.size
  rw [h.length_writeMap_foldl Prod.fst
    fun e : BitVec w × Range w ε => h.key.write e.2.base ++ s.write e.2.entry]
  simp only [List.length_append, MemRepr.length_write, Nat.add_assoc] at hvalues ⊢
  refine foldl_size_congr (fun e he => ?_) _
  have hentry := hvalues e he
  rw [s.sizeOf_eq _ (by omega)]

theorem containedWrite_mk (b : BitVec w) (x : ε) (l : List (BitVec w × ContainedRangeMap w ε)) :
    h.containedWrite s (.mk b x l) = h.key.write b
      ++ (h.u32.write (BitVec.ofNat 32 (s.sizeOf x)) ++ (s.write x
      ++ h.writeMap (l.map fun e => (e.1, h.containedWrite s e.2)))) := by
  have hmap : (l.attach.map fun e => (e.1.1, h.containedWrite s e.1.2))
      = l.map fun e => (e.1, h.containedWrite s e.2) :=
    l.attach_map_val (f := fun e => (e.1, h.containedWrite s e.2))
  rw [containedWrite, hmap]

end Xrash.Abi
