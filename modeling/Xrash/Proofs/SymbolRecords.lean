import Xrash.SymbolRecords
import Xrash.Proofs.StaticLookup

/-!
# Symbols in memory

The functions of a module, with their lines, and its public symbols are found in a serialized
module as in the maps it was written from.
-/

namespace Xrash

namespace Symbols

variable {w : ℕ} {h : Abi (BitVec w)} {mem : List UInt8} {pos : ℕ}

/-! ## Records -/

theorem cstringAt_of_at {s : CString} (hat : At mem pos (string.write s)) :
    cstringAt mem pos = some s.str := by
  obtain ⟨pre, post, rfl, rfl⟩ := hat
  have hdrop : (pre ++ (string.write s ++ post)).drop pre.length = s.str ++ 0 :: post := by
    rw [List.drop_left]
    exact List.append_assoc ..
  have htake : (s.str ++ 0 :: post).takeWhile (· ≠ 0) = s.str := by
    rw [List.takeWhile_append_of_pos fun b hb => ?_, List.takeWhile_cons_of_neg (by simp),
      List.append_nil]
    simpa using ne_of_mem_of_not_mem hb s.zero_notMem
  rw [cstringAt, hdrop, htake, if_pos (by simp)]

theorem length_string (s : CString) : (string.write s).length = s.str.length + 1 :=
  List.length_append

theorem copyFrom_line {l : Line w} (hat : At mem pos ((line h).write l)) :
    Line.copyFrom h mem pos = some l := by
  have hsize := hat.right
  rw [MemRepr.length_write] at hsize
  have hfile := hsize.right
  rw [MemRepr.length_write, Nat.add_assoc, ← Nat.two_mul] at hfile
  have hline := hfile.right
  rw [MemRepr.length_write] at hline
  rw [Line.copyFrom, h.key.readAt_of_at hat.left, h.key.readAt_of_at hsize.left,
    h.u32.readAt_of_at hfile.left, h.u32.readAt_of_at hline]
  rfl

/-- What `CopyFrom` takes of a function, with its lines where they are. -/
theorem copyFrom_function {f : Function w} (hat : At mem pos ((function h).write f))
    (hlen : ((function h).write f).length < 2 ^ 32) : ∃ m p,
    FastFunction.copyFrom h mem pos = some ⟨f.name.str, f.address, f.size, f.parameterSize, m⟩
      ∧ StaticMap.ofRaw h mem p = some m ∧ At mem p (h.rangeMapWrite (line h).linkedPtr f.lines)
      ∧ (h.rangeMapWrite (line h).linkedPtr f.lines).length < 2 ^ 32 := by
  have haddress := hat.right
  rw [length_string] at haddress
  have hcode := haddress.right
  rw [MemRepr.length_write] at hcode
  have hparameter := hcode.right
  rw [MemRepr.length_write, Nat.add_assoc _ h.key.size, ← Nat.two_mul] at hparameter
  have hlines := hparameter.right
  rw [MemRepr.length_write] at hlines
  have hlines_lt : (h.rangeMapWrite (line h).linkedPtr f.lines).length < 2 ^ 32 := by
    simp only [function, List.length_append] at hlen
    omega
  obtain ⟨m, hm, -⟩ := holds_entries (StaticRangeMap.bytes h (line h).linkedPtr) hlines hlines_lt
  refine ⟨m, _, ?_, hm, hlines, hlines_lt⟩
  simp only [FastFunction.copyFrom, cstringAt_of_at hat.left, Option.bind_eq_bind,
    Option.bind_some, h.key.readAt_of_at haddress.left, h.key.readAt_of_at hcode.left,
    h.u32.readAt_of_at hparameter.left, hm]
  rfl

theorem copyFrom_publicSymbol {p : PublicSymbol w} (hat : At mem pos ((publicSymbol h).write p)) :
    FastPublicSymbol.copyFrom h mem pos = some ⟨p.name.str, p.address, p.parameterSize⟩ := by
  have haddress := hat.right
  rw [length_string] at haddress
  have hparameter := haddress.right
  rw [MemRepr.length_write] at hparameter
  simp only [FastPublicSymbol.copyFrom, cstringAt_of_at hat.left, Option.bind_eq_bind,
    Option.bind_some, h.key.readAt_of_at haddress.left, h.u32.readAt_of_at hparameter]
  rfl

/-! ## Lookups -/

theorem retrieveRange_mem {ε : Type*} {rm : RangeMap w ε} {a : BitVec w} {y : Retrieved w ε}
    (hy : rm.retrieveRange a = some y) :
    ∃ (i : ℕ) (e : _), rm.map.entries[i]? = some e ∧ y = retrieved e := by
  unfold RangeMap.retrieveRange at hy
  split at hy
  · cases hy
  · next e he =>
    split_ifs at hy
    exact ⟨_, e, he, (Option.some.inj hy).symm⟩

/-- An entry takes no more bytes than the map it is in. -/
theorem length_entry_le {ε : Type*} {s : SimpleSerializer ε} {rm : RangeMap w ε} {a : BitVec w}
    {y : Retrieved w ε} (hy : rm.retrieveRange a = some y) :
    (s.write y.entry).length ≤ (h.rangeMapWrite s rm).length := by
  obtain ⟨i, e, he, rfl⟩ := retrieveRange_mem hy
  have hle := h.length_value_le (getElem?_node (StaticRangeMap.bytes h s) he)
  simp only [StaticRangeMap.bytes, List.length_append] at hle
  exact Nat.le_of_add_left_le hle

/-- A range in memory whose entry is the line that the range has. -/
def ReadsLine (h : Abi (BitVec w)) (mem : List UInt8) (x : StaticRetrieved w)
    (y : Retrieved w (Option (Line w))) : Prop :=
  x.base = y.base ∧ x.size = y.size ∧ ∀ l, y.entry = some l → Line.copyFrom h mem x.entry = some l

/-- A range in memory whose entry is the function that the range has, with the lines of it. -/
def ReadsFunction (h : Abi (BitVec w)) (mem : List UInt8) (x : StaticRetrieved w)
    (y : Retrieved w (Option (Function w))) : Prop :=
  x.base = y.base ∧ x.size = y.size ∧ ∀ f, y.entry = some f → ∃ m,
    FastFunction.copyFrom h mem x.entry = some ⟨f.name.str, f.address, f.size, f.parameterSize, m⟩
      ∧ ∀ a, Agrees (ReadsLine h mem) (StaticRangeMap.retrieveRange h m a) (f.lines.retrieveRange a)

theorem lines_lookup {lines : RangeMap w (Option (Line w))} {m : StaticMap}
    (hraw : StaticMap.ofRaw h mem pos = some m)
    (hat : At mem pos (h.rangeMapWrite (line h).linkedPtr lines))
    (hlen : (h.rangeMapWrite (line h).linkedPtr lines).length < 2 ^ 32) (a : BitVec w) :
    Agrees (ReadsLine h mem) (StaticRangeMap.retrieveRange h m a) (lines.retrieveRange a) := by
  obtain ⟨m', hraw', rfl, hm⟩ := holds_entries (StaticRangeMap.bytes h (line h).linkedPtr) hat hlen
  obtain rfl : m = m' := Option.some.inj (hraw.symm.trans hraw')
  refine (StaticRangeMap.retrieveRange_holds hm a).imp fun x y _ hreads => ?_
  refine ⟨hreads.2.1, hreads.2.2, fun l hl => copyFrom_line ?_⟩
  have hentry := hreads.1
  rwa [hl] at hentry

/-- The functions of a serialized module, and the lines in them, are found as in the module. -/
theorem functions_lookup (functions : RangeMap w (Option (Function w)))
    (hat : At mem pos (h.rangeMapWrite (function h).linkedPtr functions))
    (hlen : (h.rangeMapWrite (function h).linkedPtr functions).length < 2 ^ 32) :
    ∃ m, StaticMap.ofRaw h mem pos = some m ∧ ∀ a, Agrees (ReadsFunction h mem)
      (StaticRangeMap.retrieveRange h m a) (functions.retrieveRange a) := by
  obtain ⟨m, hraw, rfl, hm⟩ :=
    holds_entries (StaticRangeMap.bytes h (function h).linkedPtr) hat hlen
  refine ⟨m, hraw, fun a => (StaticRangeMap.retrieveRange_holds hm a).imp fun x y hy hreads => ?_⟩
  refine ⟨hreads.2.1, hreads.2.2, fun f hf => ?_⟩
  have hentry := hreads.1
  have hle := length_entry_le (h := h) (s := (function h).linkedPtr) hy
  rw [hf] at hentry hle
  obtain ⟨m', p, hcopy, hraw', hlines, hlines_lt⟩ :=
    copyFrom_function hentry (Nat.lt_of_le_of_lt hle hlen)
  exact ⟨m', hcopy, lines_lookup hraw' hlines hlines_lt⟩

/-- A function of one line. -/
def oneFunction : RangeMap 64 (Option (Function 64)) := ⟨.exclusiveRanges, SortedMap.empty.insert 19
  ⟨10, 0, some ⟨⟨[102], by decide⟩, 10, 10, 0, false, ⟨.exclusiveRanges,
    SortedMap.empty.insert 14 ⟨10, 0, some ⟨10, 5, 1, 7⟩⟩⟩⟩⟩⟩

theorem functions_lookup_one : ∃ m, StaticMap.ofRaw (.littleEndian 8)
    ((Abi.littleEndian 8).rangeMapWrite (function (.littleEndian 8)).linkedPtr oneFunction) 0
      = some m ∧ ∀ a, Agrees (ReadsFunction (.littleEndian 8)
          ((Abi.littleEndian 8).rangeMapWrite (function (.littleEndian 8)).linkedPtr oneFunction))
        (StaticRangeMap.retrieveRange (.littleEndian 8) m a) (oneFunction.retrieveRange a) :=
  functions_lookup oneFunction (At.self _) (by decide)

/-- What is found is the public symbol, and the address it was stored at. -/
def ReadsPublicSymbol (h : Abi (BitVec w)) (mem : List UInt8) (x : ℕ × BitVec w)
    (y : Option (PublicSymbol w) × BitVec w) : Prop :=
  x.2 = y.2 ∧ ∀ p, y.1 = some p →
    FastPublicSymbol.copyFrom h mem x.1 = some ⟨p.name.str, p.address, p.parameterSize⟩

theorem publicSymbols_lookup (symbols : AddressMap w (Option (PublicSymbol w)))
    (hat : At mem pos (h.addressMapWrite (publicSymbol h).linkedPtr symbols))
    (hlen : (h.addressMapWrite (publicSymbol h).linkedPtr symbols).length < 2 ^ 32) :
    ∃ m, StaticMap.ofRaw h mem pos = some m ∧
      ∀ a, Agrees (ReadsPublicSymbol h mem) (m.retrieve h a) (symbols.retrieve a) := by
  obtain ⟨m, hraw, rfl, hm⟩ := holds_entries (publicSymbol h).linkedPtr.write hat hlen
  refine ⟨m, hraw, fun a => (StaticAddressMap.retrieve_holds hm a).imp fun x y _ hreads => ?_⟩
  refine ⟨hreads.2, fun p hp => copyFrom_publicSymbol ?_⟩
  have hentry := hreads.1
  rwa [hp] at hentry

end Symbols

end Xrash
