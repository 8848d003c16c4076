import Xrash.StaticMap
import Xrash.Proofs.Serializer

/-!
# Symbol records

The lines, functions and public symbols of a module: how they are serialized, and how
`FastSourceLineResolver` takes them from memory.
-/

namespace Xrash

namespace Symbols

/-- A name, which holds no NUL. -/
structure CString where
  str : List UInt8
  zero_notMem : 0 ∉ str

structure Line (w : ℕ) where
  address : BitVec w
  size : BitVec w
  sourceFileId : BitVec 32
  line : BitVec 32

structure Function (w : ℕ) where
  name : CString
  address : BitVec w
  size : BitVec w
  parameterSize : BitVec 32
  isMultiple : Bool
  lines : RangeMap w (Option (Line w))

structure PublicSymbol (w : ℕ) where
  name : CString
  address : BitVec w
  parameterSize : BitVec 32
  isMultiple : Bool

/-! ## Serializers -/

variable {w : ℕ} (h : Abi (BitVec w))

def string : SimpleSerializer CString where
  sizeOf s := s.str.length + 1
  write s := s.str ++ [0]
  sizeOf_eq _ _ := by rw [List.length_append, List.length_singleton]

def line : SimpleSerializer (Line w) where
  sizeOf _ := h.key.size + h.key.size + h.u32.size + h.u32.size
  write l := h.key.write l.address ++ (h.key.write l.size ++
    (h.u32.write l.sourceFileId ++ h.u32.write l.line))
  sizeOf_eq l _ := by
    simp only [List.length_append, MemRepr.length_write]
    omega

/-- `SizeOf` adds the parts up in an `unsigned int`. -/
def function : SimpleSerializer (Function w) where
  sizeOf f := (string.sizeOf f.name + h.key.size + h.key.size + h.u32.size +
    h.rangeMapSizeOf (line h).linkedPtr f.lines) % 2 ^ 32
  write f := string.write f.name ++ (h.key.write f.address ++ (h.key.write f.size ++
    (h.u32.write f.parameterSize ++ h.rangeMapWrite (line h).linkedPtr f.lines)))
  sizeOf_eq f hlt := by
    simp only [List.length_append, MemRepr.length_write] at hlt ⊢
    rw [string.sizeOf_eq f.name (by omega), h.rangeMapSizeOf_eq _ (by omega),
      Nat.mod_eq_of_lt (by omega)]
    omega

def publicSymbol : SimpleSerializer (PublicSymbol w) where
  sizeOf p := string.sizeOf p.name + h.key.size + h.u32.size
  write p := string.write p.name ++ (h.key.write p.address ++ h.u32.write p.parameterSize)
  sizeOf_eq p hlt := by
    simp only [List.length_append, MemRepr.length_write] at hlt ⊢
    rw [string.sizeOf_eq p.name (by omega)]
    omega

/-! ## FastSourceLineResolver -/

/-- The string at a position, up to its NUL. -/
def cstringAt (mem : List UInt8) (pos : ℕ) : Option (List UInt8) :=
  if 0 ∈ mem.drop pos then some ((mem.drop pos).takeWhile (· ≠ 0)) else none

/-- A function in memory, whose lines stay there. `CopyFrom` leaves the other field as it was. -/
structure FastFunction (w : ℕ) where
  name : List UInt8
  address : BitVec w
  size : BitVec w
  parameterSize : BitVec 32
  lines : StaticMap

structure FastPublicSymbol (w : ℕ) where
  name : List UInt8
  address : BitVec w
  parameterSize : BitVec 32

variable (mem : List UInt8) (raw : ℕ)

def Line.copyFrom : Option (Line w) := do
  let address ← h.key.readAt mem raw
  let size ← h.key.readAt mem (raw + h.key.size)
  let sourceFileId ← h.u32.readAt mem (raw + 2 * h.key.size)
  let line ← h.u32.readAt mem (raw + 2 * h.key.size + h.u32.size)
  return ⟨address, size, sourceFileId, line⟩

def FastFunction.copyFrom : Option (FastFunction w) := do
  let name ← cstringAt mem raw
  let nameSize := name.length + 1
  let address ← h.key.readAt mem (raw + nameSize)
  let size ← h.key.readAt mem (raw + nameSize + h.key.size)
  let parameterSize ← h.u32.readAt mem (raw + nameSize + 2 * h.key.size)
  let lines ← StaticMap.ofRaw h mem (raw + nameSize + 2 * h.key.size + h.u32.size)
  return ⟨name, address, size, parameterSize, lines⟩

def FastPublicSymbol.copyFrom : Option (FastPublicSymbol w) := do
  let name ← cstringAt mem raw
  let nameSize := name.length + 1
  let address ← h.key.readAt mem (raw + nameSize)
  let parameterSize ← h.u32.readAt mem (raw + nameSize + h.key.size)
  return ⟨name, address, parameterSize⟩

end Symbols

end Xrash
