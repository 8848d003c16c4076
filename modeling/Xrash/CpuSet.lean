import Xrash.LineReader
import Xrash.Lib.BitMask

/-!
# Sets of processors

`CpuSet` of the minidump writer, which reads the files of `sysfs` that list processors, such as
`0-3,8`. `my_isspace` and `my_read_decimal_ptr` are not in the repository and are parameters; the
latter gives the number at the start of a text and the text after it. `my_memchr`, which is not
there either, is taken for `memchr`. A `uintptr_t` has `w` bits.
-/

namespace Xrash

/-- The maximum number of supported CPUs. -/
def kMaxCpus : ℕ := 1024

def kMaskWordBits : ℕ := 32

def kMaskWordCount : ℕ := (kMaxCpus + kMaskWordBits - 1) / kMaskWordBits

structure CpuSet where
  mask : List (BitVec kMaskWordBits)
  length_mask : mask.length = kMaskWordCount

namespace CpuSet

def new : CpuSet := ⟨List.replicate kMaskWordCount 0, List.length_replicate⟩

def Has (c : CpuSet) (i : ℕ) : Prop := BitMask.Has c.mask i

def setBit (c : CpuSet) (i : ℕ) : CpuSet :=
  if i < kMaxCpus then ⟨BitMask.setBit c.mask i, (List.length_modify ..).trans c.length_mask⟩ else c

def intersectWith (c c' : CpuSet) : CpuSet where
  mask := BitMask.inter c.mask c'.mask
  length_mask := by
    unfold BitMask.inter
    rw [List.length_zipWith, c.length_mask, c'.length_mask, Nat.min_self]

def getCount (c : CpuSet) : ℕ := BitMask.count c.mask

/-- The loop over a range. There is no result where it does not end, as `start` wraps round before
it is past the end. -/
def setRange (w last first : ℕ) (c : CpuSet) : Option CpuSet :=
  if first ≤ last then
    if first + 1 = 2 ^ w then none else setRange w last (first + 1) (c.setBit first)
  else some c
  termination_by last + 1 - first

variable (isspace : Char → Bool) (readDecimal : Str → ℕ × Str)

/-- The current item and what it starts, and the text after it, where leading space is skipped. -/
def splitItem (p : Str) : Str × Str :=
  match p.idxOf? ',' with
  | some len => (p.take len, p.drop (len + 1))
  | none => (p, [])

/-- The range an item starts with. -/
def readRange (item : Str) : ℕ × ℕ :=
  let (start, next) := readDecimal item
  (start, if next.head? = some '-' then (readDecimal next.tail).1 else start)

theorem length_splitItem {p item : Str} (hp : p ≠ []) (h : item.length ≤ p.length) :
    (splitItem item).2.length < p.length := by
  have hpos := List.length_pos_iff.2 hp
  unfold splitItem
  rcases hidx : item.idxOf? ',' with _ | len
  · exact hpos
  · show (item.drop (len + 1)).length < p.length
    rw [List.length_drop]
    omega

/-- The loop of `ParseSysFile` over the items of a text. -/
def parseItems (w : ℕ) (p : Str) (c : CpuSet) : Option CpuSet :=
  if _h : p = [] then some c
  else
    let item := p.dropWhile isspace
    let rest := (splitItem item).2
    if ((splitItem item).1).rdropWhile isspace = [] then parseItems w rest c
    else
      -- the numbers are read from the whole text
      match setRange w (readRange readDecimal item).2 (readRange readDecimal item).1 c with
      | some c => parseItems w rest c
      | none => none
  termination_by p.length
  decreasing_by
  all_goals exact length_splitItem _h (List.dropWhile_suffix _).length_le

def parseSysFile (w : ℕ) (file : File) (c : CpuSet) : Option (Bool × CpuSet) :=
  match (sysRead (512 - 1) file).1 with
  | none => some (false, c)
  | some buffer => (parseItems isspace readDecimal w buffer c).map fun c => (true, c)

end CpuSet

end Xrash
