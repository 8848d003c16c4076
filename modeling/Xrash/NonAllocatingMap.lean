import Xrash.Text

/-!
# A map without allocation

`NonAllocatingMap`, a dictionary of C strings in a fixed number of entries, which is what a
`SimpleStringDictionary` is. A C string is given without its NUL; assertions are not compiled in.
-/

namespace Xrash

/-! ## Arrays of characters -/

/-- What `strncpy` writes. -/
def strncpy (s : Str) (n : ℕ) : Str := s.take n ++ List.replicate (n - s.length) '\x00'

/-- Whether `strncmp` of at most `n` characters answers 0. What is past the end of a string reads
as its NUL. -/
def strncmpEq (s t : Str) : ℕ → Bool
  | 0 => true
  | n + 1 => s.headD '\x00' = t.headD '\x00' &&
      (s.headD '\x00' = '\x00' || strncmpEq s.tail t.tail n)

/-- An array of `n` characters with a string in it. -/
def Buffer (n : ℕ) : Type := {s : Str // s.length = n ∧ '\x00' ∈ s}

namespace Buffer

variable {n : ℕ} [NeZero n]

theorem length_strncpy (s : Str) (n : ℕ) : (strncpy s n).length = n := by
  rw [strncpy, List.length_append, List.length_take, List.length_replicate]
  omega

def zero : Buffer n :=
  ⟨List.replicate n '\x00', List.length_replicate, List.mem_replicate.2 ⟨NeZero.ne n, rfl⟩⟩

/-- A NUL in one place. -/
def setNul (s : Str) (hs : s.length = n) (i : ℕ) (hi : i < n) : Buffer n :=
  ⟨s.set i '\x00', by rw [List.length_set, hs], List.mem_set (hs ▸ hi) '\x00'⟩

/-- `strncpy`, and a NUL in the last place. -/
def copy (s : Str) : Buffer n :=
  setNul (strncpy s n) (length_strncpy s n) (n - 1) (Nat.sub_one_lt (NeZero.ne n))

def clear (b : Buffer n) : Buffer n := setNul b.1 b.2.1 0 (Nat.pos_of_neZero n)

omit [NeZero n] in
/-- The string in an array. -/
def str (b : Buffer n) : Str := b.1.takeWhile (· ≠ '\x00')

end Buffer

/-! ## The map -/

structure Entry (keySize valueSize : ℕ) where
  key : Buffer keySize
  value : Buffer valueSize

def Entry.isActive {keySize valueSize : ℕ} (e : Entry keySize valueSize) : Bool :=
  e.key.1.head? ≠ some '\x00'

structure NonAllocatingMap (keySize valueSize numEntries : ℕ) where
  entries : List (Entry keySize valueSize)
  length_entries : entries.length = numEntries

namespace NonAllocatingMap

variable {keySize valueSize numEntries : ℕ}

def modify (m : NonAllocatingMap keySize valueSize numEntries) (i : ℕ)
    (f : Entry keySize valueSize → Entry keySize valueSize) :
    NonAllocatingMap keySize valueSize numEntries :=
  ⟨m.entries.modify i f, by rw [List.length_modify, m.length_entries]⟩

def getCount (m : NonAllocatingMap keySize valueSize numEntries) : ℕ :=
  m.entries.countP Entry.isActive

/-- `Iterator::Next`, from the entry that is current. -/
def next (m : NonAllocatingMap keySize valueSize numEntries) (current : ℕ) :
    Option (Entry keySize valueSize × ℕ) :=
  if h : current < m.entries.length then
    if m.entries[current].isActive then some (m.entries[current], current + 1)
    else next m (current + 1)
  else none
  termination_by m.entries.length - current

theorem next_some {m : NonAllocatingMap keySize valueSize numEntries} {i j : ℕ}
    {e : Entry keySize valueSize} (h : m.next i = some (e, j)) :
    i < j ∧ j ≤ m.entries.length ∧
      (m.entries.drop i).filter (·.isActive) = e :: (m.entries.drop j).filter (·.isActive) := by
  fun_induction next m i with
  | case1 i hi hactive =>
    cases h
    rw [List.drop_eq_getElem_cons hi, List.filter_cons_of_pos hactive]
    exact ⟨Nat.lt_succ_self i, hi, rfl⟩
  | case2 i hi hactive ih =>
    obtain ⟨hlt, hle, heq⟩ := ih h
    rw [List.drop_eq_getElem_cons hi, List.filter_cons_of_neg hactive]
    exact ⟨by omega, hle, heq⟩
  | case3 i hi => cases h

theorem next_none {m : NonAllocatingMap keySize valueSize numEntries} {i : ℕ}
    (h : m.next i = none) : (m.entries.drop i).filter (·.isActive) = [] := by
  fun_induction next m i with
  | case1 i hi hactive => cases h
  | case2 i hi hactive ih =>
    rw [List.drop_eq_getElem_cons hi, List.filter_cons_of_neg hactive]
    exact ih h
  | case3 i hi => rw [List.drop_eq_nil_of_le (Nat.not_lt.1 hi), List.filter_nil]

/-- What an iterator goes through. -/
def iterate (m : NonAllocatingMap keySize valueSize numEntries) (i : ℕ) :
    List (Entry keySize valueSize) :=
  match _h : m.next i with
  | none => []
  | some (e, j) => e :: m.iterate j
  termination_by m.entries.length - i
  decreasing_by
    have hj := next_some _h
    omega

theorem iterate_eq (m : NonAllocatingMap keySize valueSize numEntries) (i : ℕ) :
    m.iterate i = (m.entries.drop i).filter (·.isActive) := by
  fun_induction iterate m i with
  | case1 i h => rw [next_none h]
  | case2 i e j h ih => rw [(next_some h).2.2, ih]

def getEntryIndexForKey (m : NonAllocatingMap keySize valueSize numEntries) (key : Str) : ℕ :=
  m.entries.findIdx fun e => strncmpEq key e.key.1 keySize

/-- The count that `SetKeyValue` checks where assertions are compiled in, once the key is stored. -/
def keyCount (m : NonAllocatingMap keySize valueSize numEntries) (key : Str) : ℕ :=
  m.entries.countP fun e => strncmpEq key e.key.1 keySize

def getValueForKey (m : NonAllocatingMap keySize valueSize numEntries) (key : Str) : Option Str :=
  m.entries[m.getEntryIndexForKey key]?.map (·.value.str)

variable [NeZero keySize] [NeZero valueSize]

def new : NonAllocatingMap keySize valueSize numEntries :=
  ⟨List.replicate numEntries ⟨.zero, .zero⟩, List.length_replicate⟩

def removeAtIndex (m : NonAllocatingMap keySize valueSize numEntries) (index : ℕ) :
    Bool × NonAllocatingMap keySize valueSize numEntries :=
  if numEntries ≤ index then (false, m)
  else (true, m.modify index fun e => ⟨e.key.clear, e.value.clear⟩)

def removeKey (m : NonAllocatingMap keySize valueSize numEntries) (key : Str) :
    Bool × NonAllocatingMap keySize valueSize numEntries :=
  m.removeAtIndex (m.getEntryIndexForKey key)

def setValueAtIndex (m : NonAllocatingMap keySize valueSize numEntries) (index : ℕ) (value : Str) :
    NonAllocatingMap keySize valueSize numEntries :=
  if numEntries ≤ index then m else m.modify index fun e => { e with value := .copy value }

/-- The entry a key is stored in: its own, or the first that is free. -/
def entryIndex (m : NonAllocatingMap keySize valueSize numEntries) (key : Str) :
    ℕ × NonAllocatingMap keySize valueSize numEntries :=
  let index := m.getEntryIndexForKey key
  if index = numEntries then
    let i := m.entries.findIdx (!·.isActive)
    (i, m.modify i fun e => { e with key := .copy key })
  else (index, m)

/-- `SetKeyValue`. No value removes the key. -/
def setKeyValue (m : NonAllocatingMap keySize valueSize numEntries) (key : Str) :
    Option Str → ℕ × NonAllocatingMap keySize valueSize numEntries
  | none => (numEntries, (m.removeKey key).2)
  | some value =>
    if key = [] then (numEntries, m)
    else
      let (index, m) := m.entryIndex key
      if index = numEntries then (numEntries, m)
      else (index, m.modify index fun e => { e with value := .copy value })

/-- An operation that writes to the map. -/
inductive Op
  | setKeyValue (key : Str) (value : Option Str)
  | setValueAtIndex (index : ℕ) (value : Str)
  | removeKey (key : Str)
  | removeAtIndex (index : ℕ)

def Op.apply (m : NonAllocatingMap keySize valueSize numEntries) :
    Op → NonAllocatingMap keySize valueSize numEntries
  | .setKeyValue key value => (m.setKeyValue key value).2
  | .setValueAtIndex index value => m.setValueAtIndex index value
  | .removeKey key => (m.removeKey key).2
  | .removeAtIndex index => (m.removeAtIndex index).2

end NonAllocatingMap

end Xrash
