import Xrash.Lib.Blocks
import Mathlib.Algebra.Group.Nat.Defs

/-!
# The page allocator

`PageAllocator` gets pages from the kernel and hands them out in blocks, which are only freed all
together. Addresses and sizes have `w` bits. What `mmap` returns is up to the kernel, and a
parameter of each call.
-/

namespace Xrash

/-- Where pages were mapped and how many, the last ones first, which is what the chain of headers at
their starts says; the page that is handed out, and how much of it is. -/
structure PageAllocator where
  pageSize : ℕ
  headers : List (ℕ × ℕ)
  currentPage : Option ℕ
  pageOffset : ℕ
  pagesAllocated : ℕ

namespace PageAllocator

variable (w : ℕ)

def new (pageSize : ℕ) : PageAllocator := ⟨pageSize, [], none, 0, 0⟩

/-- `sizeof(PageHeader)`: a pointer and a `size_t`. -/
def sizeofHeader : ℕ := 2 * (w / 8)

/-- Unsigned subtraction. -/
def sub (a b : ℕ) : ℕ := (a + 2 ^ w - b) % 2 ^ w

/-- `GetNPages`, with what `mmap` returns for a size. -/
def getNPages (m : PageAllocator) (mmap : ℕ → Option ℕ) (numPages : ℕ) :
    Option (ℕ × PageAllocator) :=
  (mmap (m.pageSize * numPages % 2 ^ w)).map fun a => (a, { m with
    headers := (a, numPages) :: m.headers
    pagesAllocated := (m.pagesAllocated + numPages) % 2 ^ w })

def alloc (m : PageAllocator) (mmap : ℕ → Option ℕ) (bytes : ℕ) : Option ℕ × PageAllocator :=
  if bytes = 0 then (none, m)
  else
    match m.currentPage.filter fun _ => bytes ≤ m.pageSize - m.pageOffset with
    | some page =>
      let pageOffset := m.pageOffset + bytes
      (some (page + m.pageOffset),
        if pageOffset = m.pageSize then { m with pageOffset := 0, currentPage := none }
        else { m with pageOffset := pageOffset })
    | none =>
      let pages := (bytes + sizeofHeader w + m.pageSize - 1) % 2 ^ w / m.pageSize
      match m.getNPages w mmap pages with
      | none => (none, m)
      | some (ret, m) =>
        let pageOffset := sub w m.pageSize
          (sub w (m.pageSize * pages % 2 ^ w) ((bytes + sizeofHeader w) % 2 ^ w)) % m.pageSize
        (some (ret + sizeofHeader w), { m with
          pageOffset := pageOffset
          currentPage := if pageOffset = 0 then none else some (ret + m.pageSize * (pages - 1)) })

/-- The pages of a header. -/
def pages (m : PageAllocator) (header : ℕ × ℕ) : Block := ⟨header.1, m.pageSize * header.2⟩

/-- What `FreeAll` unmaps. -/
def freeAll (m : PageAllocator) : List Block := m.headers.map m.pages

def ownsPointer (m : PageAllocator) (p : ℕ) : Bool := m.headers.any fun h => (m.pages h).Has p

/-! ## Runs -/

/-- The kernel maps memory that is not mapped yet, and none where nothing is asked for. -/
def Fresh (m : PageAllocator) (mmap : ℕ → Option ℕ) : Prop :=
  ∀ n a, mmap n = some a → 0 < n ∧ 0 < a ∧ a + n ≤ 2 ^ w ∧
    ∀ h ∈ m.headers, Block.Apart ⟨a, n⟩ (m.pages h)

/-- An allocator and the blocks it has handed out, the latest first. -/
inductive Reaches (pageSize : ℕ) : PageAllocator → List Block → Prop
  | new : Reaches pageSize (new pageSize) []
  | alloc {m m' : PageAllocator} {blocks : List Block} {mmap : ℕ → Option ℕ} {bytes a : ℕ}
    (h : Reaches pageSize m blocks) (hmmap : Fresh w m mmap) (hbytes : bytes < 2 ^ w)
    (halloc : m.alloc w mmap bytes = (some a, m')) : Reaches pageSize m' (⟨a, bytes⟩ :: blocks)
  | fail {m m' : PageAllocator} {blocks : List Block} {mmap : ℕ → Option ℕ} {bytes : ℕ}
    (h : Reaches pageSize m blocks) (hmmap : Fresh w m mmap) (hbytes : bytes < 2 ^ w)
    (halloc : m.alloc w mmap bytes = (none, m')) : Reaches pageSize m' blocks

end PageAllocator

end Xrash
