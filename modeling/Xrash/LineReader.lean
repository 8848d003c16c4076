import Xrash.Text

/-!
# Reading a file line by line

`LineReader` of the minidump writer, which reads a file through a buffer of its own, and
`ProcCpuInfoReader`, which takes the lines of `/proc/cpuinfo` apart. Of the functions that the
repository only declares, `my_isspace` is a parameter, and `my_memchr` is taken for `memchr`.
-/

namespace Xrash

/-- What is left to read of a file: the data each `read` would give if it asked for all of it, or
`none` where it fails. After the last one the file is at its end. -/
abbrev File := List (Option Str)

/-- `sys_read` of at most `n` bytes. -/
def sysRead (n : ℕ) : File → Option Str × File
  | [] => (some [], [])
  | none :: file => (none, file)
  | some c :: file => (some (c.take n), if c.length ≤ n then file else some (c.drop n) :: file)

def kMaxLineLen : ℕ := 512

/-- A reader with what its buffer holds. -/
structure LineReader where
  file : File
  hitEof : Bool
  buf : Str

namespace LineReader

def new (file : File) : LineReader := ⟨file, false, []⟩

/-- The end of a line, or a NUL. -/
def isEnd (c : Char) : Bool := c = '\n' || c = '\x00'

/-- The bytes that are left to read. -/
def fileSize (file : File) : ℕ := (file.map fun c => (c.getD []).length).sum

theorem sysRead_some {n : ℕ} {file file' : File} {data : Str}
    (h : sysRead n file = (some data, file')) :
    data.length ≤ n ∧ fileSize file = data.length + fileSize file' := by
  rcases file with _ | ⟨_ | c, file⟩
  · cases h
    exact ⟨Nat.zero_le n, rfl⟩
  · cases h
  · cases h
    rw [List.length_take]
    refine ⟨Nat.min_le_left .., ?_⟩
    unfold fileSize
    split_ifs with hle
    · simp only [List.map_cons, List.sum_cons, Option.getD_some]
      omega
    · simp only [List.map_cons, List.sum_cons, Option.getD_some, List.length_drop]
      omega

/-- `GetNextLine`: the line, if there is one, which stays at the front of the buffer with a NUL
after it. -/
def getNextLine (r : LineReader) : Option Str × LineReader :=
  if r.buf = [] ∧ r.hitEof then (none, r)
  else
    match r.buf.findIdx? isEnd with
    | some i => (some (r.buf.take i), { r with buf := r.buf.set i '\x00' })
    | none =>
      -- a line that fills the buffer is too long
      if r.buf.length = kMaxLineLen then (none, r)
      else if _heof : r.hitEof then (some r.buf, { r with buf := r.buf ++ ['\x00'] })
      else
        match _h : sysRead (kMaxLineLen - r.buf.length) r.file with
        | (none, file) => (none, { r with file := file })
        | (some [], file) => getNextLine ⟨file, true, r.buf⟩
        | (some (c :: data), file) => getNextLine ⟨file, false, r.buf ++ c :: data⟩
  termination_by (kMaxLineLen - r.buf.length) + (if r.hitEof then 0 else 1)
  decreasing_by
  · rw [if_neg _heof]
    simp only [if_true]
    omega
  · have hlen := (sysRead_some (by assumption)).1
    rw [List.length_cons] at hlen
    rw [if_neg _heof, List.length_append, List.length_cons]
    simp only [if_false]
    omega

def popLine (r : LineReader) (len : ℕ) : LineReader := { r with buf := r.buf.drop (len + 1) }

/-- What the call after `n` others returns, where each line is popped. -/
def call : ℕ → LineReader → Option Str
  | 0, r => r.getNextLine.1
  | n + 1, r =>
    match r.getNextLine with
    | (none, r) => call n r
    | (some line, r) => call n (r.popLine line.length)

/-- The bytes that are not popped yet. -/
def size (r : LineReader) : ℕ := r.buf.length + fileSize r.file

theorem size_popLine {r r' : LineReader} {line : Str} (h : r.getNextLine = (some line, r')) :
    (r'.popLine line.length).size < r.size := by
  fun_induction getNextLine r with
  | case1 r hend => cases h
  | case2 r hne i hi =>
    cases h
    obtain ⟨hlt, -⟩ := List.findIdx?_eq_some_iff_getElem.1 hi
    unfold size popLine
    simp only [List.length_take, List.length_drop, List.length_set]
    omega
  | case3 r hne hno hfull => cases h
  | case4 r hne hno hfull heof =>
    cases h
    have hpos : r.buf ≠ [] := fun hnil => hne ⟨hnil, heof⟩
    have := List.length_pos_iff.2 hpos
    unfold size popLine
    simp only [List.length_drop, List.length_append, List.length_singleton]
    omega
  | case5 r hne hno hfull heof file hread => cases h
  | case6 r hne hno hfull heof file hread ih =>
    have hsize := (sysRead_some hread).2
    have hlt := ih h
    unfold size at hlt ⊢
    simp only [List.length_nil] at hlt hsize
    omega
  | case7 r hne hno hfull heof c data file hread ih =>
    have hsize := (sysRead_some hread).2
    have hlt := ih h
    unfold size at hlt ⊢
    simp only [List.length_append] at hlt
    omega

end LineReader

structure ProcCpuInfoReader where
  lineReader : LineReader
  popCount : Option ℕ

namespace ProcCpuInfoReader

open LineReader

variable (isspace : Char → Bool)

def new (file : File) : ProcCpuInfoReader := ⟨.new file, none⟩

/-- The name and the value in a line, if it has both a colon and a name. -/
def fieldOf (line : Str) : Option (Str × Str) :=
  match line.idxOf? ':' with
  | none => none
  | some sep =>
    let value := (line.drop (sep + 1)).dropWhile isspace
    let name := (line.take sep).rdropWhile isspace
    if name = [] then none else some (name, value)

/-- The loop of `GetNextField`, after the last line has been popped. The name gets a NUL after
it. -/
def nextField (r : LineReader) : Option (Str × Str) × ProcCpuInfoReader :=
  match _h : r.getNextLine with
  | (none, r) => (none, ⟨r, none⟩)
  | (some line, r) =>
    match fieldOf isspace line with
    | none => nextField (r.popLine line.length)
    | some (name, value) =>
      (some (name, value), ⟨{ r with buf := r.buf.set name.length '\x00' }, some line.length⟩)
  termination_by r.size
  decreasing_by exact size_popLine (by assumption)

def popped (p : ProcCpuInfoReader) : LineReader :=
  match p.popCount with
  | none => p.lineReader
  | some len => p.lineReader.popLine len

/-- `GetNextField` and `GetValue`. -/
def getNextField (p : ProcCpuInfoReader) : Option (Str × Str) × ProcCpuInfoReader :=
  nextField isspace p.popped

/-- What the call after `n` other calls returns. -/
def call : ℕ → ProcCpuInfoReader → Option (Str × Str)
  | 0, p => (getNextField isspace p).1
  | n + 1, p => call n (getNextField isspace p).2

end ProcCpuInfoReader

/-! ## The lines of a text -/

/-- The first line of a text, and the text after it. One that does not fit the buffer is not a line,
nor is anything after it. -/
def nextLine (s : Str) : Option (Str × Str) :=
  if s = [] ∨ kMaxLineLen ≤ (s.takeWhile (!LineReader.isEnd ·)).length then none
  else some (s.takeWhile (!LineReader.isEnd ·), (s.dropWhile (!LineReader.isEnd ·)).tail)

theorem length_nextLine {s line rest : Str} (h : nextLine s = some (line, rest)) :
    rest.length < s.length := by
  unfold nextLine at h
  split_ifs at h with hs
  cases h
  have hpos := List.length_pos_iff.2 (not_or.1 hs).1
  have hdrop := (List.dropWhile_suffix (l := s) (!LineReader.isEnd ·)).length_le
  rw [List.length_tail]
  omega

def lines (s : Str) : List Str :=
  match _h : nextLine s with
  | none => []
  | some (line, rest) => line :: lines rest
  termination_by s.length
  decreasing_by exact length_nextLine (by assumption)

namespace ProcCpuInfoReader

variable (isspace : Char → Bool)

/-- A field in a line: a name, blanks, the first colon, blanks and a value. -/
def IsField (line name value : Str) : Prop :=
  ∃ before after, line = name ++ before ++ ':' :: (after ++ value) ∧ ':' ∉ name ++ before
    ∧ (∀ c ∈ before, isspace c = true) ∧ (∀ c ∈ after, isspace c = true)
    ∧ (∃ h : name ≠ [], isspace (name.getLast h) = false)
    ∧ ∀ h : value ≠ [], isspace (value.head h) = false

/-- The fields in lines. A line that has none is passed over. -/
inductive Fields : List Str → List (Str × Str) → Prop
  | nil : Fields [] []
  | field {line name value : Str} {ls : List Str} {fs : List (Str × Str)}
    (h : IsField isspace line name value) (hs : Fields ls fs) :
    Fields (line :: ls) ((name, value) :: fs)
  | skip {line : Str} {ls : List Str} {fs : List (Str × Str)}
    (h : ∀ name value, ¬ IsField isspace line name value) (hs : Fields ls fs) :
    Fields (line :: ls) fs

end ProcCpuInfoReader

end Xrash
