import Xrash.Lib.Bytes

/-!
# Reading a directory

`DirectoryReader` of the minidump writer, which gets the entries of a directory from the kernel a
buffer at a time. `R` is how the host stores an `unsigned short`.
-/

namespace Xrash

/-- What is left of a directory: the records each `getdents` gives, or `none` where it fails. After
the last one there are no more. -/
abbrev Directory := List (Option (List UInt8))

/-- `sys_getdents`. -/
def sysGetdents : Directory → Option (List UInt8) × Directory
  | [] => (some [], [])
  | data :: directory => (data, directory)

/-- A `kernel_dirent`: with two `long` of a size before its length, or, where the kernel has no
`getdents`, the `kernel_dirent64`, which has two numbers of 64 bits there and a type after it. -/
inductive DirentLayout
  | dirent (long : ℕ)
  | dirent64

namespace DirentLayout

/-- Where `d_reclen` and `d_name` are in a record. -/
def offsetReclen : DirentLayout → ℕ
  | dirent long => 2 * long
  | dirent64 => 16

def offsetName : DirentLayout → ℕ
  | dirent long => 2 * long + 2
  | dirent64 => 19

end DirentLayout

/-- A reader with what its buffer holds. -/
structure DirectoryReader where
  directory : Directory
  hitEof : Bool
  buf : List UInt8

namespace DirectoryReader

variable (R : WordRepr 16) (L : DirentLayout)

/-- The constructor leaves `hit_eof_` as it is. -/
def new (directory : Directory) (hitEof : Bool) : DirectoryReader := ⟨directory, hitEof, []⟩

/-- The name of the record at the start of the buffer. -/
def entryName (buf : List UInt8) : List UInt8 := (buf.drop L.offsetName).takeWhile (· ≠ 0)

/-- The result is the name of an entry, if there is one. -/
def getNextEntry (r : DirectoryReader) : Option (List UInt8) × DirectoryReader :=
  if r.buf = [] then
    match sysGetdents r.directory with
    | (none, directory) => (none, { r with directory := directory })
    | (some [], directory) => (none, { r with directory := directory, hitEof := true })
    | (some (b :: data), directory) =>
      (some (entryName L (b :: data)), { r with directory := directory, buf := b :: data })
  else (some (entryName L r.buf), r)

/-- There is no result where a record is longer than what the buffer holds. -/
def popEntry (r : DirectoryReader) : Option DirectoryReader :=
  if r.buf = [] then some r
  else
    match R.readAt r.buf L.offsetReclen with
    | none => none
    | some reclen =>
      if reclen.toNat ≤ r.buf.length then some { r with buf := r.buf.drop reclen.toNat } else none

/-- What the call after `n` others returns, where each entry is popped. -/
def call : ℕ → DirectoryReader → Option (Option (List UInt8))
  | 0, r => some (r.getNextEntry L).1
  | n + 1, r => ((r.getNextEntry L).2.popEntry R L).bind (call n)

end DirectoryReader

end Xrash
