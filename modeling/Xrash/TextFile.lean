import Xrash.Text

/-!
# Files in text mode

A file is bytes, which text mode decodes from UTF-8 as it reads them: the whole of the file for
`read`, and for `readline` one chunk after the other until the text has a line. What cannot be
decoded raises an exception, also where it stands behind the line in the same chunk.
-/

namespace Xrash

abbrev Bytes := List UInt8

/-- A decoder between two bytes: how many more its character takes, the range the next one has to
be in, and the number that the ones before it make. -/
structure Utf8 where
  more : ℕ
  low : ℕ
  high : ℕ
  number : ℕ
  deriving DecidableEq

namespace Utf8

/-- Between two characters. -/
def start : Utf8 := ⟨0, 0, 0, 0⟩

/-- The first byte of a character. -/
def lead (b : ℕ) : Option (Option Char × Utf8) :=
  if b < 0x80 then some (some (Char.ofNat b), start)
  else if 0xC2 ≤ b ∧ b ≤ 0xDF then some (none, ⟨1, 0x80, 0xBF, b - 0xC0⟩)
  else if 0xE0 ≤ b ∧ b ≤ 0xEF then
    -- no number that takes fewer bytes, and no surrogate
    some (none, ⟨2, if b = 0xE0 then 0xA0 else 0x80, if b = 0xED then 0x9F else 0xBF, b - 0xE0⟩)
  else if 0xF0 ≤ b ∧ b ≤ 0xF4 then
    some (none, ⟨3, if b = 0xF0 then 0x90 else 0x80, if b = 0xF4 then 0x8F else 0xBF, b - 0xF0⟩)
  else none

/-- The next byte, with the character that it completes. -/
def step (d : Utf8) (b : UInt8) : Option (Option Char × Utf8) :=
  match d.more with
  | 0 => lead b.toNat
  | more + 1 =>
    if d.low ≤ b.toNat ∧ b.toNat ≤ d.high then
      let number := 64 * d.number + (b.toNat - 0x80)
      if more = 0 then some (some (Char.ofNat number), start)
      else some (none, ⟨more, 0x80, 0xBF, number⟩)
    else none

/-- `decode` of an incremental decoder: the text of the bytes, where the last character may be cut
off. -/
def decode (d : Utf8) : Bytes → Option (Str × Utf8)
  | [] => some ([], d)
  | b :: bytes => do
    let (c, d) ← d.step b
    let (s, d) ← decode d bytes
    return (c.toList ++ s, d)

end Utf8

/-- What the methods of a file opened in text mode return, if it can be decoded. -/
structure TextFile where
  read : Option Str
  readline : Option Str

namespace TextFile

/-- The number of bytes text mode reads at once. -/
def CHUNK_SIZE : ℕ := 8192

/-- The text has a line. Of a carriage return at its end it is not known yet whether a newline
follows. -/
def HasLine (s : Str) : Prop := '\n' ∈ s ∨ '\r' ∈ s.dropLast

instance (s : Str) : Decidable (HasLine s) := inferInstanceAs (Decidable (_ ∨ _))

/-- `readline` when the text read so far is `s`. -/
def readlineFrom (s : Str) (d : Utf8) (bytes : Bytes) : Option Str :=
  if HasLine s then some (Xrash.readline (universalNewlines s))
  else if _h : bytes = [] then
    if d = .start then some (Xrash.readline (universalNewlines s)) else none
  else
    match d.decode (bytes.take CHUNK_SIZE) with
    | none => none
    | some (s', d) => readlineFrom (s ++ s') d (bytes.drop CHUNK_SIZE)
  termination_by bytes.length
  decreasing_by
    rw [List.length_drop]
    exact Nat.sub_lt (List.length_pos_iff.2 _h) (by decide)

def ofBytes (bytes : Bytes) : TextFile where
  read :=
    match Utf8.start.decode bytes with
    | some (s, d) => if d = .start then some (universalNewlines s) else none
    | none => none
  readline := readlineFrom [] .start bytes

/-- A file that can be decoded, by its text. -/
def ofText (s : Str) : TextFile where
  read := some (universalNewlines s)
  readline := some (Xrash.readline (universalNewlines s))

end TextFile

/-- `line` is the first line of the text that the first `n` bytes of the file make. -/
def Shows (content : Bytes) (n : ℕ) (line : Str) : Prop :=
  ∃ s d, Utf8.start.decode (content.take n) = some (s, d)
    ∧ (TextFile.HasLine s ∨ content.length ≤ n ∧ d = .start)
    ∧ line = readline (universalNewlines s)

/-- The file has a first line, whatever comes after it. -/
def FirstLine (content : Bytes) (line : Str) : Prop := ∃ n, Shows content n line

/-- The chunks that the first line reaches into can be decoded. -/
def Legible (content : Bytes) : Prop :=
  ∃ n line, Shows content (TextFile.CHUNK_SIZE * n) line

end Xrash
