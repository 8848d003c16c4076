import Xrash.Frames
import Xrash.Lldb

/-!
# One crash, written twice

A `Crash` is a list of loaded images, the dSYMs at hand and a stack of frames, together with the
three files it is written to: a crash report, and what lldb prints for `bt` and `image list`.
-/

namespace Xrash

def digitValue (c : Char) : ℕ :=
  if c.toNat ≤ 57 then c.toNat - 48 else if c.toNat ≤ 70 then c.toNat - 55 else c.toNat - 87

def hexValue (digits : Str) : ℕ := digits.foldl (fun n c => 16 * n + digitValue c) 0

/-- The text is `0x` and hex digits that stand for `n`, however many zeros come first. -/
def Denotes (s : Str) (n : ℕ) : Prop :=
  ∃ digits, s = "0x".toList ++ digits ∧ digits ≠ [] ∧ (∀ c ∈ digits, HexDigit c)
    ∧ hexValue digits = n

/-- White space between two fields of a report. -/
def Gap (g : Str) : Prop := g ≠ [] ∧ ∀ c ∈ g, c = ' ' ∨ c = '\t'

structure Image where
  base : ℕ
  path : Str
  path_abs : path.head? = some '/'
  path_line : OneLine path
  name_token : Token (basename path)

def Image.name (i : Image) : Str := basename i.path

def Image.InFramework (i : Image) : Prop := ".framework".toList <:+: i.path

/-- A frame, with the text of its index and of its address. -/
structure Frame where
  index : Str
  image : Image
  address : ℕ
  addr : Str
  index_digits : index ≠ [] ∧ ∀ c ∈ index, DecDigit c
  addr_denotes : Denotes addr address

def Frame.name (f : Frame) : Str := f.image.name

/-- `frame #index: addr name`. -/
def Frame.traceText (f : Frame) : Str :=
  "frame #".toList ++ (f.index ++ (": ".toList ++ (f.addr ++ (' ' :: f.name))))

/-- A frame as a report writes it, `index name addr base + offset`. -/
structure ReportFrame extends Frame where
  base : Str
  offset : Str
  base_denotes : Denotes base image.base
  offset_digits : offset ≠ [] ∧ ∀ c ∈ offset, DecDigit c
  gaps : Fin 5 → Str
  gaps_gap : ∀ i, Gap (gaps i)

def ReportFrame.line (f : ReportFrame) : Str :=
  f.index ++ (f.gaps 0 ++ (f.name ++ (f.gaps 1 ++ (f.addr ++ (f.gaps 2 ++ (f.base ++ (f.gaps 3
    ++ ('+' :: (f.gaps 4 ++ f.offset)))))))))

/-- The lines of a backtrace: its frames in order, indented, and marked if selected, with lines
that do not have `frame #` in them anywhere between. -/
inductive Backtrace : List Frame → List Str → Prop
  | nil : Backtrace [] []
  | header {l : Str} {fs : List Frame} {ls : List Str} (hl : ¬ "frame #".toList <:+: l)
      (ho : OneLine l) (h : Backtrace fs ls) : Backtrace fs (l :: ls)
  | frame {indent mark : Str} {fs : List Frame} {ls : List Str} (f : Frame)
      (hi : Blank indent ∧ OneLine indent) (hm : mark = [] ∨ mark = "* ".toList)
      (h : Backtrace fs ls) : Backtrace (f :: fs) ((indent ++ (mark ++ f.traceText)) :: ls)

structure Crash where
  images : List Image
  dir : List FileName
  arch : CStr
  frames : List ReportFrame
  records : List ImageRecord
  bt : List Str
  il : List Str
  names_nodup : (images.map (·.name)).Nodup
  dSYMs_frameworks : ∀ name, HasDSYM dir name → ∃ i ∈ images, i.name = name ∧ i.InFramework
  frames_ne : frames ≠ []
  frames_images : ∀ f ∈ frames, f.image ∈ images
  records_images : List.Forall₂ (fun i r => r.path = i.path ∧ Denotes r.base i.base) images records
  bt_frames : Backtrace (frames.map (·.toFrame)) bt
  il_records : ImageListing records il

namespace Crash

def reportText (c : Crash) : Str := joinNewline (c.frames.map (·.line))

def btText (c : Crash) : Str := joinNewline c.bt

def ilText (c : Crash) : Str := joinNewline c.il

end Crash

/-- What there is to ask about a frame, if there is a dSYM for it. -/
def Frame.query (arch : Str) (dir : List FileName) (f : Frame) (base : Str) : Option Command :=
  if HasDSYM dir f.name then some (atosFor arch f.name base f.addr) else none

/-- The line that answers a frame of a report. -/
def ReportFrame.answered (f : ReportFrame) : Option Str → Str
  | some answer => joinBlank [f.index, f.name, f.addr, answer]
  | none => joinBlank [f.index, f.name, f.addr, f.base, "+".toList, f.offset]

/-- The line that answers a frame of a backtrace. -/
def Frame.answered (f : Frame) : Option Str → Str
  | some answer =>
    joinBlank ["frame".toList, '#' :: (f.index ++ [':']), f.addr, f.name, answer]
  | none => joinBlank ["frame".toList, '#' :: (f.index ++ [':']), f.addr, f.name]

/-- The symboliser reads a load base as a number. -/
def Symboliser.ReadsBase (a : Symboliser) : Prop :=
  ∀ arch name addr base base' n, Denotes base n → Denotes base' n →
    a.answer (atosFor arch name base addr).text = a.answer (atosFor arch name base' addr).text

end Xrash
