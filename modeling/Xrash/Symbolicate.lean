import Xrash.Process

/-!
# The iOS symbolicators

`symbolicatereport` reads a crash report, `symbolicatexcode` what lldb printed for `bt` and
`image list`. Both go through the lines of a stack, hand the frames of a framework that has a dSYM
in the current directory to `atos`, and print every other line as its tokens.
-/

namespace Xrash

open Py

abbrev Dict := AList fun _ : Str => Str

def dSYMsuffix : Str := ".framework.dSYM".toList

/-- `{f[:-15]: f for f in os.listdir(os.getcwd()) if f.endswith(".framework.dSYM")}`. -/
def dSYMs (listdir : List FileName) : Dict :=
  ((listdir.map (·.chars)).filter (dSYMsuffix <:+ ·)).foldl (fun d f => d.insert (f.rdrop 15) f) ∅

section Scripts

variable {σ : Type}

/-- `s.startswith("0x")`. -/
def hexStart (s : Str) : Bool := "0x".toList <+: s

/-- The body of both loops: `frame` decides whether a line goes to `atos`, and with what; the
answer is printed after the first `n` tokens. -/
def symbolicateLine (h : Host σ) (n : ℕ) (frame : List Str → Py σ (Option Command)) (line : Str) :
    Py σ Unit := do
  let parts := split line
  match ← frame parts with
  | some c =>
    let res ← subprocessRun h c
    print [joinBlank (parts.take n), res.stdout.dropLast]
  | none => print [joinBlank parts]

def reportFrame (arch : Str) (dSYMs : Dict) (parts : List Str) : Py σ (Option Command) := do
  if ← (hexStart <$> item parts 3) <&&> ((· ∈ dSYMs) <$> item parts 1) then
    return some (.atos (← value dSYMs (← item parts 1)) (← item parts 1) arch (← item parts 3)
      (← item parts 2))
  else
    return none

def symbolicatereport (h : Host σ) : Py σ Unit := do
  if h.argv.length < 3 then
    print ["Usage: python3 symbolicatereport.py <crash report file> <arch>".toList]
    exit 1
  let arch ← item h.argv 2
  let stack := splitNewline (← read h (← item h.argv 1))
  stack.forM (symbolicateLine h 3 (reportFrame arch (dSYMs h.listdir)))

/-- `[line[line.find('frame #'):] for line in stack if "frame #" in line]`. -/
def frames (stack : List Str) : List Str :=
  (stack.filter ("frame #".toList <:+: ·)).map fun line =>
    line.drop ((find "frame #".toList line).getD (line.length - 1))

/-- One line of the image list. -/
def imageLine (images : Dict) (image : Str) : Py σ Dict := do
  if ¬ ".framework".toList <:+: image then
    return images
  let parts := (split (← item (image.splitOn '/') 0)).filter ("0x".toList <:+: ·)
  if parts.length = 1 then
    let base ← item parts 0
    return images.insert (strip (← item (image.splitOn '/') (-1))) base
  else
    return images

def images (raw_images : List Str) : Py σ Dict := raw_images.foldlM imageLine ∅

def xcodeFrame (arch : Str) (dSYMs images : Dict) (parts : List Str) : Py σ (Option Command) := do
  if ← (hexStart <$> item parts 2) <&&> ((· ∈ dSYMs) <$> item parts 3)
      <&&> ((· ∈ images) <$> item parts 3) then
    return some (.atos (← value dSYMs (← item parts 3)) (← item parts 3) arch
      (← value images (← item parts 3)) (← item parts 2))
  else
    return none

def symbolicatexcode (h : Host σ) : Py σ Unit := do
  if h.argv.length < 4 then
    print ["Usage: python3 symbolicatexcode.py <bt file> <image list file> <arch>".toList]
    exit 1
  let arch ← item h.argv 3
  let stack := frames (splitNewline (← read h (← item h.argv 1)))
  let raw_images := splitNewline (← read h (← item h.argv 2))
  let images ← images raw_images
  stack.forM (symbolicateLine h 4 (xcodeFrame arch (dSYMs h.listdir) images))

end Scripts

end Xrash
