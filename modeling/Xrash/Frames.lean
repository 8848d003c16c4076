import Xrash.Symbolicate

/-!
# What the symbolicators are for

A symboliser answers each command with one line. Against it the scripts have a meaning of their
own: which tokens of a line are the frame's module, address and load base (`reportCommand`,
`xcodeCommand`), which base an image list gives a module (`imageBase`: the last line of the list
that gives one), and the line that is printed for a frame (`printed`).
-/

namespace Xrash

/-- A symboliser that always succeeds, with one newline-terminated line. -/
structure Symboliser where
  answer : Str → Str
  oneLine : ∀ c, '\n' ∉ answer c

/-- A script run on `args` in a directory listed as `dir`, where `files` gives the text of each
file. -/
def scriptHost {σ : Type} (prog : Str) (args : List Str) (files : Str → Str) (dir : List FileName)
    (shell : Str → σ → CompletedProcess × σ) : Host σ where
  argv := prog :: args
  file := prog
  listdir := dir
  files p _ := some (.ofText (files p))
  shell := shell

def Symboliser.shell (a : Symboliser) (c : Str) (_ : Unit) : CompletedProcess × Unit :=
  (⟨0, a.answer c ++ ['\n']⟩, ())

def fresh {σ : Type} (world : σ) : Trace σ := ⟨[], [], world⟩

/-- `<name>.framework.dSYM` is in the directory. -/
def HasDSYM (dir : List FileName) (name : Str) : Prop := ∃ d ∈ dir, d.chars = name ++ dSYMsuffix

instance (dir : List FileName) (name : Str) : Decidable (HasDSYM dir name) :=
  inferInstanceAs (Decidable (∃ d ∈ dir, _))

def atosFor (arch name base addr : Str) : Command :=
  .atos (name ++ dSYMsuffix) name arch base addr

/-- The command for a line of a crash report: `index name address base ...`. -/
def reportCommand (arch : Str) (dir : List FileName) : List Str → Option Command
  | _ :: name :: addr :: base :: _ =>
    if hexStart base ∧ HasDSYM dir name then some (atosFor arch name base addr) else none
  | _ => none

/-- The name and the load base a line of an image list gives, if it does. -/
def imageEntry (image : Str) : Option (Str × Str) :=
  if ".framework".toList <:+: image then
    match (split (image.takeWhile (· ≠ '/'))).filter ("0x".toList <:+: ·) with
    | [base] => some (strip (image.rtakeWhile (· ≠ '/')), base)
    | _ => none
  else none

/-- The load base an image list gives a name: that of its last line that gives one. -/
def imageBase (il : List Str) (name : Str) : Option Str :=
  (il.filterMap imageEntry).reverse.lookup name

/-- The command for a frame of a backtrace: `frame #index: address name ...`. -/
def xcodeCommand (arch : Str) (dir : List FileName) (il : List Str) : List Str → Option Command
  | _ :: _ :: addr :: name :: _ =>
    match imageBase il name with
    | some base =>
      if hexStart addr ∧ HasDSYM dir name then some (atosFor arch name base addr) else none
    | none => none
  | _ => none

/-- The line printed for a frame: its first tokens and the answer, or all its tokens. -/
def printed (a : Symboliser) (n : ℕ) (parts : List Str) : Option Command → Str
  | some c => joinBlank [joinBlank (parts.take n), a.answer c.text]
  | none => joinBlank parts

end Xrash
