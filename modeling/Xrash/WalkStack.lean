import Xrash.Process

/-!
# The symbol store

`walk_stack` files the symbol files of the current directory under `sym` before it has a minidump
symbolicated: each goes to the directory the last two of its header's five fields name.
-/

namespace Xrash

open Py

def symSuffix : Str := ".sym".toList

/-- `[f for f in os.listdir(os.getcwd()) if f.endswith(".sym")]`. -/
def syms (listdir : List FileName) : List Str := (listdir.map (·.chars)).filter (symSuffix <:+ ·)

section Script

variable {σ : Type}

/-- The body of the loop over the symbol files. -/
def copySym (h : Host σ) (sym : Str) : Py σ Unit := do
  let f ← openText h sym
  let info := split (← decoded f.readline).dropLast
  if info.length = 5 then
    let dir := format "sym/%s/%s/".toList [← item info (-1), ← item info (-2)]
    let _ ← subprocessRun h (.mkdir dir)
    let _ ← subprocessRun h (.cp sym dir)

def copyLoop (h : Host σ) : Py σ Unit := (syms h.listdir).forM (copySym h)

def walk_stack (h : Host σ) : Py σ Unit := do
  if h.argv.length < 2 then
    print ["Usage: python3 walk_stack.py <.dmp file>".toList]
    exit 1
  let dmp ← item h.argv 1
  let minidump_stackwalk := dirname h.file ++ "/minidump_stackwalk".toList
  copyLoop h
  let _ ← subprocessRun h (.stackwalk minidump_stackwalk dmp)

end Script

/-- The directory the script makes for a module. -/
def storeDir (name id : Str) : Str := "sym/".toList ++ (name ++ ('/' :: (id ++ ['/'])))

/-- The name and the identifier the script reads in the first line of a symbol file. -/
def placeOf (line : Str) : Option (Str × Str) :=
  match split line.dropLast with
  | [_, _, _, id, name] => some (name, id)
  | _ => none

/-- The name and the identifier in a symbol file with this text. -/
def place (content : Str) : Option (Str × Str) := placeOf (readline (universalNewlines content))

/-- The commands for a symbol file that goes to this place, if it goes anywhere. -/
def placeCommands (sym : Str) : Option (Str × Str) → List Command
  | some (name, id) => [.mkdir (storeDir name id), .cp sym (storeDir name id)]
  | none => []

/-- The commands for a symbol file with this first line. -/
def lineCommands (sym line : Str) : List Command := placeCommands sym (placeOf line)

/-- The commands for a symbol file with this text. -/
def symCommands (sym content : Str) : List Command := placeCommands sym (place content)

end Xrash
