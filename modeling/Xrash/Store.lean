import Xrash.Shell
import Xrash.FileTree
import Xrash.WalkStack

/-!
# The working directory

The commands of the copy loop act on the files of the working directory and on the tree `sym`.
The shell runs `mkdir -p` and `cp` on operands of the form `sym/.../`; what it does with any other
text is a parameter.
-/

namespace Xrash

/-- A component of a path that names an entry of its directory. -/
def Component (c : Str) : Prop := c ≠ [] ∧ c ≠ ".".toList ∧ c ≠ "..".toList ∧ '/' ∉ c

instance (c : Str) : Decidable (Component c) := inferInstanceAs (Decidable (_ ∧ _))

/-- The path below `sym` of an operand `sym/.../`. -/
def storePath (operand : Str) : Option (List Str) :=
  match operand.splitOn '/' with
  | s :: cs =>
    if s = "sym".toList ∧ cs.getLast? = some [] ∧ ∀ c ∈ cs.dropLast, Component c then
      some cs.dropLast
    else none
  | [] => none

/-- The regular files of the working directory, and what there is at `sym`. -/
structure WorkDir where
  files : Str → Option Bytes
  sym : FileTree Str Bytes

namespace WorkDir

def ends (w : WorkDir) (r : Bool × FileTree Str Bytes) : CompletedProcess × WorkDir :=
  (⟨if r.1 then 0 else 1, []⟩, { w with sym := r.2 })

def mkdir (w : WorkDir) (q : List Str) : CompletedProcess × WorkDir := w.ends (w.sym.mkdirs q)

def cp (w : WorkDir) (s : Str) (q : List Str) : CompletedProcess × WorkDir :=
  match w.files s with
  | some content => w.ends (w.sym.put q s content)
  | none => (⟨1, []⟩, w)

/-- The shell, where it does `other` with a text that is not `mkdir -p` of a directory of the
store or `cp` of a file of the working directory to one. -/
def shell (other : Str → WorkDir → CompletedProcess × WorkDir) (text : Str) (w : WorkDir) :
    CompletedProcess × WorkDir :=
  match Shell.argv text with
  | .ok [cmd, a, b] =>
    match storePath b with
    | some q =>
      if cmd = "mkdir".toList ∧ a = "-p".toList then w.mkdir q
      else if cmd = "cp".toList ∧ a.head? ≠ some '-' ∧ '/' ∉ a then w.cp a q
      else other text w
    | none => other text w
  | _ => other text w

end WorkDir

/-- `walk_stack` in a working directory listed as `dir`. -/
def workHost (other : Str → WorkDir → CompletedProcess × WorkDir) (dir : List FileName) :
    Host WorkDir where
  argv := ["walk_stack.py".toList, "crash.dmp".toList]
  file := "/walk_stack.py".toList
  listdir := dir
  files p w := (w.files p).map .ofBytes
  shell := WorkDir.shell other

/-- A symbol file, whose first line can be decoded. -/
structure SymFile where
  name : FileName
  content : Bytes
  line : Str
  isSym : symSuffix <:+ name.chars
  content_line : FirstLine content line

namespace SymFile

/-- The strings the commands for the file are made of are read back by the shell, are not taken
for options, and name directories of the store. -/
def Safe (f : SymFile) : Prop := ∀ name id, placeOf f.line = some (name, id) →
  Component name ∧ Component id ∧ Shell.Inert (storeDir name id)
    ∧ Shell.Inert f.name.chars ∧ f.name.chars.head? ≠ some '-'

/-- Where the file goes in the store, if it goes there. -/
def deposit (f : SymFile) : Option (Deposit Str Bytes) :=
  (placeOf f.line).map fun (name, id) => ⟨[name, id], f.name.chars, f.content⟩

end SymFile

/-- Symbol files that can be in one directory. -/
structure Supply where
  files : List SymFile
  names_nodup : (files.map (·.name.chars)).Nodup
  safe : ∀ f ∈ files, f.Safe

/-- The supply is what the directory, listed as `dir`, has for symbol files: an entry ends in
`.sym` exactly if it is one of them. -/
structure Supply.In (F : Supply) (files : Str → Option Bytes) (dir : List FileName) : Prop where
  content : ∀ f ∈ F.files, files f.name.chars = some f.content
  dir_nodup : dir.Nodup
  listed : ∀ e : FileName, e ∈ dir ∧ ".sym".toList <:+ e.chars ↔ ∃ f ∈ F.files, f.name = e

/-- A run of the copy loop in a directory with these files and this tree. -/
def copyRun (other : Str → WorkDir → CompletedProcess × WorkDir) (files : Str → Option Bytes)
    (dir : List FileName) (T : FileTree Str Bytes) : EStateM.Result PyError (Trace WorkDir) Unit :=
  (copyLoop (workHost other dir)).run ⟨[], [], ⟨files, T⟩⟩

/-- The trees earlier runs can leave, with or without an exception. -/
inductive Left (other : Str → WorkDir → CompletedProcess × WorkDir) : FileTree Str Bytes → Prop
  | none : Left other FileTree.empty
  | run {T : FileTree Str Bytes} {F : Supply} {files : Str → Option Bytes} {dir : List FileName}
      (h : Left other T) (hF : F.In files dir) :
      Left other (after (copyRun other files dir T)).world.sym

/-- A run of the copy loop over the supply, on any tree earlier runs left and in any order of the
listing, ends without an exception and leaves one and the same tree `S`, which a further run leaves
as it is: each file whose first line has five fields is at its own path with its content, its
directories are there, and every other path is as it was. -/
def Supply.Stored (F : Supply) : Prop := ∀ other files T, Left other T →
  ∃ S : FileTree Str Bytes,
    (∀ dir, F.In files dir →
      (∃ calls, copyRun other files dir T = .ok () ⟨[], calls, ⟨files, S⟩⟩)
        ∧ ∃ calls, copyRun other files dir S = .ok () ⟨[], calls, ⟨files, S⟩⟩)
    ∧ (∀ f ∈ F.files, ∀ name id, placeOf f.line = some (name, id) →
      S [name, id, f.name.chars] = some (.file f.content)
        ∧ ∀ p, p <+: [name, id] → S p = some .dir)
    ∧ (∀ p, (∀ f ∈ F.files, ∀ name id, placeOf f.line = some (name, id) →
      p ≠ [name, id, f.name.chars] ∧ ¬ p <+: [name, id]) → S p = T p)
    ∧ ∀ f ∈ F.files, ∀ g ∈ F.files, f ≠ g → ∀ name id name' id',
      [name, id, f.name.chars] ≠ [name', id', g.name.chars]

end Xrash
