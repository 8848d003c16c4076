import Xrash.Store

/-!
# Where Breakpad looks

A symbol file starts with the record `MODULE os arch id name`. SimpleSymbolSupplier looks the
module up below its root in the directory of its name, there in the directory of its identifier,
under its name with the extension `.sym` in place of `.pdb`.
-/

namespace Xrash

/-- `MODULE os arch id name`. -/
def moduleRecord (os arch id name : Str) : Str :=
  "MODULE".toList ++ ' ' :: (os ++ ' ' :: (arch ++ ' ' :: (id ++ ' ' :: name)))

/-- A symbol file in the working directory: the bytes of its record, and those after it. -/
structure ModuleFile where
  file : FileName
  os : Str
  arch : Str
  id : FileName
  name : FileName
  eol : Str
  head : Bytes
  rest : Bytes
  file_sym : symSuffix <:+ file.chars
  os_token : Token os
  arch_token : Token arch
  id_token : Token id.chars
  id_component : Component id.chars
  name_component : Component name.chars
  name_line : OneLine name.chars
  eol_newline : eol = "\n".toList ∨ eol = "\r\n".toList
  head_text : Utf8.start.decode head
    = some (moduleRecord os arch id.chars name.chars ++ eol, .start)

namespace ModuleFile

def header (m : ModuleFile) : Str := moduleRecord m.os m.arch m.id.chars m.name.chars

/-- The first line of the file, as text mode has it. -/
def line (m : ModuleFile) : Str := m.header ++ ['\n']

def content (m : ModuleFile) : Bytes := m.head ++ m.rest

end ModuleFile

/-- The name with a trailing `.pdb` removed. -/
def stem (name : Str) : Str := if ".pdb".toList <:+ name then name.rdrop 4 else name

/-- Where the supplier looks for the module, below its root. -/
def ModuleFile.supplierPath (m : ModuleFile) : List Str :=
  [m.name.chars, m.id.chars, stem m.name.chars ++ symSuffix]

/-- A working directory whose symbol files are `modules`, listed as `dir`: an entry ends in `.sym`
exactly if it is one of them. -/
structure SymbolDir where
  modules : List ModuleFile
  files : Str → Option Bytes
  dir : List FileName
  files_nodup : (modules.map (·.file.chars)).Nodup
  modules_nodup : (modules.map fun m => (m.name.chars, m.id.chars)).Nodup
  files_sym : ∀ s, symSuffix <:+ s → ∀ c,
    files s = some c ↔ ∃ m ∈ modules, m.file.chars = s ∧ m.content = c
  dir_nodup : dir.Nodup
  listed : ∀ e : FileName, e ∈ dir ∧ ".sym".toList <:+ e.chars ↔ ∃ m ∈ modules, m.file = e

/-- What there can be at `sym` before the copy loop: a regular file of this name, if the directory
has one, and otherwise what earlier runs left. -/
def SymbolDir.Starts (D : SymbolDir) (other : Str → WorkDir → CompletedProcess × WorkDir)
    (T : FileTree Str Bytes) : Prop :=
  match D.files "sym".toList with
  | some c => T = FileTree.ofFile c
  | none => Left other T

/-- Whatever the shell does with texts that are not commands of the store, and whatever earlier
runs left, the copy loop ends and the supplier then finds the content of every symbol file. -/
def SymbolDir.Found (D : SymbolDir) : Prop := ∀ other T, D.Starts other T →
  ∃ t, copyRun other D.files D.dir T = .ok () t
    ∧ ∀ m ∈ D.modules, t.world.sym m.supplierPath = some (.file m.content)

/-- The chunks of the file that its record reaches into can be decoded, the module's name has no
white space, the file is named as the supplier has it, and the shell reads back the strings that
make its commands. -/
structure ModuleFile.Filed (m : ModuleFile) : Prop where
  legible : Legible m.content
  name_noSpace : ∀ c ∈ m.name.chars, isSpace c = false
  file_eq : m.file.chars = stem m.name.chars ++ symSuffix
  dir_inert : Shell.Inert (storeDir m.name.chars m.id.chars)
  file_inert : Shell.Inert m.file.chars
  file_noDash : m.file.chars.head? ≠ some '-'

end Xrash
