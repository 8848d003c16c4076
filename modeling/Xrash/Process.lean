import Xrash.TextFile

/-!
# Running a script

A script is a computation over what it has printed, the commands it has handed to the shell and
the state of the world those commands act on. An exception ends it and leaves all three as they
are then. What the interpreter gives a script is its `Host`; the world and what the shell does to
it are parameters.
-/

namespace Xrash

/-- A string the kernel passes on: an argument or a file name holds no NUL. -/
structure CStr where
  chars : Str
  noNul : Char.ofNat 0 ∉ chars
  deriving DecidableEq

/-- The name of a directory entry. -/
structure FileName extends CStr where
  ne : chars ≠ []
  noSlash : '/' ∉ chars
  deriving DecidableEq

/-- The path a script is installed at, links resolved. -/
structure ScriptPath extends CStr where
  abs : chars.head? = some '/'

inductive PyError
  | indexError | keyError | valueError | osError | unicodeDecodeError
  | calledProcessError (returncode : ℕ)
  | systemExit (code : ℕ)
  deriving DecidableEq, Repr

structure CompletedProcess where
  returncode : ℕ
  stdout : Str

/-- The commands the scripts hand to the shell, with the strings they are formatted from. -/
inductive Command
  | atos (dSYM name arch base addr : Str)
  | mkdir (dir : Str)
  | cp (sym dir : Str)
  | stackwalk (tool dmp : Str)
  deriving DecidableEq

def XCRUN : Str := "xcrun atos -o %s/Contents/Resources/DWARF/%s -arch %s -l %s %s".toList

/-- The string handed to the shell. -/
def Command.text : Command → Str
  | .atos dSYM name arch base addr => format XCRUN [dSYM, name, arch, base, addr]
  | .mkdir dir => format "mkdir -p %s".toList [dir]
  | .cp sym dir => format "cp %s %s".toList [sym, dir]
  | .stackwalk tool dmp => format "%s %s sym".toList [tool, dmp]

theorem Command.atos_text (dSYM name arch base addr : Str) :
    (Command.atos dSYM name arch base addr).text = "xcrun atos -o ".toList ++ (dSYM
      ++ ("/Contents/Resources/DWARF/".toList ++ (name ++ (" -arch ".toList ++ (arch
      ++ (" -l ".toList ++ (base ++ (" ".toList ++ addr)))))))) := by
  have h : XCRUN = "xcrun atos -o ".toList ++ ('%' :: 's' :: ("/Contents/Resources/DWARF/".toList
      ++ ('%' :: 's' :: (" -arch ".toList ++ ('%' :: 's' :: (" -l ".toList ++ ('%' :: 's'
      :: (" ".toList ++ ['%', 's'])))))))) := by decide
  rw [text, h, format_text (by decide), format_arg, format_text (by decide), format_arg,
    format_text (by decide), format_arg, format_text (by decide), format_arg,
    format_text (by decide), format_arg, format_nil, List.append_nil]

theorem Command.mkdir_text (dir : Str) : (Command.mkdir dir).text = "mkdir -p ".toList ++ dir := by
  have h : "mkdir -p %s".toList = "mkdir -p ".toList ++ ['%', 's'] := by decide
  rw [text, h, format_text (by decide), format_arg, format_nil, List.append_nil]

theorem Command.cp_text (sym dir : Str) :
    (Command.cp sym dir).text = "cp ".toList ++ (sym ++ (" ".toList ++ dir)) := by
  have h : "cp %s %s".toList = "cp ".toList ++ ('%' :: 's' :: (" ".toList ++ ['%', 's'])) := by
    decide
  rw [text, h, format_text (by decide), format_arg, format_text (by decide), format_arg,
    format_nil, List.append_nil]

theorem Command.stackwalk_text (tool dmp : Str) :
    (Command.stackwalk tool dmp).text = tool ++ (" ".toList ++ (dmp ++ " sym".toList)) := by
  have h : "%s %s sym".toList = '%' :: 's' :: (" ".toList ++ ('%' :: 's' :: (" sym".toList ++ [])))
      := by decide
  rw [text, h, format_arg, format_text (by decide), format_arg, format_text (by decide),
    format_nil, List.append_nil]

/-- The words the command is meant to be. -/
def Command.argv : Command → List Str
  | .atos dSYM name arch base addr =>
    ["xcrun".toList, "atos".toList, "-o".toList,
      dSYM ++ ("/Contents/Resources/DWARF/".toList ++ name), "-arch".toList, arch, "-l".toList,
      base, addr]
  | .mkdir dir => ["mkdir".toList, "-p".toList, dir]
  | .cp sym dir => ["cp".toList, sym, dir]
  | .stackwalk tool dmp => [tool, dmp, "sym".toList]

theorem Command.text_eq (c : Command) : c.text = [' '].intercalate c.argv := by
  cases c with
  | atos dSYM name arch base addr =>
    have h1 : "xcrun atos -o ".toList
        = "xcrun".toList ++ [' '] ++ ("atos".toList ++ [' '] ++ ("-o".toList ++ [' '])) := by decide
    have h2 : " -arch ".toList = [' '] ++ ("-arch".toList ++ [' ']) := by decide
    have h3 : " -l ".toList = [' '] ++ ("-l".toList ++ [' ']) := by decide
    have h4 : " ".toList = [' '] := by decide
    rw [atos_text, h1, h2, h3, h4]
    simp only [argv, List.intercalate_cons_cons, List.intercalate_singleton, List.append_assoc]
  | mkdir dir =>
    have h1 : "mkdir -p ".toList = "mkdir".toList ++ [' '] ++ ("-p".toList ++ [' ']) := by decide
    rw [mkdir_text, h1]
    simp only [argv, List.intercalate_cons_cons, List.intercalate_singleton, List.append_assoc]
  | cp sym dir =>
    have h1 : "cp ".toList = "cp".toList ++ [' '] := by decide
    have h2 : " ".toList = [' '] := by decide
    rw [cp_text, h1, h2]
    simp only [argv, List.intercalate_cons_cons, List.intercalate_singleton, List.append_assoc]
  | stackwalk tool dmp =>
    have h1 : " sym".toList = [' '] ++ "sym".toList := by decide
    have h2 : " ".toList = [' '] := by decide
    rw [stackwalk_text, h1, h2]
    simp only [argv, List.intercalate_cons_cons, List.intercalate_singleton, List.append_assoc]

/-- What a script has done so far, and the world. -/
structure Trace (σ : Type) where
  out : List Str
  calls : List Command
  world : σ

/-- What a script finds when it starts: its arguments, its own path, the names in the current
directory, the files by name, and the shell. -/
structure Host (σ : Type) where
  argv : List Str
  file : Str
  listdir : List FileName
  files : Str → σ → Option TextFile
  shell : Str → σ → CompletedProcess × σ

abbrev Py (σ : Type) := EStateM PyError (Trace σ)

/-- What a script has done when it ends, with or without an exception. -/
def after {σ α : Type} : EStateM.Result PyError (Trace σ) α → Trace σ
  | .ok _ t => t
  | .error _ t => t

namespace Py

variable {σ : Type}

/-- `xs[i]`, with `i` counted from the end when it is negative. -/
def item {α : Type} (xs : List α) (i : ℤ) : Py σ α :=
  let j := if i < 0 then i + xs.length else i
  match (if j < 0 then none else xs[j.toNat]?) with
  | some x => pure x
  | none => throw .indexError

/-- `d[k]` of a dictionary. -/
def value (d : AList fun _ : Str => Str) (k : Str) : Py σ Str :=
  match d.lookup k with
  | some v => pure v
  | none => throw .keyError

def print (args : List Str) : Py σ Unit :=
  modify fun t => { t with out := t.out ++ [joinBlank args] }

def exit (code : ℕ) : Py σ Unit := throw (.systemExit code)

/-- `open(path, "r")`. -/
def openText (h : Host σ) (path : Str) : Py σ TextFile := do
  match h.files path (← get).world with
  | some f => pure f
  | none => throw .osError

/-- What a method of a file returns, if it can decode the file. -/
def decoded : Option Str → Py σ Str
  | some s => pure s
  | none => throw .unicodeDecodeError

/-- `open(path, "r").read()`. -/
def read (h : Host σ) (path : Str) : Py σ Str := do
  decoded (← openText h path).read

/-- `subprocess.run(c, shell=True, check=True)`. -/
def subprocessRun (h : Host σ) (c : Command) : Py σ CompletedProcess := do
  modify fun t => { t with calls := t.calls ++ [c] }
  if Char.ofNat 0 ∈ c.text then throw .valueError
  let (res, world) := h.shell c.text (← get).world
  modify fun t => { t with world := world }
  if res.returncode ≠ 0 then throw (.calledProcessError res.returncode)
  return res

end Py

end Xrash
