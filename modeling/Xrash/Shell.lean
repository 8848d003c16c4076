import Mathlib

/-!
# The shell's reading of a command

`argv text` is the argument vector the POSIX shell makes of `text` when `text` is one simple
command with nothing to expand, and otherwise says what stands in the way: an operator, an
expansion, a quotation left open, a second command, no command at all. The shell is that of
POSIX.1-2017, which does not say what a `$` is that begins no expansion; such a one stands in the
way here as well.

`lex` is token recognition: a state machine over the characters that cuts the text into words
and marks the characters quoting has made literal. The marks decide which characters are still
looked at by the expansions, and go at quote removal.
-/

namespace Xrash

namespace Shell

/-- What a character is to token recognition, outside quotes. -/
inductive Class
  | nul | blank | newline | backslash | singleQuote | doubleQuote | dollar | operator | hash
  | other
  deriving DecidableEq, Repr

def classOf (c : Char) : Class :=
  if c.toNat = 0 then .nul
  else if c = ' ' ∨ c = '\t' then .blank
  else if c = '\n' then .newline
  else if c.toNat = 92 then .backslash
  else if c.toNat = 39 then .singleQuote
  else if c.toNat = 34 then .doubleQuote
  else if c = '$' ∨ c.toNat = 96 then .dollar
  else if c ∈ ['|', '&', ';', '<', '>', '(', ')'] then .operator
  else if c = '#' then .hash
  else .other

/-- A word as token recognition leaves it: each character, and whether it is quoted. -/
abbrev Word := List (Char × Bool)

/-- A word with none of its characters quoted. -/
def bare (w : List Char) : Word := w.map (·, false)

inductive Mode
  | plain | escape | single | double | doubleEscape | comment | ended
  deriving DecidableEq, Repr

structure State where
  mode : Mode
  words : List Word
  cur : Option Word
  deriving DecidableEq, Repr

/-- Why a text is not one simple command with nothing to expand. -/
inductive Stop
  | nul | operator | expansion | openQuote | second | noCommand | reserved
  deriving DecidableEq, Repr

def start : State := ⟨.plain, [], none⟩

/-- The words up to here, the one being read included. -/
def State.closed (s : State) : List Word := s.words ++ s.cur.toList

def State.push (s : State) (m : Mode) (cs : Word) : State :=
  ⟨m, s.words, some (s.cur.getD [] ++ cs)⟩

/-- A newline ends the command, if there is one yet. -/
def State.newline (s : State) : State :=
  ⟨if s.closed = [] then .plain else .ended, s.closed, none⟩

def stepPlain (s : State) (c : Char) : Except Stop State :=
  match classOf c with
  | .nul => .error .nul
  | .blank => .ok ⟨.plain, s.closed, none⟩
  | .newline => .ok s.newline
  | .backslash => .ok { s with mode := .escape }
  | .singleQuote => .ok (s.push .single [])
  | .doubleQuote => .ok (s.push .double [])
  | .dollar => .error .expansion
  | .operator => .error .operator
  | .hash => .ok (if s.cur = none then { s with mode := .comment } else s.push .plain [(c, false)])
  | .other => .ok (s.push .plain [(c, false)])

/-- One character read: token recognition as in the shell's grammar. Inside double quotes a
backslash is only an escape before one of the characters that keep their meaning there. -/
def step (s : State) (c : Char) : Except Stop State :=
  if classOf c = .nul then .error .nul else
  match s.mode with
  | .plain => stepPlain s c
  | .escape =>
    if classOf c = .newline then .ok { s with mode := .plain } else .ok (s.push .plain [(c, true)])
  | .single =>
    if classOf c = .singleQuote then .ok { s with mode := .plain }
    else .ok (s.push .single [(c, true)])
  | .double =>
    match classOf c with
    | .doubleQuote => .ok { s with mode := .plain }
    | .backslash => .ok { s with mode := .doubleEscape }
    | .dollar => .error .expansion
    | _ => .ok (s.push .double [(c, true)])
  | .doubleEscape =>
    match classOf c with
    | .newline => .ok { s with mode := .double }
    | .doubleQuote | .backslash | .dollar => .ok (s.push .double [(c, true)])
    | _ => .ok (s.push .double [(Char.ofNat 92, true), (c, true)])
  | .comment =>
    if classOf c = .newline then .ok s.newline else .ok s
  | .ended =>
    match classOf c with
    | .blank | .newline => .ok s
    | .hash => .ok { s with mode := .comment }
    | _ => .error .second

def finish (s : State) : Except Stop (List Word) :=
  match s.mode with
  | .plain | .comment | .ended => .ok s.closed
  -- an escape of nothing is left open too: the grammar does not say what it is
  | _ => .error .openQuote

def lex (text : List Char) : Except Stop (List Word) := text.foldlM step start >>= finish

/-! ## Expansions -/

/-- An unquoted `]` before the next slash. -/
def closesBracket : Word → Bool
  | [] => false
  | (c, q) :: w => if c = ']' ∧ q = false then true else if c = '/' then false else closesBracket w

/-- What follows an unquoted `[` makes it a bracket expression: at least one character, after an
optional `!`, then a closing bracket. -/
def opensBracket (w : Word) : Bool :=
  match (if w.head? = some ('!', false) then w.tail else w) with
  | [] => false
  | (c, _) :: w => c ≠ '/' && closesBracket w

/-- The word is a pattern for pathname expansion. -/
def isPattern : Word → Bool
  | [] => false
  | (c, q) :: w => (!q && (c == '*' || c == '?' || (c == '[' && opensBracket w))) || isPattern w

/-- The word starts with a tilde-prefix. -/
def isTilde (w : Word) : Bool := w.head? = some ('~', false)

/-- The words the grammar reserves, as the first word of a command. -/
def reserved : List (List Char) :=
  ["!", "\x7b", "\x7d", "case", "do", "done", "elif", "else", "esac", "fi", "for", "if", "in",
    "then", "until", "while"].map String.toList

def nameChar (c : Char) : Bool := c.isAlphanum || c == '_'

/-- `name=value`, which before the command's name is an assignment. -/
def isAssignment (w : Word) : Bool :=
  let name := w.takeWhile fun c => !c.2 && nameChar c.1
  w[name.length]? = some ('=', false) && name.head?.any fun c => !c.1.isDigit

/-- The word stands where the name of a simple command does. -/
def isName (w : Word) : Bool := !(w ∈ reserved.map bare) && !isAssignment w

/-- The argument vector of a text that is one simple command with nothing to expand. -/
def argv (text : List Char) : Except Stop (List (List Char)) :=
  match lex text with
  | .error e => .error e
  | .ok [] => .error .noCommand
  | .ok (w :: ws) =>
    if !isName w then .error .reserved
    else if (w :: ws).any fun w => isTilde w || isPattern w then .error .expansion
    else .ok ((w :: ws).map fun w => w.map Prod.fst)

/-- The shell reads the word back as it stands: it has no character that ends a word, quotes or
expands, does not begin a comment or a tilde-prefix, and is not a pattern. -/
structure Inert (w : List Char) : Prop where
  ne : w ≠ []
  chars : ∀ c ∈ w, classOf c = .hash ∨ classOf c = .other
  first : w.head? ≠ some '#' ∧ w.head? ≠ some '~'
  pattern : isPattern (bare w) = false

instance (w : List Char) : Decidable (Inert w) :=
  decidable_of_iff (w ≠ [] ∧ (∀ c ∈ w, classOf c = .hash ∨ classOf c = .other)
      ∧ (w.head? ≠ some '#' ∧ w.head? ≠ some '~') ∧ isPattern (bare w) = false)
    ⟨fun ⟨h1, h2, h3, h4⟩ => ⟨h1, h2, h3, h4⟩, fun ⟨h1, h2, h3, h4⟩ => ⟨h1, h2, h3, h4⟩⟩

example : argv "cp 'a b' \"c\"d\\e".toList = .ok (["cp", "a b", "cde"].map String.toList) := by
  decide

end Shell

end Xrash
