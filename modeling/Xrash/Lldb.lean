import Xrash.Text

/-!
# What lldb prints

`image list` prints a record for each loaded image, and below it, indented, the path of a separate
symbol file if there is one. A listing saved to a file may have other lines between them.
-/

namespace Xrash

/-- `0` to `9`. -/
def DecDigit (c : Char) : Prop := 48 ≤ c.toNat ∧ c.toNat ≤ 57

/-- `0` to `9`, `A` to `F` and `a` to `f`. -/
def HexDigit (c : Char) : Prop :=
  DecDigit c ∨ (65 ≤ c.toNat ∧ c.toNat ≤ 70) ∨ (97 ≤ c.toNat ∧ c.toNat ≤ 102)

instance (c : Char) : Decidable (DecDigit c) := inferInstanceAs (Decidable (_ ∧ _))

instance (c : Char) : Decidable (HexDigit c) := inferInstanceAs (Decidable (_ ∨ _))

/-- The last component of a path. -/
def basename (path : Str) : Str := path.rtakeWhile (· ≠ '/')

/-- A record of `image list`. -/
structure ImageRecord where
  blanks : Str
  index : Str
  uuid : Str
  digits : Str
  path : Str
  blanks_blank : Blank blanks ∧ OneLine blanks
  index_digits : ∀ c ∈ index, DecDigit c
  uuid_hex : ∀ c ∈ uuid, HexDigit c ∨ c = '-'
  digits_hex : ∀ c ∈ digits, HexDigit c
  path_abs : path.head? = some '/'
  path_line : OneLine path
  name_ne : basename path ≠ []
  name_trimmed : Trimmed (basename path)

namespace ImageRecord

def name (r : ImageRecord) : Str := basename r.path

def base (r : ImageRecord) : Str := "0x".toList ++ r.digits

def InFramework (r : ImageRecord) : Prop := ".framework".toList <:+: r.path

instance (r : ImageRecord) : Decidable r.InFramework := inferInstanceAs (Decidable (_ <:+: _))

/-- `[ index] UUID base path`, with `trail` after it. -/
def line (r : ImageRecord) (trail : Str) : Str :=
  '[' :: (r.blanks ++ (r.index ++ (']' :: ' ' :: (r.uuid ++ (' ' :: (r.base ++ (' ' :: (r.path
    ++ trail))))))))

end ImageRecord

/-- The lines of an image list: its records in order, with paths of symbol files and lines that do
not contain `.framework` anywhere between them. -/
inductive ImageListing : List ImageRecord → List Str → Prop
  | nil : ImageListing [] []
  | image (r : ImageRecord) {trail : Str} {rs : List ImageRecord} {ls : List Str}
      (ht : Blank trail ∧ OneLine trail) (h : ImageListing rs ls) :
      ImageListing (r :: rs) (r.line trail :: ls)
  | symbolFile {indent path : Str} {rs : List ImageRecord} {ls : List Str}
      (hi : Blank indent ∧ OneLine indent) (hp : path.head? = some '/' ∧ OneLine path)
      (h : ImageListing rs ls) : ImageListing rs ((indent ++ path) :: ls)
  | other {l : Str} {rs : List ImageRecord} {ls : List Str}
      (hl : ¬ ".framework".toList <:+: l) (ho : OneLine l) (h : ImageListing rs ls) :
      ImageListing rs (l :: ls)

end Xrash
