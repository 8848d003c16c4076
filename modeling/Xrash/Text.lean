import Mathlib

/-!
# Python's `str`

A `str` is a list of code points. `split` is `str.split()` with no argument: the maximal runs of
characters that are not white space. `splitNewline` is `str.split("\n")`, `readline` the first
line of a text file with its newline, and `universalNewlines` what text mode does to the line
ends of a file as it reads it.
-/

namespace Xrash

abbrev Str := List Char

/-- `str.isspace` of one character. -/
def isSpace (c : Char) : Bool :=
  (9 ≤ c.toNat && c.toNat ≤ 13) || (28 ≤ c.toNat && c.toNat ≤ 32) || c.toNat == 0x85
    || c.toNat == 0xA0 || c.toNat == 0x1680 || (0x2000 ≤ c.toNat && c.toNat ≤ 0x200A)
    || c.toNat == 0x2028 || c.toNat == 0x2029 || c.toNat == 0x202F || c.toNat == 0x205F
    || c.toNat == 0x3000

/-- `s.split()`. -/
def split (s : Str) : List Str := (s.splitOnP isSpace).filter (· ≠ [])

/-- `s.split("\n")`. -/
def splitNewline (s : Str) : List Str := s.splitOn '\n'

/-- `" ".join(parts)`. -/
def joinBlank (parts : List Str) : Str := [' '].intercalate parts

/-- `"\n".join(parts)`. -/
def joinNewline (parts : List Str) : Str := ['\n'].intercalate parts

/-- `s.strip()`. -/
def strip (s : Str) : Str := (s.dropWhile isSpace).rdropWhile isSpace

/-- Where `pat` first occurs: `s.find(pat)`, with `none` for `-1`. -/
def find (pat : Str) : Str → Option ℕ
  | [] => if pat = [] then some 0 else none
  | c :: s => if pat <+: c :: s then some 0 else (find pat s).map (· + 1)

/-- What reading a file in text mode makes of its line ends. -/
def universalNewlines : Str → Str
  | '\r' :: '\n' :: s => '\n' :: universalNewlines s
  | '\r' :: s => '\n' :: universalNewlines s
  | c :: s => c :: universalNewlines s
  | [] => []

/-- The lines of a text file. -/
def textLines (s : Str) : List Str := splitNewline (universalNewlines s)

/-- The first line of a text, with its newline if it has one. -/
def readline (s : Str) : Str := s.takeWhile (· ≠ '\n') ++ (s.dropWhile (· ≠ '\n')).take 1

/-- `fmt % args` where every conversion of `fmt` is `%s`. -/
def format : Str → List Str → Str
  | '%' :: 's' :: fmt, a :: args => a ++ format fmt args
  | c :: fmt, args => c :: format fmt args
  | [], _ => []

/-- `os.path.dirname`. -/
def dirname (p : Str) : Str :=
  let head := p.rdropWhile (· ≠ '/')
  if ∀ c ∈ head, c = '/' then head else head.rdropWhile (· = '/')

/-- A word `split` can return. -/
def Token (t : Str) : Prop := t ≠ [] ∧ ∀ c ∈ t, isSpace c = false

instance (t : Str) : Decidable (Token t) := inferInstanceAs (Decidable (_ ∧ _))

/-- A run of white space. -/
def Blank (g : Str) : Prop := ∀ c ∈ g, isSpace c = true

instance (g : Str) : Decidable (Blank g) := inferInstanceAs (Decidable (∀ c ∈ g, _))

theorem format_arg (fmt a : Str) (args : List Str) :
    format ('%' :: 's' :: fmt) (a :: args) = a ++ format fmt args := by
  rw [format]

theorem format_nil (args : List Str) : format [] args = [] := by
  rw [format]

theorem format_cons {c : Char} (hc : c ≠ '%') (fmt : Str) (args : List Str) :
    format (c :: fmt) args = c :: format fmt args := by
  rw [format]
  intro _ _ _ h _
  exact fun h' => hc (by simp_all)

/-- The text between two conversions is kept. -/
theorem format_text : ∀ {l : Str}, '%' ∉ l → ∀ fmt args,
    format (l ++ fmt) args = l ++ format fmt args
  | [], _, _, _ => rfl
  | c :: l, h, fmt, args => by
    rw [List.cons_append, format_cons (fun hc => h (hc ▸ List.mem_cons_self)),
      format_text fun hm => h (List.mem_cons_of_mem _ hm)]
    rfl

/-- `f` is what a line has from the first place where it has `pat`. -/
def FromFirst (pat line f : Str) : Prop :=
  pat <+: f ∧ ∃ x, line = x ++ f ∧ ∀ y z, line = y ++ z → pat <+: z → x.length ≤ y.length

theorem FromFirst.unique {pat line f g : Str} (hf : FromFirst pat line f)
    (hg : FromFirst pat line g) : f = g := by
  obtain ⟨hpf, x, hx, hxmin⟩ := hf
  obtain ⟨hpg, y, hy, hymin⟩ := hg
  have hle := hxmin y g hy hpg
  have hge := hymin x f hx hpf
  exact (List.append_inj (hx.symm.trans hy) (by omega)).2

theorem fromFirst_find {pat : Str} : ∀ {s : Str}, pat <:+: s →
    ∃ i, find pat s = some i ∧ FromFirst pat s (s.drop i)
  | [], h => by
    obtain rfl := List.infix_nil.1 h
    exact ⟨0, rfl, List.prefix_refl _, [], rfl, by simp⟩
  | c :: s, h => by
    by_cases hp : pat <+: c :: s
    · exact ⟨0, by simp [find, hp], hp, [], rfl, by simp⟩
    · have hs : pat <:+: s := (List.infix_cons_iff.1 h).resolve_left hp
      obtain ⟨i, hi, hpi, x, hx, hmin⟩ := fromFirst_find hs
      refine ⟨i + 1, by simp [find, hp, hi], hpi, c :: x, by rw [List.drop_succ_cons,
        List.cons_append, ← hx], fun y z hyz hz => ?_⟩
      rcases y with _ | ⟨d, y⟩
      · exact absurd (by simpa [hyz] using hz) hp
      · have := hmin y z (List.cons.inj hyz).2 hz
        simpa using this

theorem joinBlank_singleton (s : Str) : joinBlank [s] = s := List.intercalate_singleton

/-! ## Tokens -/

theorem split_nil : split [] = [] := rfl

theorem split_append_space (a : Str) {c : Char} (hc : isSpace c = true) (b : Str) :
    split (a ++ c :: b) = split a ++ split b := by
  rw [split, List.splitOnP_append_cons a b hc, List.filter_append]
  rfl

theorem split_space {c : Char} (hc : isSpace c = true) (s : Str) : split (c :: s) = split s := by
  simpa [split_nil] using split_append_space [] hc s

theorem split_token {t : Str} (h : Token t) : split t = [t] := by
  rw [split, List.splitOnP_eq_singleton h.2]
  simp [h.1]

theorem split_blank_append : ∀ {g : Str}, Blank g → ∀ s, split (g ++ s) = split s
  | [], _, s => rfl
  | c :: g, h, s => by
    rw [List.cons_append, split_space (h c List.mem_cons_self),
      split_blank_append (fun c hc => h c (List.mem_cons_of_mem _ hc)) s]

theorem split_blank {g : Str} (h : Blank g) : split g = [] := by
  simpa [split_nil] using split_blank_append h []

/-- A token is cut off by any white space after it. -/
theorem split_token_append {t g : Str} (ht : Token t) (hg : Blank g) (hne : g ≠ []) (s : Str) :
    split (t ++ (g ++ s)) = t :: split s := by
  obtain ⟨c, g, rfl⟩ := List.exists_cons_of_ne_nil hne
  rw [List.cons_append, split_append_space t (hg c List.mem_cons_self), split_token ht,
    split_blank_append fun c hc => hg c (List.mem_cons_of_mem _ hc)]
  rfl

theorem split_token_space {t : Str} (ht : Token t) (s : Str) :
    split (t ++ ' ' :: s) = t :: split s := by
  rw [split_append_space t (by decide), split_token ht]
  rfl

theorem mem_of_mem_splitOnP {p : Char → Bool} :
    ∀ {s t : Str}, t ∈ s.splitOnP p → ∀ c ∈ t, c ∈ s ∧ p c = false
  | [], t, h, c, hc => by
    simp only [List.splitOnP_nil, List.mem_singleton] at h
    simp [h] at hc
  | a :: s, t, h, c, hc => by
    rw [List.splitOnP_cons_eq_if_modifyHead] at h
    split_ifs at h with ha
    · rcases List.mem_cons.1 h with rfl | h
      · simp at hc
      · have := mem_of_mem_splitOnP h c hc
        exact ⟨List.mem_cons_of_mem _ this.1, this.2⟩
    · obtain ⟨u, us, hu⟩ := List.exists_cons_of_ne_nil (List.splitOnP_ne_nil p s)
      rw [hu, List.modifyHead_cons] at h
      have hmem : ∀ v ∈ u :: us, ∀ c ∈ v, c ∈ s ∧ p c = false := fun v hv c hc =>
        mem_of_mem_splitOnP (hu ▸ hv) c hc
      rcases List.mem_cons.1 h with rfl | h
      · rcases List.mem_cons.1 hc with rfl | hc
        · exact ⟨List.mem_cons_self, by simpa using ha⟩
        · have := hmem u List.mem_cons_self c hc
          exact ⟨List.mem_cons_of_mem _ this.1, this.2⟩
      · have := hmem t (List.mem_cons_of_mem _ h) c hc
        exact ⟨List.mem_cons_of_mem _ this.1, this.2⟩

theorem token_of_mem_split {s t : Str} (h : t ∈ split s) : Token t := by
  simp only [split, List.mem_filter, decide_eq_true_eq] at h
  exact ⟨h.2, fun c hc => (mem_of_mem_splitOnP h.1 c hc).2⟩

theorem mem_of_mem_split {s t : Str} (h : t ∈ split s) {c : Char} (hc : c ∈ t) : c ∈ s := by
  simp only [split, List.mem_filter, decide_eq_true_eq] at h
  exact (mem_of_mem_splitOnP h.1 c hc).1

theorem Token.not_mem {t : Str} (h : Token t) {c : Char} (hc : isSpace c = true) : c ∉ t :=
  fun hm => by simp [h.2 c hm] at hc

/-! ## Lines -/

/-- Nothing of the string ends a line. -/
def OneLine (s : Str) : Prop := '\n' ∉ s ∧ '\r' ∉ s

instance (s : Str) : Decidable (OneLine s) := inferInstanceAs (Decidable (_ ∧ _))

theorem OneLine.append {s t : Str} (hs : OneLine s) (ht : OneLine t) : OneLine (s ++ t) := by
  simp [OneLine, hs.1, hs.2, ht.1, ht.2]

theorem Token.oneLine {t : Str} (h : Token t) : OneLine t :=
  ⟨h.not_mem (by decide), h.not_mem (by decide)⟩

theorem universalNewlines_cons {c : Char} (hc : c ≠ '\r') (s : Str) :
    universalNewlines (c :: s) = c :: universalNewlines s := by
  rw [universalNewlines]
  · exact fun _ h _ => hc h
  · exact hc

theorem universalNewlines_append : ∀ {s : Str}, '\r' ∉ s → ∀ t,
    universalNewlines (s ++ t) = s ++ universalNewlines t
  | [], _, _ => rfl
  | c :: s, h, t => by
    rw [List.cons_append, universalNewlines_cons fun hc => h (hc ▸ List.mem_cons_self),
      universalNewlines_append fun hm => h (List.mem_cons_of_mem _ hm)]
    rfl

theorem universalNewlines_eq {s : Str} (h : '\r' ∉ s) : universalNewlines s = s := by
  simpa [universalNewlines] using universalNewlines_append h []

theorem mem_joinNewline {c : Char} : ∀ {ls : List Str}, c ∈ joinNewline ls →
    c = '\n' ∨ ∃ l ∈ ls, c ∈ l
  | [], h => by simp [joinNewline] at h
  | [l], h => by
    rw [joinNewline, List.intercalate_singleton] at h
    exact .inr ⟨l, List.mem_cons_self, h⟩
  | l :: m :: ls, h => by
    rw [joinNewline, List.intercalate_cons_cons] at h
    simp only [List.mem_append, List.mem_singleton] at h
    rcases h with (h | h) | h
    · exact .inr ⟨l, List.mem_cons_self, h⟩
    · exact .inl h
    · rcases mem_joinNewline h with h | ⟨k, hk, h⟩
      · exact .inl h
      · exact .inr ⟨k, List.mem_cons_of_mem _ hk, h⟩

/-- Lines written to a file are read back. -/
theorem textLines_joinNewline {ls : List Str} (hne : ls ≠ []) (h : ∀ l ∈ ls, OneLine l) :
    textLines (joinNewline ls) = ls := by
  rw [textLines, universalNewlines_eq, splitNewline, joinNewline,
    List.splitOn_intercalate _ (fun l hl => (h l hl).1) hne]
  intro hm
  rcases mem_joinNewline hm with hm | ⟨l, hl, hm⟩
  · exact absurd hm (by decide)
  · exact (h l hl).2 hm

/-! ## Pieces of a string -/

theorem rtakeWhile_append_cons {c : Char} {y : Str} (hy : c ∉ y) (x : Str) :
    (x ++ c :: y).rtakeWhile (· ≠ c) = y := by
  have hy : ∀ d ∈ y.reverse, decide (d ≠ c) = true := by
    intro d hd
    simp only [ne_eq, decide_eq_true_eq]
    rintro rfl
    exact hy (List.mem_reverse.1 hd)
  rw [List.rtakeWhile, List.reverse_append, List.reverse_cons, List.append_assoc,
    List.takeWhile_append_of_pos hy]
  simp

theorem rtakeWhile_of_not_mem {c : Char} {y : Str} (hy : c ∉ y) :
    y.rtakeWhile (· ≠ c) = y := by
  rw [List.rtakeWhile_eq_self_iff]
  intro d hd
  simp only [ne_eq, decide_eq_true_eq]
  rintro rfl
  exact hy hd

theorem exists_last {c : Char} {s : Str} (h : c ∈ s) : ∃ x y, s = x ++ c :: y ∧ c ∉ y := by
  obtain ⟨y, x, hs, hy⟩ := List.eq_append_cons_of_mem (List.mem_reverse.2 h)
  refine ⟨x.reverse, y.reverse, ?_, by simpa using hy⟩
  rw [← List.reverse_reverse s, hs]
  simp

theorem idxOf?_append_cons {c : Char} {x : Str} (hx : c ∉ x) (y : Str) :
    (x ++ c :: y).idxOf? c = some x.length := by
  rw [List.idxOf?, List.findIdx?_append, List.findIdx?_eq_none_iff.2 fun d hd =>
    beq_false_of_ne (ne_of_mem_of_not_mem hd hx)]
  simp [List.findIdx?_cons]

theorem rdropWhile_append_of_pos {p : Char → Bool} {g : Str} (hg : ∀ c ∈ g, p c = true) (s : Str) :
    (s ++ g).rdropWhile p = s.rdropWhile p := by
  rw [List.rdropWhile, List.reverse_append,
    List.dropWhile_append_of_pos fun c hc => hg c (List.mem_reverse.1 hc)]
  rfl

theorem splitOn_head? (s : Str) (c : Char) :
    (s.splitOn c).head? = some (s.takeWhile (· ≠ c)) := by
  induction s with
  | nil => simp
  | cons a s ih =>
    rw [List.splitOn_cons_eq_if_modifyHead]
    by_cases h : a = c
    · simp [h]
    · obtain ⟨u, us, hu⟩ := List.exists_cons_of_ne_nil (List.splitOn_ne_nil c s)
      rw [hu] at ih ⊢
      simp only [List.head?_cons, Option.some.injEq] at ih
      simp [h, ih]

theorem splitOn_getLast? (s : Str) (c : Char) :
    (s.splitOn c).getLast? = some (s.rtakeWhile (· ≠ c)) := by
  by_cases h : c ∈ s
  · obtain ⟨x, y, rfl, hy⟩ := exists_last h
    rw [List.splitOn_append_cons_self, List.splitOn_eq_singleton hy, rtakeWhile_append_cons hy]
    simp
  · rw [List.splitOn_eq_singleton h, rtakeWhile_of_not_mem h]
    simp

/-- White space at neither end. -/
def Trimmed (s : Str) : Prop :=
  (∀ c, s.head? = some c → isSpace c = false) ∧ ∀ c, s.getLast? = some c → isSpace c = false

theorem strip_append {s g : Str} (hs : Trimmed s) (hne : s ≠ []) (hg : Blank g) :
    strip (s ++ g) = s := by
  have hfront : (s ++ g).dropWhile isSpace = s ++ g := by
    obtain ⟨c, s, rfl⟩ := List.exists_cons_of_ne_nil hne
    have := hs.1 c rfl
    simp [this]
  have hback : s.rdropWhile isSpace = s := by
    rw [List.rdropWhile_eq_self_iff]
    intro h
    simp [hs.2 _ (List.getLast?_eq_some_getLast h)]
  rw [strip, hfront, rdropWhile_append_of_pos hg, hback]

theorem infix_append_left {c : Char} {p x : Str} (hx : c ∉ x) (s : Str) :
    c :: p <:+: x ++ s ↔ c :: p <:+: s := by
  induction x with
  | nil => rfl
  | cons d x ih =>
    have hd : c ≠ d := fun h => hx (h ▸ List.mem_cons_self)
    rw [List.cons_append, List.infix_cons_iff, ih fun h => hx (List.mem_cons_of_mem _ h),
      List.cons_prefix_cons]
    tauto

theorem infix_append_right {c : Char} {p x : Str} (hx : c ∉ x) (s : Str) :
    p ++ [c] <:+: s ++ x ↔ p ++ [c] <:+: s := by
  rw [← List.reverse_infix, List.reverse_append, List.reverse_append, List.reverse_singleton,
    List.singleton_append, infix_append_left (by simpa using hx), ← List.reverse_infix]
  simp

end Xrash
