import Xrash.Lldb
import Xrash.Proofs.Run

/-!
# Image lists

The parser reads a base out of what stands before the first slash of a line and a name out of what
stands after the last. What lldb prints before the path of a record has no slash and only one token
with `0x` in it, so no text of a path reaches the base, nor of the rest the name.
-/

namespace Xrash

open Py

/-! ## The parser -/

section Parser

variable {σ : Type}

theorem imageLine_run (images : Dict) (image : Str) (t : Trace σ) :
    (imageLine images image).run t = .ok (match imageEntry image with
      | some (name, base) => images.insert name base
      | none => images) t := by
  have hne := List.splitOn_ne_nil '/' image
  have hhead : (item (image.splitOn '/') 0).run t = .ok (image.takeWhile (· ≠ '/')) t := by
    have := splitOn_head? image '/'
    rw [List.head?_eq_getElem?] at this
    simpa [this] using item_run (image.splitOn '/') 0 t
  have hlast : (item (image.splitOn '/') (-1)).run t = .ok (image.rtakeWhile (· ≠ '/')) t := by
    have := splitOn_getLast? image '/'
    rw [List.getLast?_eq_some_getLast hne, Option.some.injEq] at this
    rw [item_last hne, this]
  unfold imageLine imageEntry
  by_cases hf : ".framework".toList <:+: image
  · rw [if_neg (not_not.2 hf), if_pos hf]
    simp only [EStateM.run_bind, hhead]
    generalize (split (image.takeWhile (· ≠ '/'))).filter ("0x".toList <:+: ·) = parts
    rcases parts with _ | ⟨b, _ | ⟨c, parts⟩⟩
    · rfl
    · have h0 : (item [b] 0).run t = .ok b t := rfl
      simp [h0, hlast]
    · simp
  · rw [if_pos hf, if_neg hf]
    rfl

theorem imageEntry_of_not {l : Str} (hl : ¬ ".framework".toList <:+: l) : imageEntry l = none := by
  unfold imageEntry
  rw [if_neg hl]

theorem imageEntry_of_split {l : Str} (h : split (l.takeWhile (· ≠ '/')) = []) :
    imageEntry l = none := by
  by_cases hl : ".framework".toList <:+: l
  · unfold imageEntry
    rw [if_pos hl, h]
    rfl
  · exact imageEntry_of_not hl

theorem imageBase_cons (l : Str) (ls : List Str) (k : Str) :
    imageBase (l :: ls) k = (imageBase ls k).or ((imageEntry l).toList.lookup k) := by
  unfold imageBase
  rcases he : imageEntry l with _ | e
  · simp [he]
  · simp [he, List.lookup_append]

theorem images_foldlM : ∀ (ls : List Str) (m : Dict) (t : Trace σ),
    ∃ m', (ls.foldlM imageLine m).run t = .ok m' t
      ∧ ∀ k, m'.lookup k = (imageBase ls k).or (m.lookup k)
  | [], m, t => ⟨m, rfl, fun k => by simp [imageBase]⟩
  | l :: ls, m, t => by
    rw [List.foldlM_cons]
    simp only [EStateM.run_bind, imageLine_run]
    rcases he : imageEntry l with _ | ⟨name, base⟩
    · obtain ⟨m', hrun, hm'⟩ := images_foldlM ls m t
      refine ⟨m', hrun, fun k => ?_⟩
      rw [hm' k, imageBase_cons, he]
      simp
    · obtain ⟨m', hrun, hm'⟩ := images_foldlM ls (m.insert name base) t
      refine ⟨m', hrun, fun k => ?_⟩
      rw [hm' k, imageBase_cons, he, Option.or_assoc]
      congr 1
      by_cases hk : k = name
      · subst hk
        simp [AList.lookup_insert]
      · rw [AList.lookup_insert_ne hk]
        have hk : (k == name) = false := by simpa using hk
        simp [List.lookup_cons, hk]

/-- The parser never raises, and maps each name to the base of the last line that gives it one. -/
theorem images_run (ls : List Str) (t : Trace σ) :
    ∃ m, (images ls).run t = .ok m t ∧ ∀ k, m.lookup k = imageBase ls k := by
  obtain ⟨m, hrun, hm⟩ := images_foldlM ls ∅ t
  exact ⟨m, hrun, fun k => by simp [hm k]⟩

end Parser

/-! ## The lines of a listing -/

/-- None of the characters the parser and the file format look for. -/
def Plain (c : Char) : Prop := c ≠ '/' ∧ c ≠ '.' ∧ c ≠ '\n' ∧ c ≠ '\r'

theorem HexDigit.range {c : Char} (h : HexDigit c) : 48 ≤ c.toNat ∧ c.toNat ≤ 102 := by
  simp only [HexDigit, DecDigit] at h
  omega

theorem HexDigit.notSpace {c : Char} (h : HexDigit c) : isSpace c = false := by
  have := h.range
  simp only [isSpace, Bool.or_eq_false_iff, Bool.and_eq_false_iff, decide_eq_false_iff_not,
    beq_eq_false_iff_ne]
  omega

theorem HexDigit.plain {c : Char} (h : HexDigit c) : Plain c := by
  refine ⟨?_, ?_, ?_, ?_⟩ <;> rintro rfl <;> exact absurd h.range (by decide)

theorem HexDigit.ne_x {c : Char} (h : HexDigit c) : c ≠ 'x' := by
  rintro rfl
  exact absurd h.range (by decide)

theorem blank_plain {g : Str} (h : Blank g) {c : Char} (hc : c ∈ g) :
    c ≠ '/' ∧ c ≠ '.' ∧ c ≠ 'x' ∧ c ≠ 'k' := by
  have := h c hc
  refine ⟨?_, ?_, ?_, ?_⟩ <;> rintro rfl <;> exact absurd this (by decide)

namespace ImageRecord

/-- What stands before the path. -/
def front (r : ImageRecord) : Str :=
  '[' :: (r.blanks ++ (r.index ++ (']' :: ' ' :: (r.uuid ++ (' ' :: (r.base ++ [' ']))))))

theorem line_eq (r : ImageRecord) (trail : Str) : r.line trail = r.front ++ (r.path ++ trail) := by
  simp [line, front]

theorem mem_base (r : ImageRecord) {c : Char} (hc : c ∈ r.base) : isSpace c = false ∧ Plain c := by
  rcases List.mem_append.1 hc with hc | hc
  · exact (show ∀ c ∈ "0x".toList, isSpace c = false ∧ Plain c by simp [isSpace, Plain]) c hc
  · exact ⟨(r.digits_hex c hc).notSpace, (r.digits_hex c hc).plain⟩

theorem base_token (r : ImageRecord) : Token r.base :=
  ⟨by simp [base], fun _ hc => (r.mem_base hc).1⟩

theorem front_plain (r : ImageRecord) {c : Char} (hc : c ∈ r.front) : Plain c := by
  have hlit : ∀ c ∈ ['[', ']', ' ', '-'], Plain c := by simp [Plain]
  simp only [front, List.mem_cons, List.mem_append, List.not_mem_nil, or_false] at hc
  rcases hc with rfl | hc | hc | rfl | rfl | hc | rfl | hc | rfl
  · exact hlit _ (by simp)
  · have := blank_plain r.blanks_blank.1 hc
    exact ⟨this.1, this.2.1, fun h => r.blanks_blank.2.1 (h ▸ hc),
      fun h => r.blanks_blank.2.2 (h ▸ hc)⟩
  · exact HexDigit.plain (.inl (r.index_digits c hc))
  · exact hlit _ (by simp)
  · exact hlit _ (by simp)
  · rcases r.uuid_hex c hc with hc | rfl
    · exact hc.plain
    · exact hlit _ (by simp)
  · exact hlit _ (by simp)
  · exact (r.mem_base hc).2
  · exact hlit _ (by simp)

/-- The base is the only token before the path with `0x` in it. -/
theorem front_tokens (r : ImageRecord) :
    (split r.front).filter ("0x".toList <:+: ·) = [r.base] := by
  have hnox : ∀ s : Str, 'x' ∉ s → (split s).filter ("0x".toList <:+: ·) = [] := by
    intro s hs
    rw [List.filter_eq_nil_iff]
    intro t ht hx
    exact hs (mem_of_mem_split ht ((of_decide_eq_true hx).subset (by decide)))
  have hfront : r.front = ('[' :: (r.blanks ++ (r.index ++ [']']))) ++ ' ' :: (r.uuid
      ++ ' ' :: (r.base ++ ' ' :: [])) := by simp [front]
  have hindex : 'x' ∉ '[' :: (r.blanks ++ (r.index ++ [']'])) := by
    simp only [List.mem_cons, List.mem_append, List.not_mem_nil, or_false, not_or]
    exact ⟨by decide, fun h => (blank_plain r.blanks_blank.1 h).2.2.1 rfl,
      fun h => HexDigit.ne_x (.inl (r.index_digits _ h)) rfl, by decide⟩
  have huuid : 'x' ∉ r.uuid := by
    intro h
    rcases r.uuid_hex _ h with h | h
    · exact h.ne_x rfl
    · exact absurd h (by decide)
  have hbase : "0x".toList <:+: r.base := (List.prefix_append _ _).isInfix
  rw [hfront, split_append_space _ (by decide), split_append_space _ (by decide),
    split_token_space r.base_token, List.filter_append, List.filter_append, hnox _ hindex,
    hnox _ huuid, split_nil, List.filter_cons_of_pos (by simpa using hbase)]
  rfl

theorem path_eq (r : ImageRecord) : ∃ x, r.path = x ++ '/' :: r.name ∧ '/' ∉ r.name := by
  obtain ⟨x, y, hxy, hy⟩ := exists_last (List.mem_of_mem_head? r.path_abs)
  have hname : r.name = y := by rw [name, basename, hxy, rtakeWhile_append_cons hy]
  exact ⟨x, by rw [hname, hxy], hname ▸ hy⟩

theorem line_takeWhile (r : ImageRecord) (trail : Str) :
    (r.line trail).takeWhile (· ≠ '/') = r.front := by
  obtain ⟨rest, hrest⟩ := List.head?_eq_some_iff.1 r.path_abs
  rw [line_eq, hrest, List.takeWhile_append_of_pos]
  · simp
  · intro c hc
    simpa using (r.front_plain hc).1

theorem line_rtakeWhile (r : ImageRecord) {trail : Str} (ht : Blank trail) :
    (r.line trail).rtakeWhile (· ≠ '/') = r.name ++ trail := by
  obtain ⟨x, hx, hname⟩ := r.path_eq
  have hlast : '/' ∉ r.name ++ trail := by
    simp only [List.mem_append, not_or]
    exact ⟨hname, fun h => (blank_plain ht h).1 rfl⟩
  have : r.line trail = (r.front ++ x) ++ '/' :: (r.name ++ trail) := by
    rw [line_eq, hx]
    simp
  rw [this, rtakeWhile_append_cons hlast]

theorem line_inFramework (r : ImageRecord) {trail : Str} (ht : Blank trail) :
    ".framework".toList <:+: r.line trail ↔ r.InFramework := by
  have hfront : '.' ∉ r.front := fun h => (r.front_plain h).2.1 rfl
  have htrail : 'k' ∉ trail := fun h => (blank_plain ht h).2.2.2 rfl
  have hpat : ".framework".toList = '.' :: "framework".toList := by decide
  have hpat' : ".framework".toList = ".framewor".toList ++ ['k'] := by decide
  rw [InFramework, line_eq, hpat, infix_append_left hfront, ← hpat, hpat',
    infix_append_right htrail]

/-- A record's line gives its name its base, if its path has `.framework` in it. -/
theorem entry_line (r : ImageRecord) {trail : Str} (ht : Blank trail) :
    imageEntry (r.line trail) = if r.InFramework then some (r.name, r.base) else none := by
  have hstrip : strip (r.name ++ trail) = r.name := strip_append r.name_trimmed r.name_ne ht
  unfold imageEntry
  simp only [r.line_inFramework ht]
  split_ifs with hf
  · rw [r.line_takeWhile, r.front_tokens, r.line_rtakeWhile ht]
    simp only [hstrip]
  · rfl

theorem line_oneLine (r : ImageRecord) {trail : Str} (ht : OneLine trail) :
    OneLine (r.line trail) := by
  rw [line_eq]
  exact OneLine.append ⟨fun h => (r.front_plain h).2.2.1 rfl, fun h => (r.front_plain h).2.2.2 rfl⟩
    (r.path_line.append ht)

end ImageRecord

/-- The path of a symbol file gives nothing a base: there is nothing before its first slash. -/
theorem entry_symbolFile {indent path : Str} (hi : Blank indent) (hp : path.head? = some '/') :
    imageEntry (indent ++ path) = none := by
  obtain ⟨rest, rfl⟩ := List.head?_eq_some_iff.1 hp
  have htake : (indent ++ '/' :: rest).takeWhile (· ≠ '/') = indent := by
    rw [List.takeWhile_append_of_pos]
    · simp
    · intro c hc
      simpa using (blank_plain hi hc).1
  exact imageEntry_of_split (by rw [htake, split_blank hi])

/-- The entries of a listing are those of its records in a framework. -/
theorem ImageListing.entries {rs : List ImageRecord} {ls : List Str} (h : ImageListing rs ls) :
    ls.filterMap imageEntry = (rs.filter (·.InFramework)).map fun r => (r.name, r.base) := by
  induction h with
  | nil => rfl
  | image r ht h ih =>
    rw [List.filterMap_cons, r.entry_line ht.1]
    by_cases hf : r.InFramework <;> simp [hf, ih]
  | symbolFile hi hp h ih => rw [List.filterMap_cons, entry_symbolFile hi.1 hp.1, ih]
  | other hl ho h ih => rw [List.filterMap_cons, imageEntry_of_not hl, ih]

theorem ImageListing.oneLine {rs : List ImageRecord} {ls : List Str} (h : ImageListing rs ls) :
    ∀ l ∈ ls, OneLine l := by
  induction h with
  | nil => simp
  | image r ht h ih => simpa [r.line_oneLine ht.2] using ih
  | symbolFile hi hp h ih => simpa [hi.2.append hp.2] using ih
  | other hl ho h ih => simpa [ho] using ih

/-- The last value of a key wins. -/
theorem lookup_reverse_map {α : Type} (f g : α → Str) (k : Str) (xs : List α) :
    (xs.map fun x => (f x, g x)).reverse.lookup k = ((xs.filter (f · = k)).getLast?).map g := by
  induction xs with
  | nil => rfl
  | cons x xs ih =>
    rw [List.map_cons, List.reverse_cons, List.lookup_append, ih]
    by_cases hx : f x = k
    · subst hx
      rw [List.filter_cons_of_pos (by simp), List.getLast?_cons]
      cases (xs.filter (f · = f x)).getLast? <;> simp
    · have hk : (k == f x) = false := by simpa using Ne.symm hx
      rw [List.filter_cons_of_neg (by simpa using hx)]
      simp [List.lookup_cons, hk]

theorem ImageListing.base {rs : List ImageRecord} {ls : List Str} (h : ImageListing rs ls)
    (k : Str) : imageBase (textLines (joinNewline ls)) k
      = ((rs.filter fun r => r.InFramework ∧ r.name = k).getLast?).map (·.base) := by
  have hbase : imageBase (textLines (joinNewline ls)) k = imageBase ls k := by
    by_cases hne : ls = []
    · subst hne
      rfl
    · rw [textLines_joinNewline hne h.oneLine]
  rw [hbase, imageBase, h.entries, lookup_reverse_map, List.filter_filter]
  congr 3
  funext r
  simp [Bool.and_comm]

/-- The map the parser makes of an image list has as keys exactly the names of the records in a
framework, and gives each the base of the last such record; so with distinct names every framework
has its own base. -/
theorem images_recovered {σ : Type} {rs : List ImageRecord} {ls : List Str}
    (h : ImageListing rs ls) (t : Trace σ) :
    ∃ m, (images (textLines (joinNewline ls))).run t = .ok m t
      ∧ (∀ k, k ∈ m ↔ ∃ r ∈ rs, r.InFramework ∧ r.name = k)
      ∧ (∀ k, m.lookup k
          = ((rs.filter fun r => r.InFramework ∧ r.name = k).getLast?).map (·.base))
      ∧ ((rs.map (·.name)).Nodup → ∀ r ∈ rs, r.InFramework → m.lookup r.name = some r.base) := by
  obtain ⟨m, hrun, hm⟩ := images_run (textLines (joinNewline ls)) t
  have hlookup := fun k => (hm k).trans (h.base k)
  refine ⟨m, hrun, fun k => ?_, hlookup, fun hd r hr hf => ?_⟩
  · rw [← AList.lookup_isSome, hlookup]
    simp
  · rw [hlookup]
    have hmem : r ∈ rs.filter fun s => s.InFramework ∧ s.name = r.name := by simp [hr, hf]
    have hlast := List.getLast_mem (List.ne_nil_of_mem hmem)
    rw [List.getLast?_eq_some_getLast (List.ne_nil_of_mem hmem)]
    simp only [List.mem_filter, decide_eq_true_eq] at hlast
    rw [List.inj_on_of_nodup_map hd hlast.1 hr hlast.2.2]
    rfl

def crashImage : ImageRecord where
  blanks := "  ".toList
  index := "1".toList
  uuid := "1A-9B".toList
  digits := "0100350000".toList
  path := "/App 0x1/crash.framework/crash".toList
  blanks_blank := by simp [Blank, OneLine, isSpace]
  index_digits := by simp [DecDigit]
  uuid_hex := by simp [HexDigit, DecDigit]
  digits_hex := by simp [HexDigit, DecDigit]
  path_abs := rfl
  path_line := by decide
  name_ne := by decide
  name_trimmed := by
    rw [show basename "/App 0x1/crash.framework/crash".toList = "crash".toList by decide]
    unfold Trimmed
    simp [isSpace]

def kitImage : ImageRecord where
  blanks := "  ".toList
  index := "2".toList
  uuid := "77-C0".toList
  digits := "0000000183a00000".toList
  path := "/System/Kit.framework/Kit".toList
  blanks_blank := by simp [Blank, OneLine, isSpace]
  index_digits := by simp [DecDigit]
  uuid_hex := by simp [HexDigit, DecDigit]
  digits_hex := by simp [HexDigit, DecDigit]
  path_abs := rfl
  path_line := by decide
  name_ne := by decide
  name_trimmed := by
    rw [show basename "/System/Kit.framework/Kit".toList = "Kit".toList by decide]
    unfold Trimmed
    simp [isSpace]

/-- Two records, the path of a symbol file below the first, and the end of the file. -/
def crashListing : List Str :=
  [crashImage.line " ".toList,
    "      ".toList ++ "/x/crash.framework.dSYM/Contents/Resources/DWARF/crash".toList,
    kitImage.line [], []]

theorem crashListing_records : ImageListing [crashImage, kitImage] crashListing := by
  have hi : Blank "      ".toList ∧ OneLine "      ".toList := by simp [Blank, OneLine, isSpace]
  have htrail : Blank " ".toList ∧ OneLine " ".toList := by simp [Blank, OneLine, isSpace]
  refine .image crashImage htrail ?_
  refine .symbolFile hi ⟨rfl, by decide⟩ ?_
  refine .image kitImage (by simp [Blank, OneLine]) ?_
  exact .other (by decide) (by decide) .nil

/-- The first image was loaded somewhere else before. -/
def crashBefore : ImageRecord :=
  { crashImage with
    index := "0".toList
    digits := "0200000000".toList
    index_digits := by simp [DecDigit]
    digits_hex := by simp [HexDigit, DecDigit] }

theorem images_recovered_crash :
    ∃ m, (images (textLines (joinNewline (crashBefore.line [] :: crashListing)))).run (fresh ())
        = .ok m (fresh ())
      ∧ m.lookup "crash".toList = some "0x0100350000".toList
      ∧ m.lookup "Kit".toList = some "0x0000000183a00000".toList
      ∧ m.lookup "System".toList = none := by
  have htrail : Blank [] ∧ OneLine [] := by simp [Blank, OneLine]
  obtain ⟨m, hrun, -, hlookup, -⟩ :=
    images_recovered (.image crashBefore htrail crashListing_records) (fresh ())
  exact ⟨m, hrun, (hlookup _).trans (by decide), (hlookup _).trans (by decide),
    (hlookup _).trans (by decide)⟩

end Xrash
