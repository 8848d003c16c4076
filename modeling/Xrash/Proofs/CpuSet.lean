import Xrash.CpuSet

/-!
# The processors of a list

A list of processors is parsed to the set of those it names, which are counted once each.
-/

namespace Xrash.CpuSet

variable {w : ℕ} {isspace : Char → Bool} {readDecimal : Str → ℕ × Str} {c c' : CpuSet}

/-! ## Sets -/

theorem not_has_new (i : ℕ) : ¬ new.Has i := BitMask.not_has_replicate _ _

theorem has_setBit {i j : ℕ} : (c.setBit i).Has j ↔ c.Has j ∨ j = i ∧ j < kMaxCpus := by
  unfold setBit
  split_ifs with hi
  · have hlt : i < kMaskWordBits * c.mask.length := by
      rw [c.length_mask]
      exact hi
    refine (BitMask.has_setBit (by decide) hlt).trans (or_congr Iff.rfl ?_)
    exact ⟨fun h => ⟨h, h ▸ hi⟩, fun h => h.1⟩
  · refine ⟨.inl, fun h => h.resolve_right fun h => hi ?_⟩
    rw [← h.1]
    exact h.2

theorem has_intersectWith {i : ℕ} : (c.intersectWith c').Has i ↔ c.Has i ∧ c'.Has i :=
  BitMask.has_inter

theorem getCount_eq (c : CpuSet) : c.getCount = Nat.count (BitMask.Has c.mask) kMaxCpus := by
  unfold getCount
  rw [BitMask.count_eq (by decide), c.length_mask]
  rfl

/-- A range is added, as far as it is supported, unless it ends at the last number there is. -/
theorem setRange_cases {last first : ℕ} (hlast : last < 2 ^ w) (hfirst : first < 2 ^ w) :
    (last + 1 = 2 ^ w ∧ setRange w last first c = none)
      ∨ last + 1 ≠ 2 ^ w ∧ ∃ c', setRange w last first c = some c'
        ∧ ∀ i, c'.Has i ↔ c.Has i ∨ (first ≤ i ∧ i ≤ last) ∧ i < kMaxCpus := by
  fun_induction setRange w last first c with
  | case1 first c hle heq => exact .inl ⟨by omega, rfl⟩
  | case2 first c hle hne ih =>
    rcases ih (by omega) with hnone | ⟨hend, c', hc', hhas⟩
    · exact .inl hnone
    · refine .inr ⟨hend, c', hc', fun i => ?_⟩
      rw [hhas, has_setBit, or_assoc]
      refine or_congr Iff.rfl ⟨?_, fun h => ?_⟩
      · rintro (⟨rfl, hi⟩ | ⟨hi, hmax⟩)
        · exact ⟨⟨Nat.le_refl _, hle⟩, hi⟩
        · exact ⟨⟨by omega, hi.2⟩, hmax⟩
      · rcases Nat.eq_or_lt_of_le h.1.1 with heq | hlt
        · exact .inl ⟨heq.symm, h.2⟩
        · exact .inr ⟨⟨hlt, h.1.2⟩, h.2⟩
  | case3 first c hlt =>
    refine .inr ⟨by omega, c, rfl, fun i => ⟨.inl, fun h => h.resolve_right ?_⟩⟩
    omega

/-! ## Lists -/

/-- A number in decimal. -/
def IsNumber (s : Str) : Prop := s ≠ [] ∧ ∀ d ∈ s, d.isDigit = true

def number (s : Str) : ℕ := Nat.ofDigitChars 10 s 0

/-- An item of a list: nothing but space, or a number and maybe the one its range ends with, with
space in front and any text after it. -/
inductive Item
  | blank (front : Str)
  | range (front first : Str) (last : Option Str) (back : Str)

def Item.tail (last : Option Str) (back : Str) : Str :=
  match last with
  | none => back
  | some last => '-' :: (last ++ back)

def Item.text : Item → Str
  | .blank front => front
  | .range front first last back => front ++ (first ++ tail last back)

/-- The text does not go on with a digit or a dash. -/
def Stops (s : Str) : Prop := ∀ d, s.head? = some d → d.isDigit = false ∧ d ≠ '-'

def Item.Valid (w : ℕ) (isspace : Char → Bool) : Item → Prop
  | .blank front => ∀ d ∈ front, isspace d = true
  | .range front first last back => (∀ d ∈ front, isspace d = true)
    ∧ (IsNumber first ∧ number first < 2 ^ w)
    ∧ (∀ l, last = some l → IsNumber l ∧ number l < 2 ^ w) ∧ ',' ∉ back ∧ Stops back

/-- The item names a processor. -/
def Item.Has : Item → ℕ → Prop
  | .blank _, _ => False
  | .range _ first last _, i => number first ≤ i ∧ i ≤ number (last.getD first)

/-- The item ends at the last number there is. -/
def Item.Endless (w : ℕ) : Item → Prop
  | .blank _ => False
  | .range _ first last _ => number (last.getD first) + 1 = 2 ^ w

def listText : List Item → Str
  | [] => []
  | [item] => item.text
  | item :: items => item.text ++ ',' :: listText items

/-- Space is neither a digit nor a comma. -/
def Spaces (isspace : Char → Bool) : Prop :=
  isspace ',' = false ∧ ∀ d : Char, d.isDigit = true → isspace d = false

/-- `my_read_decimal_ptr` reads a number that fits, up to the first other character. -/
def ReadsDecimal (w : ℕ) (readDecimal : Str → ℕ × Str) : Prop :=
  ∀ s rest : Str, IsNumber s → number s < 2 ^ w →
    (∀ d, rest.head? = some d → d.isDigit = false) → readDecimal (s ++ rest) = (number s, rest)

/-- What is after an item in the text: nothing, or a comma and the next items. -/
def After (suffix rest : Str) : Prop := suffix = [] ∧ rest = [] ∨ suffix = ',' :: rest

theorem After.stops {suffix rest : Str} (h : After suffix rest) : Stops suffix := by
  intro d hd
  rcases h with ⟨rfl, -⟩ | rfl
  · cases hd
  · cases hd
    decide

theorem Stops.append {s t : Str} (hs : Stops s) (ht : Stops t) : Stops (s ++ t) := by
  rcases s with _ | ⟨d, s⟩
  · exact ht
  · exact hs

theorem splitItem_after {item suffix rest : Str} (hitem : ',' ∉ item) (h : After suffix rest) :
    splitItem (item ++ suffix) = (item, rest) := by
  unfold splitItem
  rcases h with ⟨rfl, rfl⟩ | rfl
  · rw [List.append_nil, List.idxOf?_eq_none_iff.2 hitem]
  · rw [idxOf?_append_cons hitem]
    show ((item ++ ',' :: rest).take item.length, (item ++ ',' :: rest).drop (item.length + 1)) = _
    rw [List.take_left, List.append_cons, List.drop_left' (by simp)]

theorem digit_ne_comma {d : Char} (h : d.isDigit = true) : d ≠ ',' := by
  rintro rfl
  exact absurd h (by decide)

theorem comma_not_mem_number {s : Str} (h : IsNumber s) : ',' ∉ s :=
  fun hmem => digit_ne_comma (h.2 _ hmem) rfl

theorem readRange_eq {first back suffix rest : Str} {last : Option Str}
    (hread : ReadsDecimal w readDecimal) (hfirst : IsNumber first ∧ number first < 2 ^ w)
    (hlast : ∀ l, last = some l → IsNumber l ∧ number l < 2 ^ w) (hback : Stops back)
    (h : After suffix rest) :
    readRange readDecimal (first ++ Item.tail last back ++ suffix)
      = (number first, number (last.getD first)) := by
  have hstop := hback.append h.stops
  unfold readRange
  rcases last with _ | l
  · have hnext := hread first (back ++ suffix) hfirst.1 hfirst.2 fun d hd => (hstop d hd).1
    have hne : ¬ (back ++ suffix).head? = some '-' := fun hd => (hstop _ hd).2 rfl
    unfold Item.tail
    rw [List.append_assoc, hnext]
    exact congrArg (Prod.mk _) (if_neg hne)
  · obtain ⟨hl, hlt⟩ := hlast l rfl
    have hnext := hread first ('-' :: (l ++ (back ++ suffix))) hfirst.1 hfirst.2 (by
      intro d hd
      cases hd
      decide)
    have hend := hread l (back ++ suffix) hl hlt fun d hd => (hstop d hd).1
    unfold Item.tail
    rw [List.append_assoc, List.cons_append, List.append_assoc, hnext]
    show (_, (readDecimal (l ++ (back ++ suffix))).1) = _
    rw [hend]
    rfl

/-- What an item does to a set. -/
def Item.run (w : ℕ) (c : CpuSet) : Item → Option CpuSet
  | .blank _ => some c
  | .range _ first last _ => setRange w (number (last.getD first)) (number first) c

theorem After.comma (rest : Str) : After (',' :: rest) rest := .inr rfl

/-- One turn of the loop. -/
theorem parseItems_turn {p item suffix rest : Str} (hp : p ≠ [])
    (hdrop : p.dropWhile isspace = item ++ suffix) (hitem : ',' ∉ item) (h : After suffix rest)
    (c : CpuSet) : parseItems isspace readDecimal w p c
      = if item.rdropWhile isspace = [] then parseItems isspace readDecimal w rest c
        else (setRange w (readRange readDecimal (item ++ suffix)).2
          (readRange readDecimal (item ++ suffix)).1 c).bind
            (parseItems isspace readDecimal w rest) := by
  rw [parseItems, dif_neg hp, hdrop]
  dsimp only
  rw [splitItem_after hitem h]
  refine if_congr Iff.rfl rfl ?_
  rcases setRange w (readRange readDecimal (item ++ suffix)).2
    (readRange readDecimal (item ++ suffix)).1 c with _ | c'
  · rfl
  · rfl

theorem After.dropWhile {suffix rest : Str} (hspace : Spaces isspace) (h : After suffix rest) :
    suffix.dropWhile isspace = suffix := by
  rcases h with ⟨rfl, -⟩ | rfl
  · rfl
  · exact List.dropWhile_cons_of_neg (by rw [hspace.1]; decide)

theorem parseItems_after {item : Item} {suffix rest : Str} (hspace : Spaces isspace)
    (hread : ReadsDecimal w readDecimal) (hitem : item.Valid w isspace) (h : After suffix rest)
    (c : CpuSet) : parseItems isspace readDecimal w (item.text ++ suffix) c
      = (item.run w c).bind (parseItems isspace readDecimal w rest) := by
  rcases item with front | ⟨front, first, last, back⟩
  · have hdrop : (front ++ suffix).dropWhile isspace = [] ++ suffix :=
      (List.dropWhile_append_of_pos hitem).trans (h.dropWhile hspace)
    show parseItems isspace readDecimal w (front ++ suffix) c
      = parseItems isspace readDecimal w rest c
    by_cases hp : front ++ suffix = []
    · rcases h with ⟨-, rfl⟩ | rfl
      · rw [hp]
      · exact absurd (List.append_eq_nil_iff.1 hp).2 (List.cons_ne_nil _ _)
    · exact (parseItems_turn hp hdrop List.not_mem_nil h c).trans (if_pos rfl)
  · obtain ⟨hfront, hfirst, hlast, hcomma, hback⟩ := hitem
    obtain ⟨d, digits, rfl⟩ := List.exists_cons_of_ne_nil hfirst.1.1
    have hd := hspace.2 d (hfirst.1.2 d List.mem_cons_self)
    have hdrop : (front ++ (d :: digits ++ Item.tail last back) ++ suffix).dropWhile isspace
        = d :: digits ++ Item.tail last back ++ suffix := by
      rw [List.append_assoc, List.dropWhile_append_of_pos hfront]
      exact List.dropWhile_cons_of_neg (by rw [hd]; decide)
    have hmem : ',' ∉ d :: digits ++ Item.tail last back := by
      intro hmem
      rcases List.mem_append.1 hmem with hmem | hmem
      · exact comma_not_mem_number hfirst.1 hmem
      · rcases last with _ | l
        · exact hcomma hmem
        · rcases List.mem_cons.1 hmem with heq | hmem
          · exact absurd heq (by decide)
          · rcases List.mem_append.1 hmem with hmem | hmem
            · exact comma_not_mem_number (hlast l rfl).1 hmem
            · exact hcomma hmem
    have htrim : (d :: digits ++ Item.tail last back).rdropWhile isspace ≠ [] := by
      intro hnil
      have := List.rdropWhile_eq_nil_iff.1 hnil d (List.mem_append_left _ List.mem_cons_self)
      rw [hd] at this
      cases this
    refine (parseItems_turn (by simp) hdrop hmem h c).trans ((if_neg htrim).trans ?_)
    rw [readRange_eq hread hfirst hlast hback h]
    rfl

/-- The items of a text one after the other. -/
theorem parseItems_listText (hspace : Spaces isspace) (hread : ReadsDecimal w readDecimal) :
    ∀ {items : List Item}, (∀ item ∈ items, item.Valid w isspace) → ∀ c,
      parseItems isspace readDecimal w (listText items) c = items.foldlM (Item.run w) c
  | [], _, c => by
    rw [listText, parseItems, dif_pos rfl]
    rfl
  | [item], hitems, c => by
    have hturn := parseItems_after hspace hread (hitems item List.mem_cons_self)
      (.inl ⟨rfl, rfl⟩) c
    rw [List.append_nil] at hturn
    rw [listText, hturn, List.foldlM_cons]
    refine Option.bind_congr fun c' _ => ?_
    rw [parseItems, dif_pos rfl]
    rfl
  | item :: item' :: items, hitems, c => by
    have hturn := parseItems_after hspace hread (hitems item List.mem_cons_self)
      (.comma (listText (item' :: items))) c
    have htext : listText (item :: item' :: items)
        = item.text ++ ',' :: listText (item' :: items) := rfl
    rw [htext, hturn, List.foldlM_cons]
    exact Option.bind_congr fun c' _ => parseItems_listText hspace hread
      (fun item hi => hitems item (List.mem_cons_of_mem _ hi)) c'

theorem run_cases {item : Item} (hitem : item.Valid w isspace) :
    (item.Endless w ∧ item.run w c = none)
      ∨ ¬ item.Endless w ∧ ∃ c', item.run w c = some c'
        ∧ ∀ i, c'.Has i ↔ c.Has i ∨ item.Has i ∧ i < kMaxCpus := by
  rcases item with front | ⟨front, first, last, back⟩
  · exact .inr ⟨id, c, rfl, fun i => ⟨.inl, fun h => h.resolve_right fun h => h.1⟩⟩
  · obtain ⟨-, ⟨-, hfirst⟩, hlast, -⟩ := hitem
    refine setRange_cases ?_ hfirst
    rcases last with _ | l
    · exact hfirst
    · exact (hlast l rfl).2

theorem runAll_cases : ∀ {items : List Item}, (∀ item ∈ items, item.Valid w isspace) → ∀ c,
    ((∃ item ∈ items, item.Endless w) ∧ items.foldlM (Item.run w) c = none)
      ∨ (∀ item ∈ items, ¬ item.Endless w) ∧ ∃ c', items.foldlM (Item.run w) c = some c'
        ∧ ∀ i, c'.Has i ↔ c.Has i ∨ (∃ item ∈ items, item.Has i) ∧ i < kMaxCpus
  | [], _, c => .inr ⟨by simp, c, rfl, by simp⟩
  | item :: items, hitems, c => by
    rw [List.foldlM_cons]
    rcases run_cases (c := c) (hitems item List.mem_cons_self) with
      ⟨hend, hrun⟩ | ⟨hend, c₁, hrun, hhas₁⟩
    · rw [hrun]
      exact .inl ⟨⟨item, List.mem_cons_self, hend⟩, rfl⟩
    · rw [hrun]
      rcases runAll_cases (fun item hi => hitems item (List.mem_cons_of_mem _ hi)) c₁ with
        ⟨⟨item', hmem, hend'⟩, hrun'⟩ | ⟨hend', c', hrun', hhas⟩
      · exact .inl ⟨⟨item', List.mem_cons_of_mem _ hmem, hend'⟩, hrun'⟩
      · refine .inr ⟨List.forall_mem_cons.2 ⟨hend, hend'⟩, c', hrun', fun i => ?_⟩
        rw [hhas, hhas₁, List.exists_mem_cons_iff, or_assoc, or_and_right]

instance Item.decidableHas : ∀ (item : Item) (i : ℕ), Decidable (item.Has i)
  | .blank _, _ => inferInstanceAs (Decidable False)
  | .range .., _ => inferInstanceAs (Decidable (_ ∧ _))

/-- The processors some item names. -/
def named (items : List Item) (i : ℕ) : Prop := ∃ item ∈ items, item.Has i

instance decidableNamed (items : List Item) : DecidablePred (named items) :=
  fun _ => inferInstanceAs (Decidable (∃ item ∈ items, _))

/-- A list that fits the buffer, and what is parsed from it. -/
theorem parseSysFile_cases {items : List Item} (hspace : Spaces isspace)
    (hread : ReadsDecimal w readDecimal) (hitems : ∀ item ∈ items, item.Valid w isspace)
    (hlen : (listText items).length < 512) (file : File) (c : CpuSet) :
    ((∃ item ∈ items, item.Endless w)
        ∧ parseSysFile isspace readDecimal w (some (listText items) :: file) c = none)
      ∨ (∀ item ∈ items, ¬ item.Endless w)
        ∧ ∃ c', parseSysFile isspace readDecimal w (some (listText items) :: file) c
          = some (true, c') ∧ ∀ i, c'.Has i ↔ c.Has i ∨ named items i ∧ i < kMaxCpus := by
  have hparse : parseSysFile isspace readDecimal w (some (listText items) :: file) c
      = (items.foldlM (Item.run w) c).map fun c => (true, c) := by
    unfold parseSysFile sysRead
    show (parseItems isspace readDecimal w ((listText items).take (512 - 1)) c).map _ = _
    rw [List.take_of_length_le (by omega), parseItems_listText hspace hread hitems]
  rw [hparse]
  rcases runAll_cases hitems c with ⟨hend, hrun⟩ | ⟨hend, c', hrun, hhas⟩
  · rw [hrun]
    exact .inl ⟨hend, rfl⟩
  · rw [hrun]
    exact .inr ⟨hend, c', rfl, hhas⟩

/-- Parsing a list ends, unless one of its items ends at the last number there is. -/
theorem parseSysFile_returns_iff {items : List Item} (hspace : Spaces isspace)
    (hread : ReadsDecimal w readDecimal) (hitems : ∀ item ∈ items, item.Valid w isspace)
    (hlen : (listText items).length < 512) (file : File) (c : CpuSet) :
    (parseSysFile isspace readDecimal w (some (listText items) :: file) c).isSome
      ↔ ∀ item ∈ items, ¬ item.Endless w := by
  rcases parseSysFile_cases hspace hread hitems hlen file c with
    ⟨⟨item, hmem, hend⟩, hnone⟩ | ⟨hend, c', hsome, -⟩
  · rw [hnone]
    exact iff_of_false (by decide) fun h => h item hmem hend
  · rw [hsome]
    exact iff_of_true rfl hend

/-- What two lists have in common is counted: the supported processors that are named in both, each
once, however often and in whatever order they are named. -/
theorem getCount_intersectWith (items items' : List Item) (hspace : Spaces isspace)
    (hread : ReadsDecimal w readDecimal) (hitems : ∀ item ∈ items, item.Valid w isspace)
    (hitems' : ∀ item ∈ items', item.Valid w isspace) (hlen : (listText items).length < 512)
    (hlen' : (listText items').length < 512) (hend : ∀ item ∈ items, ¬ item.Endless w)
    (hend' : ∀ item ∈ items', ¬ item.Endless w) (file file' : File) :
    ∃ c c', parseSysFile isspace readDecimal w (some (listText items) :: file) new = some (true, c)
      ∧ parseSysFile isspace readDecimal w (some (listText items') :: file') new = some (true, c')
      ∧ (c.intersectWith c').getCount
        = ((Finset.range kMaxCpus).filter fun i => named items i ∧ named items' i).card := by
  rcases parseSysFile_cases hspace hread hitems hlen file new with
    ⟨⟨item, hmem, h⟩, -⟩ | ⟨-, c, hc, hhas⟩
  · exact absurd h (hend item hmem)
  rcases parseSysFile_cases hspace hread hitems' hlen' file' new with
    ⟨⟨item, hmem, h⟩, -⟩ | ⟨-, c', hc', hhas'⟩
  · exact absurd h (hend' item hmem)
  refine ⟨c, c', hc, hc', ?_⟩
  rw [getCount_eq, Nat.count_eq_card_filter_range]
  refine congrArg Finset.card (Finset.filter_congr fun i hi => ?_)
  show (c.intersectWith c').Has i ↔ _
  rw [has_intersectWith, hhas, hhas', or_iff_right (not_has_new i), or_iff_right (not_has_new i)]
  have hlt := Finset.mem_range.1 hi
  exact ⟨fun h => ⟨h.1.1, h.2.1⟩, fun h => ⟨⟨h.1, hlt⟩, h.2, hlt⟩⟩

/-- A reader of numbers. -/
def decimalPrefix (w : ℕ) (s : Str) : ℕ × Str :=
  (number (s.takeWhile Char.isDigit) % 2 ^ w, s.dropWhile Char.isDigit)

theorem decimalPrefix_reads (w : ℕ) : ReadsDecimal w (decimalPrefix w) := by
  intro s rest hs hlt hrest
  unfold decimalPrefix
  rw [List.takeWhile_append_of_pos hs.2, List.dropWhile_append_of_pos hs.2]
  rcases rest with _ | ⟨d, rest⟩
  · simp [Nat.mod_eq_of_lt hlt]
  · have hd := hrest d rfl
    simp [Nat.mod_eq_of_lt hlt, hd]

def isBlank (d : Char) : Bool := d = ' ' || d = '\n'

theorem isBlank_spaces : Spaces isBlank := by
  refine ⟨by decide, fun d hd => Bool.eq_false_iff.2 fun h => ?_⟩
  rcases Bool.or_eq_true_iff.1 h with h | h <;> rw [of_decide_eq_true h] at hd <;>
    exact absurd hd (by decide)

/-- The lists `0-3` and `2, 1-2`, each with a newline. -/
theorem getCount_intersectWith_two : ∃ c c',
    parseSysFile isBlank (decimalPrefix 64) 64 [some ['0', '-', '3', '\n']] new = some (true, c)
      ∧ parseSysFile isBlank (decimalPrefix 64) 64
        [some ['2', ',', ' ', '1', '-', '2', '\n']] new = some (true, c')
      ∧ (c.intersectWith c').getCount = ((Finset.range kMaxCpus).filter fun i =>
        named [.range [] ['0'] (some ['3']) ['\n']] i
          ∧ named [.range [] ['2'] none [], .range [' '] ['1'] (some ['2']) ['\n']] i).card :=
  getCount_intersectWith [.range [] ['0'] (some ['3']) ['\n']]
    [.range [] ['2'] none [], .range [' '] ['1'] (some ['2']) ['\n']]
    isBlank_spaces (decimalPrefix_reads 64)
    (by simp [Item.Valid, IsNumber, Stops, number, Nat.ofDigitChars])
    (by simp [Item.Valid, IsNumber, Stops, number, isBlank, Nat.ofDigitChars])
    (by decide) (by decide)
    (by simp [Item.Endless, number, Nat.ofDigitChars])
    (by simp [Item.Endless, number, Nat.ofDigitChars]) [] []

end Xrash.CpuSet
