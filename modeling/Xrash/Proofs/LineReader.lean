import Xrash.LineReader

/-!
# However a file is read

What `LineReader` gives depends on the bytes of the file only, and not on how many of them each read
gets: the lines of its text, up to one that does not fit the buffer. So do the fields of
`ProcCpuInfoReader`.
-/

namespace Xrash

namespace LineReader

variable {r : LineReader} {s line : Str}

/-- The text that is not popped yet. -/
def text (r : LineReader) : Str := r.buf ++ (r.file.map (·.getD [])).flatten

/-- No read fails, or gets nothing before the end of the file. -/
def Readable (file : File) : Prop := ∀ c ∈ file, ∃ data, c = some data ∧ data ≠ []

structure Good (r : LineReader) : Prop where
  readable : Readable r.file
  eof : r.hitEof → r.file = []
  fits : r.buf.length ≤ kMaxLineLen

/-! ## The first line -/

theorem nextLine_end {l rest : Str} {i : ℕ} (hi : l.findIdx? isEnd = some i)
    (hlen : l.length ≤ kMaxLineLen) :
    nextLine (l ++ rest) = some (l.take i, l.drop (i + 1) ++ rest) := by
  obtain ⟨hlt, hidx⟩ := List.findIdx?_eq_some_iff_findIdx_eq.1 hi
  have hidx' : (l ++ rest).findIdx isEnd = i := by
    rw [List.findIdx_append, hidx, if_pos hlt]
  have htake : (l ++ rest).takeWhile (!isEnd ·) = l.take i := by
    rw [List.takeWhile_eq_take_findIdx_not]
    simp only [Bool.not_not, hidx']
    exact List.take_append_of_le_length hlt.le
  have hdrop : (l ++ rest).dropWhile (!isEnd ·) = l.drop i ++ rest := by
    rw [List.dropWhile_eq_drop_findIdx_not]
    simp only [Bool.not_not, hidx']
    exact List.drop_append_of_le_length hlt.le
  unfold nextLine
  rw [htake, hdrop, List.drop_eq_getElem_cons hlt, if_neg]
  · rfl
  · rw [not_or, List.length_take]
    refine ⟨fun hnil => ?_, by omega⟩
    have := congrArg List.length hnil
    rw [List.length_append, List.length_nil] at this
    omega

theorem takeWhile_of_none {l : Str} (hno : l.findIdx? isEnd = none) (rest : Str) :
    (l ++ rest).takeWhile (!isEnd ·) = l ++ rest.takeWhile (!isEnd ·) := by
  refine List.takeWhile_append_of_pos fun c hc => ?_
  rw [List.findIdx?_eq_none_iff.1 hno c hc]
  rfl

theorem nextLine_long {l rest : Str} (hno : l.findIdx? isEnd = none)
    (hlen : l.length = kMaxLineLen) : nextLine (l ++ rest) = none := by
  refine if_pos (.inr ?_)
  rw [takeWhile_of_none hno, List.length_append]
  omega

theorem nextLine_last {l : Str} (hno : l.findIdx? isEnd = none) (hne : l ≠ [])
    (hlen : l.length < kMaxLineLen) : nextLine l = some (l, []) := by
  have htake : l.takeWhile (!isEnd ·) = l := by
    have htake := takeWhile_of_none hno []
    rwa [List.append_nil, List.takeWhile_nil, List.append_nil] at htake
  have hdrop : l.dropWhile (!isEnd ·) = [] := by
    have := List.takeWhile_append_dropWhile (p := (!isEnd ·)) (l := l)
    rw [htake] at this
    exact List.append_right_eq_self.1 this
  unfold nextLine
  rw [htake, hdrop, if_neg (not_or.2 ⟨hne, not_le.2 hlen⟩)]
  rfl

/-! ## Reading -/

theorem sysRead_text {n : ℕ} {file file' : File} {data : Str}
    (h : sysRead n file = (some data, file')) :
    (file.map (·.getD [])).flatten = data ++ (file'.map (·.getD [])).flatten := by
  rcases file with _ | ⟨_ | c, file⟩
  · cases h
    rfl
  · cases h
  · cases h
    split_ifs with hle
    · rw [List.take_of_length_le hle]
      rfl
    · simp only [List.map_cons, List.flatten_cons, Option.getD_some, ← List.append_assoc,
        List.take_append_drop]

theorem Readable.sysRead {n : ℕ} {file file' : File} {data : Option Str} (hfile : Readable file)
    (h : sysRead n file = (data, file')) : Readable file' ∧ data ≠ none
      ∧ (0 < n → data = some [] → file = []) := by
  rcases file with _ | ⟨c, file⟩
  · cases h
    exact ⟨hfile, nofun, fun _ _ => rfl⟩
  · obtain ⟨data, rfl, hne⟩ := hfile c List.mem_cons_self
    have htail : Readable file := fun c hc => hfile c (List.mem_cons_of_mem _ hc)
    cases h
    refine ⟨?_, nofun, fun hn hnil => ?_⟩
    · split_ifs with hle
      · exact htail
      · intro c hc
        rcases List.mem_cons.1 hc with rfl | hc
        · refine ⟨_, rfl, fun hnil => ?_⟩
          have := List.drop_eq_nil_iff.1 hnil
          omega
        · exact htail c hc
    · rcases List.take_eq_nil_iff.1 (Option.some_inj.1 hnil) with h0 | hnil
      · omega
      · exact absurd hnil hne

/-- What a call returns and leaves, by the first line of the text. -/
inductive Gives (s : Str) : Option Str × LineReader → Prop
  | none {r' : LineReader} (h : nextLine s = none) (hr : Good r') (ht : r'.text = s) :
    Gives s (none, r')
  | line {line rest : Str} {r' : LineReader} (h : nextLine s = some (line, rest))
    (hr : Good (r'.popLine line.length)) (ht : (r'.popLine line.length).text = rest) :
    Gives s (some line, r')

/-- A call gets the first line of the text, and leaves the text after it when the line is popped. -/
theorem getNextLine_gives (hr : Good r) : Gives r.text r.getNextLine := by
  fun_induction getNextLine r with
  | case1 r hend =>
    have htext : r.text = [] := by
      unfold text
      rw [hend.1, hr.eof hend.2]
      rfl
    exact .none (by rw [htext]; exact if_pos (.inl rfl)) hr rfl
  | case2 r hne i hi =>
    have hlen : (r.buf.take i).length = i := by
      have := (List.findIdx?_eq_some_iff_findIdx_eq.1 hi).1
      rw [List.length_take]
      omega
    have hbuf : (r.buf.set i '\x00').drop (i + 1) = r.buf.drop (i + 1) :=
      List.drop_set_of_lt (Nat.lt_succ_self i)
    refine .line (nextLine_end hi hr.fits) ⟨hr.readable, hr.eof, ?_⟩ ?_
    · have := hr.fits
      show ((r.buf.set i '\x00').drop ((r.buf.take i).length + 1)).length ≤ kMaxLineLen
      rw [hlen, hbuf, List.length_drop]
      omega
    · show (r.buf.set i '\x00').drop ((r.buf.take i).length + 1) ++ _ = _
      rw [hlen, hbuf]
      rfl
  | case3 r hne hno hfull => exact .none (nextLine_long hno hfull) hr rfl
  | case4 r hne hno hfull heof =>
    have htext : r.text = r.buf := by
      unfold text
      rw [hr.eof heof]
      exact List.append_nil _
    have hpop : (r.buf ++ ['\x00']).drop (r.buf.length + 1) = [] :=
      List.drop_eq_nil_of_le (by rw [List.length_append, List.length_singleton])
    have hlast := nextLine_last hno (fun hnil => hne ⟨hnil, heof⟩)
      (lt_of_le_of_ne hr.fits hfull)
    rw [htext]
    refine .line hlast ⟨hr.readable, hr.eof, ?_⟩ ?_
    · show ((r.buf ++ ['\x00']).drop (r.buf.length + 1)).length ≤ kMaxLineLen
      rw [hpop]
      exact Nat.zero_le _
    · show (r.buf ++ ['\x00']).drop (r.buf.length + 1) ++ _ = []
      rw [hpop, hr.eof heof]
      rfl
  | case5 r hne hno hfull heof file hread => exact absurd rfl (hr.readable.sysRead hread).2.1
  | case6 r hne hno hfull heof file hread ih =>
    have hlt := lt_of_le_of_ne hr.fits hfull
    obtain ⟨hfile, -, hend⟩ := hr.readable.sysRead hread
    have hnil := hend (by omega) rfl
    rw [hnil] at hread
    cases hread
    have htext : r.text = text ⟨[], true, r.buf⟩ := by
      unfold text
      rw [hnil]
    rw [htext]
    exact ih ⟨hfile, fun _ => rfl, hr.fits⟩
  | case7 r hne hno hfull heof c data file hread ih =>
    have htext : r.text = text ⟨file, false, r.buf ++ c :: data⟩ := by
      unfold text
      rw [sysRead_text hread, List.append_assoc]
    rw [htext]
    refine ih ⟨(hr.readable.sysRead hread).1, fun h => absurd h Bool.false_ne_true, ?_⟩
    have hlen := (sysRead_some hread).1
    have := hr.fits
    rw [List.length_append]
    omega

theorem good_new {file : File} (hfile : Readable file) : Good (new file) :=
  ⟨hfile, nofun, Nat.zero_le _⟩

theorem lines_none (h : nextLine s = none) : lines s = [] := by
  rw [lines]
  split
  · rfl
  · rename_i h'
    rw [h] at h'
    cases h'

theorem lines_some {rest : Str} (h : nextLine s = some (line, rest)) :
    lines s = line :: lines rest := by
  rw [lines]
  split
  · rename_i h'
    rw [h] at h'
    cases h'
  · rename_i h'
    rw [h] at h'
    cases h'
    rfl

theorem call_eq : ∀ (n : ℕ) {r : LineReader}, Good r → call n r = (lines r.text)[n]?
  | n, r, hr => by
    have h := getNextLine_gives hr
    generalize hs : r.text = s at h ⊢
    generalize hx : r.getNextLine = x at h
    cases h with
    | @none r' hnext hr' ht =>
      rw [lines_none hnext, List.getElem?_nil]
      cases n with
      | zero => rw [call, hx]
      | succ n =>
        rw [call, hx]
        show call n r' = none
        rw [call_eq n hr', ht, lines_none hnext, List.getElem?_nil]
    | @line line rest r' hnext hr' ht =>
      rw [lines_some hnext]
      cases n with
      | zero =>
        rw [call, hx]
        rfl
      | succ n =>
        rw [call, hx, List.getElem?_cons_succ, ← ht]
        exact call_eq n hr'

/-- However the reads of a file fall, the calls return the lines of its text one after the other,
and then nothing. -/
theorem call_lines {file : File} (hfile : Readable file) (n : ℕ) :
    call n (new file) = (lines (file.map (·.getD [])).flatten)[n]? :=
  call_eq n (good_new hfile)

theorem call_lines_split :
    call 1 (new [some ['a', 'b'], some ['\n', 'c'], some ['\n']])
      = (lines ([some ['a', 'b'], some ['\n', 'c'], some ['\n']].map (·.getD [])).flatten)[1]? :=
  call_lines (by
    intro c hc
    simp only [List.mem_cons, List.not_mem_nil, or_false] at hc
    rcases hc with rfl | rfl | rfl <;> exact ⟨_, rfl, nofun⟩) 1

end LineReader

namespace ProcCpuInfoReader

open LineReader

variable {isspace : Char → Bool} {r : LineReader}

/-! ## Taking a line apart -/

theorem fieldOf_none {line : Str} (h : ':' ∉ line) : fieldOf isspace line = none := by
  unfold fieldOf
  rw [List.idxOf?_eq_none_iff.2 h]

theorem fieldOf_colon {x y : Str} (hx : ':' ∉ x) : fieldOf isspace (x ++ ':' :: y)
    = if x.rdropWhile isspace = [] then none
      else some (x.rdropWhile isspace, y.dropWhile isspace) := by
  have hdrop : (x ++ ':' :: y).drop (x.length + 1) = y := by
    rw [List.append_cons, List.drop_left' (by simp)]
  unfold fieldOf
  rw [idxOf?_append_cons hx]
  simp only [List.take_left, hdrop]

theorem fieldOf_iff {line name value : Str} :
    fieldOf isspace line = some (name, value) ↔ IsField isspace line name value := by
  constructor
  · intro h
    by_cases hcolon : ':' ∈ line
    · obtain ⟨x, y, rfl, hx⟩ := List.eq_append_cons_of_mem hcolon
      rw [fieldOf_colon hx] at h
      split_ifs at h with hname
      cases h
      refine ⟨x.rtakeWhile isspace, y.takeWhile isspace, ?_, ?_, fun c => List.mem_rtakeWhile_imp,
        fun c => List.mem_takeWhile_imp, ⟨hname, ?_⟩, fun h => ?_⟩
      · rw [List.rdropWhile_append_rtakeWhile, List.takeWhile_append_dropWhile]
      · rwa [List.rdropWhile_append_rtakeWhile]
      · exact Bool.eq_false_of_not_eq_true (List.rdropWhile_last_not isspace x hname)
      · exact Bool.eq_false_of_not_eq_true (List.head_dropWhile_not isspace h ▸ Bool.false_ne_true)
    · rw [fieldOf_none hcolon] at h
      cases h
  · rintro ⟨before, after, rfl, hcolon, hbefore, hafter, ⟨hne, hlast⟩, hhead⟩
    have hname : (name ++ before).rdropWhile isspace = name := by
      rw [rdropWhile_append_of_pos hbefore, List.rdropWhile_eq_self_iff]
      intro h
      rw [hlast]
      exact Bool.false_ne_true
    have hvalue : (after ++ value).dropWhile isspace = value := by
      rw [List.dropWhile_append_of_pos hafter]
      cases value with
      | nil => rfl
      | cons c value =>
        have hc : isspace c = false := hhead (List.cons_ne_nil c value)
        exact List.dropWhile_cons_of_neg (by simp [hc])
    rw [fieldOf_colon hcolon, hname, hvalue, if_neg hne]

theorem fields_iff {ls : List Str} {fs : List (Str × Str)} :
    Fields isspace ls fs ↔ fs = ls.filterMap (fieldOf isspace) := by
  constructor
  · intro h
    induction h with
    | nil => rfl
    | field h hs ih => rw [List.filterMap_cons_some (fieldOf_iff.2 h), ih]
    | @skip line ls fs h hs ih =>
      have hnone : fieldOf isspace line = none :=
        Option.eq_none_iff_forall_ne_some.2 fun f hf => h f.1 f.2 (fieldOf_iff.1 hf)
      rw [List.filterMap_cons_none hnone, ih]
  · rintro rfl
    induction ls with
    | nil => exact .nil
    | cons line ls ih =>
      rcases hfield : fieldOf isspace line with _ | ⟨name, value⟩
      · rw [List.filterMap_cons_none hfield]
        refine .skip (fun name value h => ?_) ih
        rw [fieldOf_iff.2 h] at hfield
        cases hfield
      · rw [List.filterMap_cons_some hfield]
        exact .field (fieldOf_iff.1 hfield) ih

/-! ## The fields of a file -/

/-- The fields of a text. -/
def fields (isspace : Char → Bool) (s : Str) : List (Str × Str) :=
  (lines s).filterMap (fieldOf isspace)

/-- The length of a name is within its line. -/
theorem length_fieldOf {line name value : Str} (h : fieldOf isspace line = some (name, value)) :
    name.length ≤ line.length := by
  unfold fieldOf at h
  split at h
  · cases h
  · simp only [] at h
    split_ifs at h
    cases h
    exact (List.rdropWhile_prefix isspace _).length_le.trans (List.length_take_le' ..)

/-- A call gets the first field of the text, and leaves the fields after it. -/
theorem nextField_spec (hr : Good r) :
    (nextField isspace r).1 = (fields isspace r.text).head?
      ∧ Good (popped (nextField isspace r).2)
      ∧ fields isspace (popped (nextField isspace r).2).text = (fields isspace r.text).tail := by
  fun_induction nextField isspace r with
  | case1 r r' h =>
    have hgives := getNextLine_gives hr
    rw [h] at hgives
    cases hgives with
    | none hnext hr' ht =>
      have hnil : fields isspace r.text = [] := by
        unfold fields
        rw [lines_none hnext]
        rfl
      rw [hnil]
      refine ⟨rfl, hr', ?_⟩
      show fields isspace r'.text = []
      rw [ht, hnil]
  | case2 r line r' h hfield ih =>
    have hgives := getNextLine_gives hr
    rw [h] at hgives
    cases hgives with
    | line hnext hr' ht =>
      have hskip : fields isspace r.text = fields isspace (r'.popLine line.length).text := by
        unfold fields
        rw [lines_some hnext, List.filterMap_cons_none hfield, ht]
      rw [hskip]
      exact ih hr'
  | case3 r line r' h name value hfield =>
    have hgives := getNextLine_gives hr
    rw [h] at hgives
    cases hgives with
    | line hnext hr' ht =>
      have hpop :
          ({ r' with buf := r'.buf.set name.length '\x00' } : LineReader).popLine line.length
          = r'.popLine line.length := by
        unfold popLine
        rw [List.drop_set_of_lt (Nat.lt_succ_of_le (length_fieldOf hfield))]
      have hcons : fields isspace r.text
          = (name, value) :: fields isspace (r'.popLine line.length).text := by
        unfold fields
        rw [lines_some hnext, List.filterMap_cons_some hfield, ht]
      rw [hcons]
      refine ⟨rfl, ?_, ?_⟩
      · show Good (LineReader.popLine _ _)
        rw [hpop]
        exact hr'
      · show fields isspace (LineReader.popLine _ _).text = _
        rw [hpop]
        rfl

theorem call_eq : ∀ (n : ℕ) {p : ProcCpuInfoReader}, Good (popped p) →
    call isspace n p = (fields isspace (popped p).text)[n]?
  | 0, p, hp => by
    rw [← List.head?_eq_getElem?]
    exact (nextField_spec hp).1
  | n + 1, p, hp => by
    obtain ⟨-, hp', htail⟩ := @nextField_spec isspace _ hp
    rw [← List.getElem?_tail, ← htail]
    exact call_eq n hp'

/-- The lines of a file have their fields in one way. However the reads of the file fall, the calls
return them one after the other, and then nothing. -/
theorem call_fields (isspace : Char → Bool) {file : File} (hfile : Readable file) :
    ∃ fs, (∀ gs, Fields isspace (lines (file.map (·.getD [])).flatten) gs ↔ gs = fs)
      ∧ ∀ n, call isspace n (new file) = fs[n]? :=
  ⟨_, fun _ => fields_iff, fun n => call_eq n (good_new hfile)⟩

theorem call_fields_split :
    ∃ fs, (∀ gs, Fields (· = ' ') (lines ([some ['a', ' ', ':'], some [' ', 'b', '\n', ' ', ':'],
        some ['x', '\n', 'c', ':']].map (·.getD [])).flatten) gs ↔ gs = fs)
      ∧ ∀ n, call (· = ' ') n (new [some ['a', ' ', ':'], some [' ', 'b', '\n', ' ', ':'],
        some ['x', '\n', 'c', ':']]) = fs[n]? :=
  call_fields (· = ' ') (by
    intro c hc
    simp only [List.mem_cons, List.not_mem_nil, or_false] at hc
    rcases hc with rfl | rfl | rfl <;> exact ⟨_, rfl, nofun⟩)

end ProcCpuInfoReader

end Xrash
