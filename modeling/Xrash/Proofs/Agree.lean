import Xrash.Crash
import Xrash.Proofs.Xcode

/-!
# The symbolicators agree

The fields of a frame are tokens, so each script reads off its own line the frame that was
written to it; and the base the image list gives an image denotes the number the report has.
-/

namespace Xrash

open Py

/-! ## The fields of a frame -/

theorem Denotes.chars {s : Str} {n : ℕ} (h : Denotes s n) {c : Char} (hc : c ∈ s) :
    c = 'x' ∨ HexDigit c := by
  obtain ⟨digits, rfl, -, hd, -⟩ := h
  rcases List.mem_append.1 hc with hc | hc
  · have : ∀ c ∈ "0x".toList, c = 'x' ∨ HexDigit c := by simp [HexDigit, DecDigit]
    exact this c hc
  · exact .inr (hd c hc)

theorem Denotes.token {s : Str} {n : ℕ} (h : Denotes s n) : Token s := by
  refine ⟨?_, fun c hc => ?_⟩
  · obtain ⟨digits, rfl, -⟩ := h
    simp
  · rcases h.chars hc with rfl | hc
    · simp [isSpace]
    · exact hc.notSpace

theorem Denotes.hexStart {s : Str} {n : ℕ} (h : Denotes s n) : hexStart s = true := by
  obtain ⟨digits, rfl, -⟩ := h
  exact decide_eq_true (List.prefix_append _ _)

theorem Denotes.noNul {s : Str} {n : ℕ} (h : Denotes s n) : Char.ofNat 0 ∉ s := by
  intro hm
  rcases h.chars hm with h | h
  · exact absurd h (by decide)
  · exact absurd h.range (by decide)

theorem token_digits {s : Str} (h : s ≠ [] ∧ ∀ c ∈ s, DecDigit c) : Token s :=
  ⟨h.1, fun c hc => HexDigit.notSpace (.inl (h.2 c hc))⟩

theorem Gap.blank {g : Str} (h : Gap g) : Blank g := by
  intro c hc
  rcases h.2 c hc with rfl | rfl <;> simp [isSpace]

theorem Gap.oneLine {g : Str} (h : Gap g) : OneLine g := by
  constructor <;> intro hm <;> exact absurd (h.2 _ hm) (by decide)

theorem Frame.name_token (f : Frame) : Token f.name := f.image.name_token

theorem joinBlank_concat : ∀ {ps : List Str}, ps ≠ [] → ∀ a,
    joinBlank [joinBlank ps, a] = joinBlank (ps ++ [a])
  | [p], _, a => by rw [joinBlank_singleton]; rfl
  | p :: q :: ps, _, a => by
    have ih := joinBlank_concat (List.cons_ne_nil q ps) a
    simp only [joinBlank, List.intercalate_cons_cons, List.intercalate_singleton,
      List.cons_append, List.append_assoc] at ih ⊢
    rw [← ih]

/-! ## A report -/

namespace ReportFrame

theorem split_line (f : ReportFrame) :
    split f.line = [f.index, f.name, f.addr, f.base, "+".toList, f.offset] := by
  have hg := fun i => (f.gaps_gap i).blank
  have hne := fun i => (f.gaps_gap i).1
  have hplus : Token ['+'] := ⟨by simp, by simp [isSpace]⟩
  have hcons : '+' :: (f.gaps 4 ++ f.offset) = ['+'] ++ (f.gaps 4 ++ f.offset) := rfl
  rw [line, split_token_append (token_digits f.index_digits) (hg 0) (hne 0),
    split_token_append f.name_token (hg 1) (hne 1),
    split_token_append f.addr_denotes.token (hg 2) (hne 2),
    split_token_append f.base_denotes.token (hg 3) (hne 3),
    hcons, split_token_append hplus (hg 4) (hne 4),
    split_token (token_digits f.offset_digits)]
  rfl

theorem line_oneLine (f : ReportFrame) : OneLine f.line := by
  have hg := fun i => (f.gaps_gap i).oneLine
  have hplus : OneLine ['+'] := by simp [OneLine]
  unfold line
  rw [← List.singleton_append]
  exact (token_digits f.index_digits).oneLine.append <| (hg 0).append <|
    f.name_token.oneLine.append <| (hg 1).append <| f.addr_denotes.token.oneLine.append <|
    (hg 2).append <| f.base_denotes.token.oneLine.append <| (hg 3).append <| hplus.append <|
    (hg 4).append (token_digits f.offset_digits).oneLine

theorem reportCommand_line (f : ReportFrame) (arch : Str) (dir : List FileName) :
    reportCommand arch dir (split f.line) = f.query arch dir f.base := by
  rw [split_line]
  simp [reportCommand, Frame.query, f.base_denotes.hexStart]

theorem printed_line (f : ReportFrame) (a : Symboliser) (c : Option Command) :
    printed a 3 (split f.line) c = f.answered (c.map fun c => a.answer c.text) := by
  rw [split_line]
  rcases c with _ | c
  · rfl
  · exact joinBlank_concat (by simp) _

end ReportFrame

theorem Frame.query_noNul (f : Frame) (arch : CStr) (dir : List FileName) {base : Str} {n : ℕ}
    (hb : HasDSYM dir f.name → Denotes base n) (c : Command)
    (hc : f.query arch.chars dir base = some c) : Char.ofNat 0 ∉ c.text := by
  unfold query at hc
  split_ifs at hc with hd
  obtain rfl := Option.some.inj hc
  rw [nul_mem_atosFor arch hd]
  exact not_or.2 ⟨f.addr_denotes.noNul, (hb hd).noNul⟩

/-! ## A backtrace -/

namespace Frame

theorem traceText_eq (f : Frame) : f.traceText = "frame".toList ++ ' ' :: (('#' :: (f.index
    ++ [':'])) ++ ' ' :: (f.addr ++ ' ' :: f.name)) := by
  have h1 : "frame #".toList = "frame".toList ++ [' ', '#'] := by decide
  have h2 : ": ".toList = [':', ' '] := by decide
  unfold traceText
  rw [h1, h2]
  simp only [List.append_assoc, List.cons_append, List.nil_append]

theorem mark_token (f : Frame) : Token ('#' :: (f.index ++ [':'])) := by
  refine ⟨by simp, ?_⟩
  have := (token_digits f.index_digits).2
  simp only [List.mem_cons, List.mem_append, List.not_mem_nil, or_false]
  rintro c (rfl | hc | rfl)
  · simp [isSpace]
  · exact this c hc
  · simp [isSpace]

theorem split_traceText (f : Frame) :
    split f.traceText = ["frame".toList, '#' :: (f.index ++ [':']), f.addr, f.name] := by
  have hframe : Token "frame".toList := ⟨by simp, by simp [isSpace]⟩
  rw [traceText_eq, split_token_space hframe, split_token_space f.mark_token,
    split_token_space f.addr_denotes.token]
  exact congrArg _ (congrArg _ (congrArg _ (split_token f.name_token)))

theorem traceText_oneLine (f : Frame) : OneLine f.traceText := by
  have h1 : OneLine "frame #".toList := by decide
  have h2 : OneLine ": ".toList := by decide
  have h3 : OneLine [' '] := by decide
  unfold traceText
  rw [← List.singleton_append]
  exact h1.append <| (token_digits f.index_digits).oneLine.append <| h2.append <|
    f.addr_denotes.token.oneLine.append <| h3.append f.name_token.oneLine

theorem xcodeCommand_traceText (f : Frame) (arch : Str) (dir : List FileName) {il : List Str}
    {base : Str} (hb : HasDSYM dir f.name → imageBase il f.name = some base) :
    xcodeCommand arch dir il (split f.traceText) = f.query arch dir base := by
  rw [split_traceText]
  by_cases hd : HasDSYM dir f.name
  · simp [xcodeCommand, query, hb hd, hd, f.addr_denotes.hexStart]
  · rcases h : imageBase il f.name with _ | b <;> simp [xcodeCommand, query, h, hd]

theorem printed_traceText (f : Frame) (a : Symboliser) (c : Option Command) :
    printed a 4 (split f.traceText) c = f.answered (c.map fun c => a.answer c.text) := by
  rw [split_traceText]
  rcases c with _ | c
  · rfl
  · exact joinBlank_concat (by simp) _

end Frame

/-- Nothing before `f` has the first character of the pattern. -/
theorem fromFirst_append {c : Char} {p x f : Str} (hx : c ∉ x) (hf : c :: p <+: f) :
    FromFirst (c :: p) (x ++ f) f := by
  refine ⟨hf, x, rfl, fun y z hyz hz => ?_⟩
  by_contra hlt
  obtain ⟨w, rfl⟩ : y <+: x := List.prefix_of_prefix_length_le ⟨z, hyz.symm⟩
    (List.prefix_append x f) (by omega)
  have hw : w ≠ [] := by
    rintro rfl
    simp at hlt
  obtain ⟨d, w, rfl⟩ := List.exists_cons_of_ne_nil hw
  obtain ⟨v, rfl⟩ := hz
  simp only [List.append_assoc, List.append_cancel_left_eq, List.cons_append,
    List.cons.injEq] at hyz
  exact hx (by simp [hyz.1])

theorem frames_cons {l : Str} {ls : List Str} {f : Str} (h : FromFirst frameMark l f) :
    frames (l :: ls) = f :: frames ls := by
  obtain ⟨i, hi, hline⟩ := fromFirst_find h.infix
  have hi : find "frame #".toList l = some i := hi
  have hl : decide ("frame #".toList <:+: l) = true := decide_eq_true h.infix
  rw [frames, List.filter_cons, if_pos hl, List.map_cons, hi]
  exact congrArg (· :: frames ls) (hline.unique h)

theorem frames_cons_of_not {l : Str} {ls : List Str} (h : ¬ "frame #".toList <:+: l) :
    frames (l :: ls) = frames ls := by
  have hl : decide ("frame #".toList <:+: l) ≠ true := fun hd => h (of_decide_eq_true hd)
  rw [frames, List.filter_cons, if_neg hl]
  rfl

namespace Backtrace

variable {fs : List Frame} {ls : List Str}

/-- The script finds the frames of a backtrace, in order. -/
theorem frames_eq (h : Backtrace fs ls) : frames ls = fs.map (·.traceText) := by
  induction h with
  | nil => rfl
  | header hl ho h ih => rw [frames_cons_of_not hl, ih]
  | @frame indent mark fs ls f hi hm h ih =>
    have hmark : 'f' ∉ indent ++ mark := by
      simp only [List.mem_append, not_or]
      refine ⟨fun hc => absurd (hi.1 _ hc) (by decide), ?_⟩
      rcases hm with rfl | rfl <;> decide
    have hf : frameMark <+: f.traceText := List.prefix_append _ _
    rw [← List.append_assoc, frames_cons (fromFirst_append hmark hf), ih]
    rfl

theorem oneLine (h : Backtrace fs ls) : ∀ l ∈ ls, OneLine l := by
  induction h with
  | nil => simp
  | header hl ho h ih => simpa [ho] using ih
  | @frame indent mark fs ls f hi hm h ih =>
    have hmark : OneLine mark := by rcases hm with rfl | rfl <;> decide
    simpa [hi.2.append (hmark.append f.traceText_oneLine)] using ih

theorem ne_nil (h : Backtrace fs ls) (hne : fs ≠ []) : ls ≠ [] := by
  rintro rfl
  cases h
  contradiction

end Backtrace

/-! ## The two runs -/

theorem exists_of_mem_left {α β : Type} {R : α → β → Prop} :
    ∀ {xs : List α} {ys : List β}, List.Forall₂ R xs ys → ∀ {x}, x ∈ xs → ∃ y ∈ ys, R x y
  | _, _, .cons h hs, x, hx => by
    rcases List.mem_cons.1 hx with rfl | hx
    · exact ⟨_, List.mem_cons_self, h⟩
    · obtain ⟨y, hy, hr⟩ := exists_of_mem_left hs hx
      exact ⟨y, List.mem_cons_of_mem _ hy, hr⟩

theorem exists_of_mem_right {α β : Type} {R : α → β → Prop} {xs : List α} {ys : List β}
    (h : List.Forall₂ R xs ys) {y : β} (hy : y ∈ ys) : ∃ x ∈ xs, R x y :=
  exists_of_mem_left h.flip hy

namespace Crash

variable (c : Crash)

theorem textLines_reportText : textLines c.reportText = c.frames.map (·.line) := by
  refine textLines_joinNewline (by simpa using c.frames_ne) fun l hl => ?_
  obtain ⟨f, -, rfl⟩ := List.mem_map.1 hl
  exact f.line_oneLine

theorem textLines_btText : textLines c.btText = c.bt :=
  textLines_joinNewline (c.bt_frames.ne_nil (by simpa using c.frames_ne)) c.bt_frames.oneLine

/-- The base the image list gives an image. -/
def listed (i : Image) : Str := (imageBase (textLines c.ilText) i.name).getD []

/-- The image list gives an image with a dSYM a base, and it denotes that of the image. -/
theorem imageBase_listed {i : Image} (hi : i ∈ c.images) (hd : HasDSYM c.dir i.name) :
    imageBase (textLines c.ilText) i.name = some (c.listed i) ∧ Denotes (c.listed i) i.base := by
  obtain ⟨j, hj, hname, hfw⟩ := c.dSYMs_frameworks _ hd
  obtain rfl : j = i := List.inj_on_of_nodup_map c.names_nodup hj hi hname
  obtain ⟨r, hr, hpath, -⟩ := exists_of_mem_left c.records_images hj
  have hmem : r ∈ c.records.filter fun r => r.InFramework ∧ r.name = j.name := by
    simp only [List.mem_filter, decide_eq_true_eq, ImageRecord.InFramework, ImageRecord.name,
      hpath]
    exact ⟨hr, hfw, rfl⟩
  have hlast := List.getLast_mem (List.ne_nil_of_mem hmem)
  simp only [List.mem_filter, decide_eq_true_eq] at hlast
  obtain ⟨k, hk, hkpath, hden⟩ := exists_of_mem_right c.records_images hlast.1
  have hkname : k.name = j.name := by rw [← hlast.2.2, Image.name, ImageRecord.name, hkpath]
  obtain rfl := List.inj_on_of_nodup_map c.names_nodup hk hj hkname
  have hbase := c.il_records.base k.name
  rw [List.getLast?_eq_some_getLast (List.ne_nil_of_mem hmem)] at hbase
  rw [listed, ilText, hbase]
  exact ⟨rfl, hden⟩

theorem report_run (a : Symboliser) (prog path : Str) (files : Str → Str)
    (hreport : files path = c.reportText) :
    (symbolicatereport (scriptHost prog [path, c.arch.chars] files c.dir a.shell)).run (fresh ())
      = .ok () ⟨c.frames.map fun f => f.answered
          ((f.query c.arch.chars c.dir f.base).map fun q => a.answer q.text),
        c.frames.filterMap fun f => f.query c.arch.chars c.dir f.base, ()⟩ := by
  have hl : ∀ line ∈ textLines (files path),
      Taken (4 ≤ ·.length) (reportCommand c.arch.chars c.dir) line := by
    rw [hreport, c.textLines_reportText]
    intro line hl
    obtain ⟨f, -, rfl⟩ := List.mem_map.1 hl
    refine ⟨by rw [f.split_line]; simp, fun q hq => ?_⟩
    rw [f.reportCommand_line] at hq
    exact f.query_noNul c.arch c.dir (fun _ => f.base_denotes) q hq
  rw [symbolicatereport_run, loop_taken rfl (reads_reportFrame _ _) _ hl, hreport,
    c.textLines_reportText]
  simp only [fresh, List.nil_append, List.map_map, List.filterMap_map, Function.comp_def,
    ReportFrame.printed_line, ReportFrame.reportCommand_line]

theorem xcode_run (a : Symboliser) (prog bt il : Str) (files : Str → Str)
    (hbt : files bt = c.btText) (hil : files il = c.ilText) :
    (symbolicatexcode (scriptHost prog [bt, il, c.arch.chars] files c.dir a.shell)).run (fresh ())
      = .ok () ⟨c.frames.map fun f => f.toFrame.answered
          ((f.query c.arch.chars c.dir (c.listed f.image)).map fun q => a.answer q.text),
        c.frames.filterMap fun f => f.query c.arch.chars c.dir (c.listed f.image), ()⟩ := by
  have hframes : Xrash.frames (textLines (files bt))
      = c.frames.map fun f => f.toFrame.traceText := by
    rw [hbt, c.textLines_btText, c.bt_frames.frames_eq, List.map_map]
    rfl
  have hcmd : ∀ f ∈ c.frames, xcodeCommand c.arch.chars c.dir (textLines c.ilText)
      (split f.toFrame.traceText) = f.query c.arch.chars c.dir (c.listed f.image) := fun f hf =>
    f.xcodeCommand_traceText _ _ fun hd => (c.imageBase_listed (c.frames_images f hf) hd).1
  obtain ⟨m, hm, hrun⟩ := symbolicatexcode_run prog bt il c.arch.chars files c.dir a.shell ()
  rw [hil] at hm
  have hl : ∀ f ∈ Xrash.frames (textLines (files bt)),
      Taken FrameTokens (xcodeCommand c.arch.chars c.dir (textLines c.ilText)) f := by
    rw [hframes]
    intro line hl
    obtain ⟨f, hf, rfl⟩ := List.mem_map.1 hl
    refine ⟨by rw [f.split_traceText]; simp [FrameTokens], fun q hq => ?_⟩
    rw [hcmd f hf] at hq
    exact f.query_noNul c.arch c.dir
      (fun hd => (c.imageBase_listed (c.frames_images f hf) hd).2) q hq
  have hout : ∀ f ∈ c.frames, printed a 4 (split f.toFrame.traceText)
      (xcodeCommand c.arch.chars c.dir (textLines c.ilText) (split f.toFrame.traceText))
      = f.toFrame.answered ((f.query c.arch.chars c.dir (c.listed f.image)).map
        fun q => a.answer q.text) := by
    intro f hf
    rw [f.printed_traceText, hcmd f hf]
  rw [hrun, loop_taken rfl (reads_xcodeFrame hm _ _) _ hl, hframes]
  simp only [fresh, List.nil_append, List.map_map, List.filterMap_map, Function.comp_def]
  rw [List.map_congr_left hout, List.filterMap_congr hcmd]

end Crash

/-- On the report and on what lldb printed of the same crash, both scripts end without an
exception, ask for the same frames with the same dSYM, name, architecture and address and with
bases that both denote the base of the frame's image, and print for each frame its own fields and
the answer; so if the symboliser reads a base as a number both print the same answers. -/
theorem symbolicators_agree (c : Crash) (a : Symboliser) (prog report bt il : Str)
    (files : Str → Str) (hreport : files report = c.reportText) (hbt : files bt = c.btText)
    (hil : files il = c.ilText) :
    ∃ base : Image → Str, (∀ i ∈ c.images, HasDSYM c.dir i.name → Denotes (base i) i.base)
      ∧ (symbolicatereport (scriptHost prog [report, c.arch.chars] files c.dir a.shell)).run
          (fresh ())
        = .ok () ⟨c.frames.map fun f => f.answered
            ((f.query c.arch.chars c.dir f.base).map fun q => a.answer q.text),
          c.frames.filterMap fun f => f.query c.arch.chars c.dir f.base, ()⟩
      ∧ (symbolicatexcode (scriptHost prog [bt, il, c.arch.chars] files c.dir a.shell)).run
          (fresh ())
        = .ok () ⟨c.frames.map fun f => f.toFrame.answered
            ((f.query c.arch.chars c.dir (base f.image)).map fun q => a.answer q.text),
          c.frames.filterMap fun f => f.query c.arch.chars c.dir (base f.image), ()⟩
      ∧ (a.ReadsBase → ∀ f ∈ c.frames,
          (f.query c.arch.chars c.dir f.base).map (fun q => a.answer q.text)
            = (f.query c.arch.chars c.dir (base f.image)).map fun q => a.answer q.text) := by
  refine ⟨c.listed, fun i hi hd => (c.imageBase_listed hi hd).2, c.report_run a prog report files
    hreport, c.xcode_run a prog bt il files hbt hil, fun ha f hf => ?_⟩
  by_cases hd : HasDSYM c.dir f.name
  · have := ha c.arch.chars f.name f.addr _ _ _ f.base_denotes
      (c.imageBase_listed (c.frames_images f hf) hd).2
    simp only [Frame.query, if_pos hd, Option.map_some, this]
  · simp only [Frame.query, if_neg hd]

def loadedCrash : Image where
  base := 4298440704
  path := crashImage.path
  path_abs := crashImage.path_abs
  path_line := crashImage.path_line
  name_token := by
    rw [show basename crashImage.path = "crash".toList by decide]
    exact ⟨by simp, by simp [isSpace]⟩

def loadedKit : Image where
  base := 6503268352
  path := kitImage.path
  path_abs := kitImage.path_abs
  path_line := kitImage.path_line
  name_token := by
    rw [show basename kitImage.path = "Kit".toList by decide]
    exact ⟨by simp, by simp [isSpace]⟩

def crashFrame : ReportFrame where
  index := "0".toList
  image := loadedCrash
  address := 4298473300
  addr := "0x0000000100357f54".toList
  index_digits := by simp [DecDigit]
  addr_denotes := ⟨"0000000100357f54".toList, by decide, by decide,
    by simp [HexDigit, DecDigit], by decide⟩
  base := "0x100350000".toList
  offset := "32596".toList
  base_denotes := ⟨"100350000".toList, by decide, by decide, by simp [HexDigit, DecDigit],
    by decide⟩
  offset_digits := by simp [DecDigit]
  gaps := fun _ => " \t".toList
  gaps_gap := fun _ => ⟨by simp, by simp⟩

/-- A frame of the image without a dSYM. -/
def kitFrame : ReportFrame where
  index := "1".toList
  image := loadedKit
  address := 6503272448
  addr := "0x0000000183a01000".toList
  index_digits := by simp [DecDigit]
  addr_denotes := ⟨"0000000183a01000".toList, by decide, by decide,
    by simp [HexDigit, DecDigit], by decide⟩
  base := "0x183a00000".toList
  offset := "4096".toList
  base_denotes := ⟨"183a00000".toList, by decide, by decide, by simp [HexDigit, DecDigit],
    by decide⟩
  offset_digits := by simp [DecDigit]
  gaps := fun _ => " ".toList
  gaps_gap := fun _ => ⟨by simp, by simp⟩

theorem hasDSYM_crash {name : Str} (h : HasDSYM [crashDSYM] name) : name = "crash".toList := by
  obtain ⟨d, hd, hname⟩ := h
  obtain rfl := List.mem_singleton.1 hd
  have : "crash".toList ++ dSYMsuffix = name ++ dSYMsuffix := hname
  exact (List.append_cancel_right this).symm

def crash : Crash where
  images := [loadedCrash, loadedKit]
  dir := [crashDSYM]
  arch := ⟨"arm64".toList, by decide⟩
  frames := [crashFrame, kitFrame]
  records := [crashImage, kitImage]
  bt := ["* thread #1".toList, "  ".toList ++ ("* ".toList ++ crashFrame.traceText),
    "    ".toList ++ ([] ++ kitFrame.traceText), []]
  il := crashListing
  names_nodup := by decide
  dSYMs_frameworks := fun name h => ⟨loadedCrash, by simp, by rw [hasDSYM_crash h]; decide,
    show ".framework".toList <:+: crashImage.path by decide⟩
  frames_ne := by simp
  frames_images := by simp [crashFrame, kitFrame]
  records_images := .cons ⟨rfl, "0100350000".toList, rfl, by decide,
    by simp [HexDigit, DecDigit], by decide⟩ (.cons ⟨rfl, "0000000183a00000".toList, rfl,
      by decide, by simp [HexDigit, DecDigit], by decide⟩ .nil)
  bt_frames := by
    have hi : ∀ n, Blank (List.replicate n ' ') ∧ OneLine (List.replicate n ' ') := fun n => by
      simp [Blank, OneLine, isSpace]
    refine .header (by decide) (by decide) ?_
    refine .frame _ (hi 2) (.inr rfl) ?_
    exact .frame _ (hi 4) (.inl rfl) (.header (by decide) (by decide) .nil)
  il_records := crashListing_records

def crashFiles (path : Str) : Str :=
  if path = "2.crash".toList then crash.reportText
  else if path = "bt.txt".toList then crash.btText else crash.ilText

theorem symbolicators_agree_crash :
    ∃ base t t', Denotes base loadedCrash.base
      ∧ (symbolicatereport (scriptHost [] ["2.crash".toList, "arm64".toList] crashFiles
          [crashDSYM] silent.shell)).run (fresh ()) = .ok () t
      ∧ (symbolicatexcode (scriptHost [] ["bt.txt".toList, "il.txt".toList, "arm64".toList]
          crashFiles [crashDSYM] silent.shell)).run (fresh ()) = .ok () t'
      ∧ t.calls = [atosFor "arm64".toList "crash".toList "0x100350000".toList crashFrame.addr]
      ∧ t'.calls = [atosFor "arm64".toList "crash".toList base crashFrame.addr]
      ∧ t.out = ["0 crash 0x0000000100357f54 ".toList,
        "1 Kit 0x0000000183a01000 0x183a00000 + 4096".toList]
      ∧ t'.out = ["frame #0: 0x0000000100357f54 crash ".toList,
        "frame #1: 0x0000000183a01000 Kit".toList] := by
  have hd : HasDSYM [crashDSYM] crashFrame.name := ⟨crashDSYM, by simp, by decide⟩
  have hkit : ¬ HasDSYM [crashDSYM] kitFrame.name := fun h => absurd (hasDSYM_crash h) (by decide)
  have hq : ∀ b, crashFrame.query "arm64".toList [crashDSYM] b
      = some (atosFor "arm64".toList "crash".toList b crashFrame.addr) := fun b => if_pos hd
  have hq' : ∀ b, kitFrame.query "arm64".toList [crashDSYM] b = none := fun b => if_neg hkit
  have hframes : crash.frames = [crashFrame, kitFrame] := rfl
  have harch : crash.arch.chars = "arm64".toList := rfl
  have hdir : crash.dir = [crashDSYM] := rfl
  obtain ⟨base, hbase, h, h', -⟩ := symbolicators_agree crash silent [] "2.crash".toList
    "bt.txt".toList "il.txt".toList crashFiles rfl rfl rfl
  rw [hframes, harch, hdir] at h h'
  simp only [List.map_cons, List.map_nil, List.filterMap_cons, List.filterMap_nil, hq, hq',
    Option.map_some, Option.map_none] at h h'
  refine ⟨base loadedCrash, _, _, hbase loadedCrash List.mem_cons_self hd, h, h', rfl, rfl, ?_, ?_⟩
  · have hout : crashFrame.answered (some []) = "0 crash 0x0000000100357f54 ".toList := by decide
    exact congrArg₂ (fun l l' => [l, l']) hout (by decide)
  · have hout : crashFrame.toFrame.answered (some [])
        = "frame #0: 0x0000000100357f54 crash ".toList := by decide
    exact congrArg₂ (fun l l' => [l, l']) hout (by decide)

end Xrash
