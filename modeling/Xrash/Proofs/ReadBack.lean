import Xrash.Proofs.Words
import Xrash.Proofs.Commands

/-!
# Reading commands back

The shell reads a command back as it was meant exactly when its words are inert, so it reads every
command of every run back exactly when the strings the input gives the commands are.
-/

namespace Xrash

open Py

/-- The command's first word is the path of a program or a name the grammar does not reserve. -/
def Command.Named : Command → Prop
  | .stackwalk tool _ => tool.head? = some '/'
  | _ => True

theorem isName_path (p : Str) : Shell.isName (Shell.bare ('/' :: p)) = true := by
  have hres : Shell.bare ('/' :: p) ∉ Shell.reserved.map Shell.bare := by
    simp [Shell.reserved, Shell.bare]
  have hassign : Shell.isAssignment (Shell.bare ('/' :: p)) = false := by
    have : Shell.nameChar '/' = false := by decide
    simp [Shell.isAssignment, Shell.bare, this]
  unfold Shell.isName
  simp [hres, hassign]

theorem Command.isName_argv {c : Command} (h : c.Named) :
    ∃ w ws, c.argv = w :: ws ∧ Shell.isName (Shell.bare w) = true := by
  cases c with
  | atos => exact ⟨_, _, rfl, by decide⟩
  | mkdir => exact ⟨_, _, rfl, by decide⟩
  | cp => exact ⟨_, _, rfl, by decide⟩
  | stackwalk tool dmp =>
    obtain ⟨p, rfl⟩ := List.head?_eq_some_iff.1 h
    exact ⟨_, _, rfl, isName_path p⟩

/-- The shell reads a command back as it was meant exactly when its words are inert. -/
theorem Command.argv_text {c : Command} (h : c.Named) :
    Shell.argv c.text = .ok c.argv ↔ ∀ w ∈ c.argv, Shell.Inert w := by
  obtain ⟨w, ws, hargv, hname⟩ := isName_argv h
  rw [text_eq, hargv, Shell.argv_intercalate, and_iff_left hname]

theorem Shell.Inert.noNul {w : Str} (h : Shell.Inert w) : Char.ofNat 0 ∉ w := by
  intro hm
  have := h.chars _ hm
  exact absurd this (by decide)

theorem Command.noNul {c : Command} (h : ∀ w ∈ c.argv, Shell.Inert w) :
    Char.ofNat 0 ∉ c.text := by
  rw [text_eq]
  exact not_mem_joinBlank (by decide) fun w hw => (h w hw).noNul

/-- Whatever the shell does, it reads each command it gets back as it was meant. -/
def ReadBack (run : (σ : Type) → (Str → σ → CompletedProcess × σ) → σ → List Command) : Prop :=
  ∀ σ shell w, ∀ c ∈ run σ shell w, Shell.argv c.text = .ok c.argv

theorem Covers.readBack_iff {run : (σ : Type) → (Str → σ → CompletedProcess × σ) → σ → List Command}
    {cs : List Command} (h : Covers run cs) (hn : ∀ c ∈ cs, c.Named) :
    ReadBack run ↔ ∀ c ∈ cs, ∀ w ∈ c.argv, Shell.Inert w := by
  constructor
  · intro hr
    obtain ⟨hpre, hall⟩ := h Unit (fun _ _ => (⟨0, []⟩, ())) ()
    have hinert : ∀ c ∈ run Unit (fun _ _ => (⟨0, []⟩, ())) (), ∀ w ∈ c.argv, Shell.Inert w :=
      fun c hc => (Command.argv_text (hn c (hpre.subset hc))).1 (hr _ _ _ c hc)
    rcases hall fun _ _ => rfl with ⟨c, hc, h0⟩ | hrun
    · exact absurd h0 (Command.noNul (hinert c hc))
    · rwa [hrun] at hinert
  · intro hi σ shell w c hc
    have hc := (h σ shell w).1.subset hc
    exact (Command.argv_text (hn c hc)).2 (hi c hc)

/-! ## The strings that reach a command -/

/-- The words of an `atos` command that are not fixed are inert. -/
def AtosInert (arch name base addr : Str) : Prop :=
  Shell.Inert (name ++ dSYMsuffix ++ ("/Contents/Resources/DWARF/".toList ++ name))
    ∧ Shell.Inert arch ∧ Shell.Inert base ∧ Shell.Inert addr

theorem inert_atosFor (arch name base addr : Str) :
    (∀ w ∈ (atosFor arch name base addr).argv, Shell.Inert w) ↔ AtosInert arch name base addr := by
  have h1 : Shell.Inert "xcrun".toList :=
    Shell.inert_of_ordinary (by simp) (by simp [Shell.Ordinary])
  have h2 : Shell.Inert "atos".toList :=
    Shell.inert_of_ordinary (by simp) (by simp [Shell.Ordinary])
  have h3 : Shell.Inert "-o".toList := Shell.inert_of_ordinary (by simp) (by simp [Shell.Ordinary])
  have h4 : Shell.Inert "-arch".toList :=
    Shell.inert_of_ordinary (by simp) (by simp [Shell.Ordinary])
  have h5 : Shell.Inert "-l".toList := Shell.inert_of_ordinary (by simp) (by simp [Shell.Ordinary])
  unfold atosFor Command.argv AtosInert
  rw [List.forall_mem_cons, List.forall_mem_cons, List.forall_mem_cons, List.forall_mem_cons,
    List.forall_mem_cons, List.forall_mem_cons, List.forall_mem_cons, List.forall_mem_cons,
    List.forall_mem_singleton]
  constructor
  · rintro ⟨-, -, -, hd, -, ha, -, hb, hr⟩
    exact ⟨hd, ha, hb, hr⟩
  · rintro ⟨hd, ha, hb, hr⟩
    exact ⟨h1, h2, h3, hd, h4, ha, h5, hb, hr⟩

theorem inert_mkdir (dir : Str) :
    (∀ w ∈ (Command.mkdir dir).argv, Shell.Inert w) ↔ Shell.Inert dir := by
  have h1 : Shell.Inert "mkdir".toList :=
    Shell.inert_of_ordinary (by simp) (by simp [Shell.Ordinary])
  have h2 : Shell.Inert "-p".toList := Shell.inert_of_ordinary (by simp) (by simp [Shell.Ordinary])
  unfold Command.argv
  rw [List.forall_mem_cons, List.forall_mem_cons, List.forall_mem_singleton]
  exact ⟨fun h => h.2.2, fun h => ⟨h1, h2, h⟩⟩

theorem inert_cp (sym dir : Str) :
    (∀ w ∈ (Command.cp sym dir).argv, Shell.Inert w) ↔ Shell.Inert sym ∧ Shell.Inert dir := by
  have h1 : Shell.Inert "cp".toList := Shell.inert_of_ordinary (by simp) (by simp [Shell.Ordinary])
  unfold Command.argv
  rw [List.forall_mem_cons, List.forall_mem_cons, List.forall_mem_singleton]
  exact and_iff_right h1

theorem inert_stackwalk (tool dmp : Str) :
    (∀ w ∈ (Command.stackwalk tool dmp).argv, Shell.Inert w)
      ↔ Shell.Inert tool ∧ Shell.Inert dmp := by
  have h1 : Shell.Inert "sym".toList := Shell.inert_of_ordinary (by simp) (by simp [Shell.Ordinary])
  unfold Command.argv
  rw [List.forall_mem_cons, List.forall_mem_cons, List.forall_mem_singleton]
  exact ⟨fun h => ⟨h.1, h.2.1⟩, fun h => ⟨h.1, h.2, h1⟩⟩

section Strings

variable (prog path bt il arch : Str) (files : Str → Str) (dir : List FileName)

theorem named_reportCommands (report : Str) :
    ∀ c ∈ reportCommands arch dir report, c.Named := by
  intro c hc
  obtain ⟨line, -, hc⟩ := List.mem_filterMap.1 hc
  obtain ⟨index, name, addr, base, rest, -, -, -, rfl⟩ := reportCommand_eq_some.1 hc
  trivial

theorem named_xcodeCommands (btText ilText : Str) :
    ∀ c ∈ xcodeCommands arch dir btText ilText, c.Named := by
  intro c hc
  obtain ⟨f, -, hc⟩ := List.mem_filterMap.1 hc
  obtain ⟨mark, index, addr, name, rest, base, -, -, -, -, rfl⟩ := xcodeCommand_eq_some.1 hc
  trivial

theorem dirname_prefix (p : Str) : dirname p <+: p := by
  unfold dirname
  simp only []
  have h := List.rdropWhile_prefix (fun c => decide (c ≠ '/')) p
  split_ifs
  · exact h
  · exact (List.rdropWhile_prefix _ _).trans h

theorem named_walkCommands (file : ScriptPath) (dmp : Str) (files : Str → Option Str) :
    ∀ c ∈ walkCommands file.chars dmp files dir, c.Named := by
  intro c hc
  rcases List.mem_append.1 hc with hc | hc
  · obtain ⟨sym, -, hc⟩ := List.mem_flatMap.1 hc
    rcases hf : files sym with _ | content <;> rw [hf] at hc
    · cases hc
    · simp only [Option.elim_some, symCommands, placeCommands] at hc
      split at hc
      · simp only [List.mem_cons, List.not_mem_nil, or_false] at hc
        rcases hc with rfl | rfl <;> trivial
      · cases hc
  · split_ifs at hc
    · obtain rfl := List.mem_singleton.1 hc
      obtain ⟨rest, hrest⟩ := dirname_prefix file.chars
      have habs := file.abs
      rw [← hrest] at habs
      unfold Command.Named
      rcases hd : dirname file.chars with _ | ⟨c, d⟩
      · rfl
      · rw [hd] at habs
        exact habs
    · cases hc

theorem inert_reportCommands (report : Str) :
    (∀ c ∈ reportCommands arch dir report, ∀ w ∈ c.argv, Shell.Inert w)
      ↔ ∀ line ∈ (textLines report).takeWhile fun line => 4 ≤ (split line).length,
        ∀ index name addr base rest, split line = index :: name :: addr :: base :: rest →
          hexStart base → HasDSYM dir name → AtosInert arch name base addr := by
  unfold reportCommands
  rw [List.forall_mem_filterMap]
  refine forall₂_congr fun line _ => ⟨fun h index name addr base rest hs hb hd => ?_,
    fun h c hc => ?_⟩
  · exact (inert_atosFor _ _ _ _).1
      (h _ (reportCommand_eq_some.2 ⟨index, name, addr, base, rest, hs, hb, hd, rfl⟩))
  · obtain ⟨index, name, addr, base, rest, hs, hb, hd, rfl⟩ := reportCommand_eq_some.1 hc
    exact (inert_atosFor _ _ _ _).2 (h index name addr base rest hs hb hd)

theorem inert_xcodeCommands (btText ilText : Str) :
    (∀ c ∈ xcodeCommands arch dir btText ilText, ∀ w ∈ c.argv, Shell.Inert w)
      ↔ ∀ f ∈ (frames (textLines btText)).takeWhile fun f => FrameTokens (split f),
        ∀ mark index addr name rest base, split f = mark :: index :: addr :: name :: rest →
          hexStart addr → HasDSYM dir name → imageBase (textLines ilText) name = some base →
            AtosInert arch name base addr := by
  unfold xcodeCommands
  rw [List.forall_mem_filterMap]
  refine forall₂_congr fun f _ => ⟨fun h mark index addr name rest base hs ha hd hb => ?_,
    fun h c hc => ?_⟩
  · exact (inert_atosFor _ _ _ _).1
      (h _ (xcodeCommand_eq_some.2 ⟨mark, index, addr, name, rest, base, hs, ha, hd, hb, rfl⟩))
  · obtain ⟨mark, index, addr, name, rest, base, hs, ha, hd, hb, rfl⟩ :=
      xcodeCommand_eq_some.1 hc
    exact (inert_atosFor _ _ _ _).2 (h mark index addr name rest base hs ha hd hb)

theorem inert_symCommands (sym content : Str) :
    (∀ c ∈ symCommands sym content, ∀ w ∈ c.argv, Shell.Inert w)
      ↔ ∀ name id, place content = some (name, id) →
        Shell.Inert (storeDir name id) ∧ Shell.Inert sym := by
  unfold symCommands placeCommands
  rcases place content with _ | ⟨name, id⟩
  · simp
  · rw [List.forall_mem_cons, List.forall_mem_singleton, inert_mkdir, inert_cp]
    constructor
    · rintro ⟨hd, hs, -⟩ _ _ heq
      obtain ⟨rfl, rfl⟩ := Prod.mk.inj (Option.some.inj heq)
      exact ⟨hd, hs⟩
    · intro h
      obtain ⟨hd, hs⟩ := h name id rfl
      exact ⟨hd, hs, hd⟩

theorem inert_copyCommands (symFiles : Str → Option Str) :
    (∀ c ∈ copyCommands symFiles dir, ∀ w ∈ c.argv, Shell.Inert w)
      ↔ ∀ sym ∈ (syms dir).takeWhile fun sym => (symFiles sym).isSome,
        ∀ content name id, symFiles sym = some content → place content = some (name, id) →
          Shell.Inert (storeDir name id) ∧ Shell.Inert sym := by
  unfold copyCommands
  rw [List.forall_mem_flatMap]
  refine forall₂_congr fun sym _ => ?_
  rcases symFiles sym with _ | content
  · simp
  · rw [Option.elim_some, inert_symCommands]
    refine ⟨fun h _ name id hc => ?_, fun h name id => h content name id rfl⟩
    obtain rfl := Option.some.inj hc
    exact h name id

theorem inert_walkCommands (file dmp : Str) (symFiles : Str → Option Str) :
    (∀ c ∈ walkCommands file dmp symFiles dir, ∀ w ∈ c.argv, Shell.Inert w)
      ↔ (∀ sym ∈ (syms dir).takeWhile fun sym => (symFiles sym).isSome,
          ∀ content name id, symFiles sym = some content → place content = some (name, id) →
            Shell.Inert (storeDir name id) ∧ Shell.Inert sym)
        ∧ ((∀ sym ∈ syms dir, (symFiles sym).isSome) →
          Shell.Inert (dirname file ++ "/minidump_stackwalk".toList) ∧ Shell.Inert dmp) := by
  unfold walkCommands
  rw [List.forall_mem_append, inert_copyCommands]
  refine and_congr_right fun _ => ?_
  by_cases hr : ∀ sym ∈ syms dir, (symFiles sym).isSome
  · rw [if_pos hr, List.forall_mem_singleton, inert_stackwalk]
    exact (imp_iff_right hr).symm
  · rw [if_neg hr]
    exact iff_of_true (List.forall_mem_nil _) fun h => absurd h hr

end Strings

/-- Whatever the shell does, it reads every command of a script back as it was meant exactly when
it reads the strings back that the lines with a frame, the symbol files with a place and the
command line give the commands. -/
theorem commands_readBack_iff (prog path bt il : Str) (arch : CStr) (files : Str → Str)
    (dir : List FileName) (file : ScriptPath) (dmp : CStr) (symFiles : Str → Option Str) :
    (ReadBack (reportCalls prog path arch.chars files dir)
        ↔ ∀ line ∈ (textLines (files path)).takeWhile fun line => 4 ≤ (split line).length,
          ∀ index name addr base rest, split line = index :: name :: addr :: base :: rest →
            hexStart base → HasDSYM dir name → AtosInert arch.chars name base addr)
      ∧ (ReadBack (xcodeCalls prog bt il arch.chars files dir)
        ↔ ∀ f ∈ (frames (textLines (files bt))).takeWhile fun f => FrameTokens (split f),
          ∀ mark index addr name rest base, split f = mark :: index :: addr :: name :: rest →
            hexStart addr → HasDSYM dir name → imageBase (textLines (files il)) name = some base →
              AtosInert arch.chars name base addr)
      ∧ (ReadBack (walkCalls file.chars dmp.chars symFiles dir)
        ↔ (∀ sym ∈ (syms dir).takeWhile fun sym => (symFiles sym).isSome,
            ∀ content name id, symFiles sym = some content → place content = some (name, id) →
              Shell.Inert (storeDir name id) ∧ Shell.Inert sym)
          ∧ ((∀ sym ∈ syms dir, (symFiles sym).isSome) →
            Shell.Inert (dirname file.chars ++ "/minidump_stackwalk".toList)
              ∧ Shell.Inert dmp.chars)) := by
  refine ⟨?_, ?_, ?_⟩
  · rw [(covers_report _ _ _ _ _).readBack_iff (named_reportCommands _ _ _), inert_reportCommands]
  · rw [(covers_xcode _ _ _ _ _ _).readBack_iff (named_xcodeCommands _ _ _ _),
      inert_xcodeCommands]
  · rw [(covers_walk _ _ _ _).readBack_iff (named_walkCommands _ _ _ _), inert_walkCommands]

def semicolonReport : Str := "0 crash 0x1 0x0;reboot + 1".toList

/-- A load base is any token that starts with `0x`. -/
theorem commands_semicolon : ¬ ReadBack (reportCalls [] "2.crash".toList "arm64".toList
    (fun _ => semicolonReport) [crashDSYM]) := by
  intro h
  have hinert := ((covers_report _ _ _ _ _).readBack_iff (named_reportCommands _ _ _)).1 h
    (atosFor "arm64".toList "crash".toList "0x0;reboot".toList "0x1".toList) (by decide)
    "0x0;reboot".toList (by decide)
  exact absurd (hinert.chars ';' (by decide)) (by decide)

end Xrash
