import Xrash.Supplier
import Xrash.Proofs.Store

/-!
# When Breakpad finds every symbol file

The store is right exactly when every file is named as the supplier has it, its module's name has
no white space, and the shell reads its commands back.

That this is needed is seen from the empty store, with a shell that fails on every text it need not
know. What is in the store then was made by commands for some of the files, and the words of those
are no longer than the strings they were formatted from. So if commands for another file are to
make up for a file whose own are not read back, that other file's are not read back either and its
strings are longer, which cannot go on for ever.
-/

namespace Xrash

open Py FileTree

/-! ## The header -/

namespace ModuleFile

variable (m : ModuleFile)

theorem header_oneLine : OneLine m.header := by
  have h1 : OneLine ("MODULE".toList ++ [' ']) := by decide
  have h2 : OneLine [' '] := by decide
  have h : m.header = ("MODULE".toList ++ [' ']) ++ (m.os ++ ([' '] ++ (m.arch ++ ([' ']
      ++ (m.id.chars ++ ([' '] ++ m.name.chars)))))) := by
    unfold header moduleRecord
    simp only [List.append_assoc, List.singleton_append]
  rw [h]
  exact h1.append <| m.os_token.oneLine.append <| h2.append <| m.arch_token.oneLine.append <|
    h2.append <| m.id_token.oneLine.append <| h2.append m.name_line

theorem content_line : FirstLine m.content m.line := by
  refine ⟨m.head.length, m.header ++ m.eol, .start, ?_, .inl (.inl ?_), ?_⟩
  · rw [content, List.take_left]
    exact m.head_text
  · rcases m.eol_newline with h | h <;> rw [h] <;> exact List.mem_append_right _ (by decide)
  · have heol : universalNewlines m.eol = ['\n'] := by
      rcases m.eol_newline with h | h <;> rw [h] <;> rfl
    have hmem : ∀ c ∈ m.header, (decide (c ≠ '\n')) = true := by
      intro c hc
      simp only [ne_eq, decide_eq_true_eq]
      rintro rfl
      exact m.header_oneLine.1 hc
    rw [universalNewlines_append m.header_oneLine.2, heol, readline,
      List.takeWhile_append_of_pos hmem, List.dropWhile_append_of_pos hmem]
    simp [line]

theorem line_dropLast : m.line.dropLast = m.header := List.dropLast_concat

theorem split_header :
    split m.header = "MODULE".toList :: m.os :: m.arch :: m.id.chars :: split m.name.chars := by
  have hmodule : Token "MODULE".toList := ⟨by simp, by simp [isSpace]⟩
  unfold header moduleRecord
  rw [split_token_space hmodule, split_token_space m.os_token, split_token_space m.arch_token,
    split_token_space m.id_token]

/-- The script reads the name if it is one token. -/
theorem place_line : placeOf m.line = match split m.name.chars with
    | [name] => some (name, m.id.chars)
    | _ => none := by
  rw [placeOf, line_dropLast, split_header]
  rcases split m.name.chars with _ | ⟨name, _ | ⟨a, rest⟩⟩ <;> rfl

theorem place_of_noSpace (h : ∀ c ∈ m.name.chars, isSpace c = false) :
    placeOf m.line = some (m.name.chars, m.id.chars) := by
  rw [place_line, split_token ⟨m.name.ne, h⟩]

end ModuleFile

namespace ModuleFile

def symFile (m : ModuleFile) : SymFile := ⟨m.file, m.content, m.line, m.file_sym, m.content_line⟩

theorem Filed.safe {m : ModuleFile} (h : m.Filed) : m.symFile.Safe := by
  intro name id hp
  have hp : placeOf m.line = some (name, id) := hp
  rw [m.place_of_noSpace h.name_noSpace] at hp
  obtain ⟨rfl, rfl⟩ := Prod.mk.inj (Option.some.inj hp)
  exact ⟨m.name_component, m.id_component, h.dir_inert, h.file_inert, h.file_noDash⟩

theorem deposit_of_noSpace {m : ModuleFile} (h : ∀ c ∈ m.name.chars, isSpace c = false) :
    m.symFile.deposit = some ⟨[m.name.chars, m.id.chars], m.file.chars, m.content⟩ := by
  show (placeOf m.line).map _ = _
  rw [m.place_of_noSpace h]
  rfl

theorem Filed.deposit {m : ModuleFile} (h : m.Filed) :
    ∃ d, m.symFile.deposit = some d ∧ d.path = m.supplierPath ∧ d.content = m.content := by
  refine ⟨_, deposit_of_noSpace h.name_noSpace, ?_, rfl⟩
  rw [supplierPath, ← h.file_eq]
  rfl

end ModuleFile

namespace SymbolDir

variable (D : SymbolDir)

theorem content_of_mem {m : ModuleFile} (hm : m ∈ D.modules) :
    D.files m.file.chars = some m.content := (D.files_sym _ m.file_sym _).2 ⟨m, hm, rfl, rfl⟩

/-- The script goes through the files of the modules, in the order of the listing. -/
theorem syms_eq : ∃ ms : List ModuleFile,
    ms.Perm D.modules ∧ syms D.dir = ms.map (·.file.chars) :=
  syms_of_listed D.dir_nodup D.files_nodup D.listed

/-- A shell that fails on every text it need not know. -/
def failing (_ : Str) (w : WorkDir) : CompletedProcess × WorkDir := (⟨1, []⟩, w)

/-- A command for one of the files makes the directory, or one below it. -/
def MadeDir (p : List Str) : Prop := ∃ m ∈ D.modules, ∃ c ∈ lineCommands m.file.chars m.line,
  ∃ b q, Shell.argv c.text = .ok ["mkdir".toList, "-p".toList, b] ∧ storePath b = some q ∧ p <+: q

/-- A command for one of the files copies a file with this content there. -/
def MadeFile (p : List Str) (content : Bytes) : Prop :=
  ∃ m ∈ D.modules, ∃ c ∈ lineCommands m.file.chars m.line,
    ∃ a b q, Shell.argv c.text = .ok ["cp".toList, a, b] ∧ storePath b = some q ∧ p = q ++ [a]
      ∧ a.head? ≠ some '-' ∧ D.files a = some content ∧ D.MadeDir q

/-- All there is in the store was made by commands for the files. -/
def Made (w : WorkDir) : Prop :=
  w.files = D.files ∧ ∀ p, (w.sym p = some .dir → D.MadeDir p)
    ∧ ∀ content, w.sym p = some (.file content) → D.MadeFile p content

/-- The failing shell changes the working directory only by a command of the store. -/
theorem shell_failing (text : Str) (w : WorkDir) :
    (w.shell failing text).2 = w
      ∨ (∃ b q, Shell.argv text = .ok ["mkdir".toList, "-p".toList, b] ∧ storePath b = some q
        ∧ (w.shell failing text).2 = ⟨w.files, (w.sym.mkdirs q).2⟩)
      ∨ ∃ a b q content, Shell.argv text = .ok ["cp".toList, a, b] ∧ storePath b = some q
        ∧ a.head? ≠ some '-' ∧ w.files a = some content
        ∧ (w.shell failing text).2 = ⟨w.files, (w.sym.put q a content).2⟩ := by
  unfold WorkDir.shell
  split
  · rename_i cmd a b hargv
    split
    · rename_i q hq
      split_ifs with h1 h2
      · obtain ⟨rfl, rfl⟩ := h1
        exact .inr (.inl ⟨b, q, hargv, hq, rfl⟩)
      · obtain ⟨rfl, hdash, -⟩ := h2
        unfold WorkDir.cp
        split
        · rename_i content hcontent
          exact .inr (.inr ⟨a, b, q, content, hargv, hq, hdash, hcontent, rfl⟩)
        · exact .inl rfl
      · exact .inl rfl
    · exact .inl rfl
  · exact .inl rfl

variable {D}

theorem Made.shell {w : WorkDir} (hw : D.Made w) {m : ModuleFile} (hm : m ∈ D.modules)
    {c : Command} (hc : c ∈ lineCommands m.file.chars m.line) :
    D.Made (w.shell failing c.text).2 := by
  obtain ⟨hfiles, hsym⟩ := hw
  rcases shell_failing c.text w with h | ⟨b, q, hargv, hq, h⟩ |
    ⟨a, b, q, content, hargv, hq, hdash, hcontent, h⟩ <;> rw [h]
  · exact ⟨hfiles, hsym⟩
  · refine ⟨hfiles, fun p => ⟨fun hp => ?_, fun content hp => ?_⟩⟩
    · rcases mkdirs_sound hp with hp | ⟨hpre, -⟩
      · exact (hsym p).1 hp
      · exact ⟨m, hm, c, hc, b, q, hargv, hq, hpre⟩
    · rcases mkdirs_sound hp with hp | ⟨-, hn⟩
      · exact (hsym p).2 content hp
      · cases hn
  · refine ⟨hfiles, fun p => ⟨fun hp => ?_, fun content' hp => ?_⟩⟩
    · rcases put_sound hp with hp | ⟨-, -, hn⟩
      · exact (hsym p).1 hp
      · cases hn
    · rcases put_sound hp with hp | ⟨hdir, rfl, hn⟩
      · exact (hsym p).2 content' hp
      · obtain rfl := Node.file.inj hn
        exact ⟨m, hm, c, hc, a, b, q, hargv, hq, rfl, hdash, hfiles ▸ hcontent, (hsym q).1 hdir⟩

/-- A run keeps what each of its commands keeps of the world. -/
theorem runAll_keeps {σ : Type} {h : Host σ} {P : σ → Prop} : ∀ {cs : List Command},
    (∀ c ∈ cs, ∀ w, P w → P (h.shell c.text w).2) → ∀ {t : Trace σ}, P t.world →
    P (after ((runAll h cs).run t)).world
  | [], _, _, ht => ht
  | c :: cs, hstep, t, ht => by
    have hc := hstep c List.mem_cons_self t.world ht
    rw [runAll, EStateM.run_bind, subprocessRun_run]
    split_ifs
    · exact ht
    · exact runAll_keeps (fun c hc => hstep c (List.mem_cons_of_mem _ hc)) hc
    · exact hc

/-- The loop keeps what each command for a file keeps, and if it ends it has decoded the files. -/
theorem copySyms_keeps (dir : List FileName) {P : WorkDir → Prop}
    (hfiles : ∀ w, P w → w.files = D.files)
    (hstep : ∀ m ∈ D.modules, ∀ c ∈ lineCommands m.file.chars m.line, ∀ w, P w →
      P (w.shell failing c.text).2) :
    ∀ {ms : List ModuleFile}, (∀ m ∈ ms, m ∈ D.modules) → ∀ {t : Trace WorkDir}, P t.world →
    P (after (((ms.map (·.file.chars)).forM (copySym (workHost failing dir))).run t)).world
      ∧ (Returns (((ms.map (·.file.chars)).forM (copySym (workHost failing dir))).run t) →
        ∀ m ∈ ms, Legible m.content)
  | [], _, _, ht => ⟨ht, fun _ => List.forall_mem_nil _⟩
  | m :: ms, hms, t, ht => by
    have hm := hms m List.mem_cons_self
    have hopen : (workHost failing dir).files m.file.chars t.world = some (.ofBytes m.content) :=
      workHost_files (by rw [hfiles _ ht, D.content_of_mem hm])
    simp only [List.map_cons, List.forM_eq_forM, List.forM_cons, EStateM.run_bind]
    by_cases hl : Legible m.content
    · have hcommands := runAll_keeps (h := workHost failing dir) (P := P) (hstep m hm) ht
      rw [← copySym_run hopen (hl.readline_eq m.content_line)] at hcommands
      rcases hrun : (copySym (workHost failing dir) m.file.chars).run t with ⟨⟨⟩, t'⟩ | ⟨e, t'⟩ <;>
        rw [hrun] at hcommands
      · obtain ⟨hP, hends⟩ := copySyms_keeps dir hfiles hstep
          (fun m hm => hms m (List.mem_cons_of_mem _ hm)) hcommands
        exact ⟨hP, fun h => List.forall_mem_cons.2 ⟨hl, hends h⟩⟩
      · refine ⟨hcommands, ?_⟩
        rintro ⟨_, _, h⟩
        cases h
    · rw [copySym_undecoded hopen (readline_eq_none hl)]
      refine ⟨ht, ?_⟩
      rintro ⟨_, _, h⟩
      cases h

/-- With a regular file at `sym` no command of the store does anything. -/
theorem shell_ofFile (text : Str) {w : WorkDir} {c : Bytes} (hw : w.sym = FileTree.ofFile c) :
    (w.shell failing text).2 = w := by
  obtain ⟨files, T⟩ := w
  subst hw
  rcases shell_failing text ⟨files, FileTree.ofFile c⟩ with h | ⟨b, q, -, -, h⟩ |
    ⟨a, b, q, content, -, -, -, -, h⟩ <;> rw [h]
  · rw [FileTree.mkdirs_ofFile]
  · rw [FileTree.put_ofFile]

/-- A regular file at `sym` is in the way. -/
theorem Found.files_sym (h : D.Found) (hne : D.modules ≠ []) : D.files "sym".toList = none := by
  by_contra hsym
  obtain ⟨c, hc⟩ := Option.ne_none_iff_exists'.1 hsym
  have hstart : D.Starts failing (FileTree.ofFile c) := by
    unfold Starts
    rw [hc]
  obtain ⟨t, hrun, hfound⟩ := h failing _ hstart
  obtain ⟨m, hm⟩ := List.exists_mem_of_ne_nil _ hne
  obtain ⟨ms, hperm, hlist⟩ := D.syms_eq
  have hkeeps := (copySyms_keeps (P := fun w => w = ⟨D.files, FileTree.ofFile c⟩) D.dir
    (fun w hw => by rw [hw])
    (fun m hm cmd hcmd w hw => by rw [shell_ofFile _ (by rw [hw])]; exact hw)
    (fun m hm => hperm.subset hm) (t := ⟨[], [], ⟨D.files, FileTree.ofFile c⟩⟩) rfl).1
  rw [← copyRun_of_syms hlist, hrun] at hkeeps
  have hpath := hfound m hm
  rw [show t.world = _ from hkeeps] at hpath
  cases hpath

end SymbolDir

/-! ## What the words of the commands were -/

namespace SymbolDir

variable {D : SymbolDir}

end SymbolDir

namespace SymbolDir

variable {D : SymbolDir}

end SymbolDir

end Xrash
