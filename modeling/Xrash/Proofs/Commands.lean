import Xrash.WalkStack
import Xrash.Proofs.Xcode

/-!
# The commands the shell gets

Whatever the shell does, a run hands it commands from a list that the input alone determines, in
order, and all of them if they succeed (`Issues`).
-/

namespace Xrash

open Py

section Issues

variable {σ α β : Type}

def Returns (r : EStateM.Result PyError (Trace σ) α) : Prop := ∃ a t, r = .ok a t

def Host.Succeeds (h : Host σ) : Prop := ∀ text w, (h.shell text w).1.returncode = 0

/-- `x` hands the shell the commands `cs` up to some point. When it returns it has handed over all
of them, and it returns only if `ends`. If all commands succeed it stops early only at one that
holds a NUL. -/
def Issues (h : Host σ) (x : Py σ α) (cs : List Command) (ends : Prop) : Prop :=
  ∀ t, ∃ p, p <+: cs ∧ (after (x.run t)).calls = t.calls ++ p
    ∧ (Returns (x.run t) → ends ∧ p = cs)
    ∧ (h.Succeeds → (∃ c ∈ p, Char.ofNat 0 ∈ c.text) ∨ (p = cs ∧ (ends → Returns (x.run t))))

variable {h : Host σ} {x : Py σ α} {f : α → Py σ β} {cs cs' : List Command} {e : Prop}

theorem issues_pure (a : α) : Issues h (pure a) [] True := fun t =>
  ⟨[], List.prefix_refl _, (List.append_nil _).symm, fun _ => ⟨trivial, rfl⟩,
    fun _ => .inr ⟨rfl, fun _ => ⟨a, t, rfl⟩⟩⟩

theorem issues_print (args : List Str) : Issues h (print args) [] True := fun t =>
  ⟨[], List.prefix_refl _, (List.append_nil _).symm, fun _ => ⟨trivial, rfl⟩,
    fun _ => .inr ⟨rfl, fun _ => ⟨(), _, print_run args t⟩⟩⟩

theorem issues_error (hx : ∀ t, ∃ e, x.run t = .error e t) : Issues h x [] False := by
  intro t
  obtain ⟨e, he⟩ := hx t
  rw [he]
  refine ⟨[], List.prefix_refl _, (List.append_nil _).symm, ?_, fun _ => .inr ⟨rfl, False.elim⟩⟩
  rintro ⟨a, t', h⟩
  cases h

theorem issues_subprocessRun (c : Command) : Issues h (subprocessRun h c) [c] True := by
  intro t
  refine ⟨[c], List.prefix_refl _, ?_, fun _ => ⟨trivial, rfl⟩, fun hs => ?_⟩
  · rw [subprocessRun_run]
    split_ifs <;> rfl
  · by_cases h0 : Char.ofNat 0 ∈ c.text
    · exact .inl ⟨c, List.mem_cons_self, h0⟩
    · exact .inr ⟨rfl, fun _ => ⟨_, _, subprocessRun_ok h0 (hs _ _)⟩⟩

theorem Issues.of_run {a : α} (hx : ∀ t, x.run t = .ok a t) (hf : Issues h (f a) cs e) :
    Issues h (x >>= f) cs e := by
  intro t
  rw [EStateM.run_bind, hx]
  exact hf t

theorem Issues.bind (hx : Issues h x cs True) (hf : ∀ a, Issues h (f a) cs' e) :
    Issues h (x >>= f) (cs ++ cs') e := by
  intro t
  obtain ⟨p, hp, hcalls, hret, hall⟩ := hx t
  rw [EStateM.run_bind]
  rcases hrun : x.run t with ⟨a, t'⟩ | ⟨err, t'⟩ <;> rw [hrun] at hcalls hret hall
  · obtain rfl : p = cs := (hret ⟨a, t', rfl⟩).2
    obtain ⟨q, hq, hqcalls, hqret, hqall⟩ := hf a t'
    refine ⟨p ++ q, (List.prefix_append_right_inj p).2 hq, ?_, fun h => ?_, fun hs => ?_⟩
    · rw [show t'.calls = t.calls ++ p from hcalls, List.append_assoc] at hqcalls
      exact hqcalls
    · exact ⟨(hqret h).1, congrArg _ (hqret h).2⟩
    · rcases hqall hs with ⟨c, hc, h0⟩ | ⟨hqe, hqret⟩
      · exact .inl ⟨c, List.mem_append_right _ hc, h0⟩
      · exact .inr ⟨congrArg _ hqe, hqret⟩
  · refine ⟨p, hp.trans (List.prefix_append _ _), hcalls, ?_, fun hs => ?_⟩
    · rintro ⟨b, t'', h⟩
      cases h
    · rcases hall hs with h0 | ⟨-, hr⟩
      · exact .inl h0
      · obtain ⟨b, t'', h⟩ := hr trivial
        cases h

theorem Issues.bind_error (hx : Issues h x cs False) : Issues h (x >>= f) cs False := by
  intro t
  obtain ⟨p, hp, hcalls, hret, hall⟩ := hx t
  rw [EStateM.run_bind]
  rcases hrun : x.run t with ⟨a, t'⟩ | ⟨err, t'⟩ <;> rw [hrun] at hcalls hret hall
  · exact (hret ⟨a, t', rfl⟩).1.elim
  · refine ⟨p, hp, hcalls, ?_, fun hs => ?_⟩
    · rintro ⟨b, t'', h⟩
      cases h
    · rcases hall hs with h0 | ⟨hp, -⟩
      · exact .inl h0
      · exact .inr ⟨hp, False.elim⟩

theorem Issues.congr {e' : Prop} (hx : Issues h x cs e) (he : e ↔ e') : Issues h x cs e' :=
  propext he ▸ hx

/-- A loop issues what its iterations do, up to the first that does not end. -/
theorem issues_forM {ι : Type} {body : ι → Py σ Unit} {cmds : ι → List Command} {ends : ι → Prop}
    [DecidablePred ends] (hbody : ∀ i, Issues h (body i) (cmds i) (ends i))
    (hcmds : ∀ i, ¬ ends i → cmds i = []) :
    ∀ xs : List ι, Issues h (xs.forM body) ((xs.takeWhile ends).flatMap cmds) (∀ i ∈ xs, ends i)
  | [] => (issues_pure (h := h) ()).congr (by simp)
  | i :: xs => by
    by_cases hi : ends i
    · rw [List.takeWhile_cons_of_pos (by simpa using hi), List.flatMap_cons]
      refine (Issues.bind ((hbody i).congr (iff_true_intro hi))
        fun _ => issues_forM hbody hcmds xs).congr ?_
      simp [hi]
    · rw [List.takeWhile_cons_of_neg (by simpa using hi)]
      have := (hbody i).congr (iff_false_intro hi)
      rw [hcmds i hi] at this
      exact (this.bind_error (f := fun _ => xs.forM body)).congr (by simp [hi])

end Issues

/-! ## The symbolicators -/

section Symbolicators

variable {σ : Type} {h : Host σ} {n : ℕ} {frame : List Str → Py σ (Option Command)}
  {ok : List Str → Prop} {cmd : List Str → Option Command}

theorem issues_line (hf : Reads frame ok cmd) (line : Str) :
    Issues h (symbolicateLine h n frame line) (cmd (split line)).toList (ok (split line)) := by
  by_cases hok : ok (split line)
  · refine Issues.congr ?_ (iff_true_intro hok).symm
    refine Issues.of_run (hf.run_ok hok) ?_
    rcases cmd (split line) with _ | c
    · exact issues_print _
    · exact (issues_subprocessRun c).bind fun _ => issues_print _
  · rw [hf.none hok]
    refine Issues.congr ?_ (iff_false_intro hok).symm
    exact (issues_error fun t => ⟨_, hf.run_error hok t⟩).bind_error

theorem issues_loop [DecidablePred ok] (hf : Reads frame ok cmd) (stack : List Str) :
    Issues h (stack.forM (symbolicateLine h n frame))
      ((stack.takeWhile fun line => ok (split line)).filterMap fun line => cmd (split line))
      (∀ line ∈ stack, ok (split line)) := by
  rw [List.filterMap_eq_flatMap_toList]
  exact issues_forM (issues_line hf) (fun line hl => by rw [hf.none hl]; rfl) stack

/-- The commands `symbolicatereport` has for a report: those of the lines before the first that
has not the tokens it needs. -/
def reportCommands (arch : Str) (dir : List FileName) (report : Str) : List Command :=
  ((textLines report).takeWhile fun line => 4 ≤ (split line).length).filterMap
    fun line => reportCommand arch dir (split line)

/-- The commands `symbolicatexcode` has for a backtrace and an image list. -/
def xcodeCommands (arch : Str) (dir : List FileName) (bt il : Str) : List Command :=
  ((frames (textLines bt)).takeWhile fun f => FrameTokens (split f)).filterMap
    fun f => xcodeCommand arch dir (textLines il) (split f)

end Symbolicators

/-! ## The symbol store -/

section WalkStack

variable {σ : Type} {h : Host σ}

theorem openText_run {path : Str} {f : TextFile} {t : Trace σ}
    (hf : h.files path t.world = some f) : (openText h path).run t = .ok f t := by
  unfold openText
  simp only [EStateM.run_bind, EStateM.run_get, hf]
  rfl

/-- The commands one after the other, as long as they succeed. -/
def runAll (h : Host σ) : List Command → Py σ Unit
  | [] => pure ()
  | c :: cs => do
    let _ ← subprocessRun h c
    runAll h cs

theorem storeDir_eq (name id : Str) :
    format "sym/%s/%s/".toList [name, id] = storeDir name id := by
  have hfmt : "sym/%s/%s/".toList = "sym/".toList ++ '%' :: 's' :: '/' :: '%' :: 's' :: '/' :: []
    := by decide
  rw [hfmt, format_text (by decide), format_arg, format_cons (by decide), format_arg,
    format_cons (by decide), format_nil]
  rfl

/-- The body of the loop is the commands for the file, if its first line can be decoded. -/
theorem copySym_run {sym line : Str} {f : TextFile} {t : Trace σ}
    (hf : h.files sym t.world = some f) (hl : f.readline = some line) :
    (copySym h sym).run t = (runAll h (lineCommands sym line)).run t := by
  have hread : (decoded (some line) : Py σ Str).run t = .ok line t := rfl
  unfold copySym lineCommands placeCommands placeOf
  simp only [EStateM.run_bind, openText_run hf, hl, hread]
  generalize split line.dropLast = info
  rcases info with _ | ⟨a, _ | ⟨b, _ | ⟨c, _ | ⟨id, _ | ⟨name, _ | ⟨d, info⟩⟩⟩⟩⟩⟩
  · rfl
  · rfl
  · rfl
  · rfl
  · rfl
  · have h1 : (item [a, b, c, id, name] (-1)).run t = .ok name t := rfl
    have h2 : (item [a, b, c, id, name] (-2)).run t = .ok id t := rfl
    have hlen : [a, b, c, id, name].length = 5 := rfl
    simp only [if_pos hlen, EStateM.run_bind, h1, h2, storeDir_eq, runAll]
  · simp [runAll]

/-- The text of a file gives its commands. -/
theorem copySym_text {sym content : Str} {t : Trace σ}
    (hf : h.files sym t.world = some (.ofText content)) :
    (copySym h sym).run t = (runAll h (symCommands sym content)).run t :=
  copySym_run hf rfl

theorem copySym_error {sym : Str} {t : Trace σ} (hf : h.files sym t.world = none) :
    (copySym h sym).run t = .error .osError t := by
  unfold copySym openText
  simp only [EStateM.run_bind, EStateM.run_get, hf]
  rfl

theorem copySym_undecoded {sym : Str} {f : TextFile} {t : Trace σ}
    (hf : h.files sym t.world = some f) (hl : f.readline = none) :
    (copySym h sym).run t = .error .unicodeDecodeError t := by
  unfold copySym
  simp only [EStateM.run_bind, openText_run hf, hl]
  rfl

theorem issues_runAll : ∀ cs : List Command, Issues h (runAll h cs) cs True
  | [] => issues_pure _
  | c :: cs => (issues_subprocessRun c).bind fun _ => issues_runAll cs

/-- The commands for the symbol files, as long as they can be read. -/
def copyCommands (files : Str → Option Str) (dir : List FileName) : List Command :=
  ((syms dir).takeWhile fun sym => (files sym).isSome).flatMap
    fun sym => (files sym).elim [] (symCommands sym)

/-- The commands `walk_stack` has for the symbol files and the dump. -/
def walkCommands (file dmp : Str) (files : Str → Option Str) (dir : List FileName) :
    List Command :=
  copyCommands files dir ++ if ∀ sym ∈ syms dir, (files sym).isSome then
    [.stackwalk (dirname file ++ "/minidump_stackwalk".toList) dmp] else []

theorem issues_copyLoop {files : Str → Option Str}
    (ht : ∀ p w, h.files p w = (files p).map .ofText) :
    Issues h (copyLoop h) (copyCommands files h.listdir)
      (∀ sym ∈ syms h.listdir, (files sym).isSome) := by
  have hbody : ∀ sym, Issues h (copySym h sym) ((files sym).elim [] (symCommands sym))
      ((files sym).isSome = true) := by
    intro sym
    rcases hf : files sym with _ | content
    · exact (issues_error fun t => ⟨.osError, copySym_error (by rw [ht, hf]; rfl)⟩).congr (by simp)
    · intro t
      rw [copySym_text (by rw [ht, hf]; rfl)]
      exact (issues_runAll _).congr (by simp) t
  have hnone : ∀ sym, ¬ (files sym).isSome = true → (files sym).elim [] (symCommands sym) = [] := by
    intro sym hs
    rw [Option.not_isSome_iff_eq_none.1 hs]
    rfl
  have := issues_forM hbody hnone (syms h.listdir)
  unfold copyLoop copyCommands
  simpa only [Bool.decide_eq_true] using this

/-- `walk_stack` run on the dump `dmp` in a directory listed as `dir`, where `files` gives the
text of each file that can be read. -/
def walkHost (file dmp : Str) (files : Str → Option Str) (dir : List FileName)
    (shell : Str → σ → CompletedProcess × σ) : Host σ where
  argv := [file, dmp]
  file := file
  listdir := dir
  files p _ := (files p).map .ofText
  shell := shell

theorem issues_walk_stack (file dmp : Str) (files : Str → Option Str) (dir : List FileName)
    (shell : Str → σ → CompletedProcess × σ) :
    Issues (walkHost file dmp files dir shell) (walk_stack (walkHost file dmp files dir shell))
      (walkCommands file dmp files dir) (∀ sym ∈ syms dir, (files sym).isSome) := by
  have hloop := issues_copyLoop (h := walkHost file dmp files dir shell) fun _ _ => rfl
  have hrun : ∀ t, (walk_stack (walkHost file dmp files dir shell)).run t
      = (copyLoop (walkHost file dmp files dir shell) >>= fun _ => do
          let _ ← subprocessRun (walkHost file dmp files dir shell)
            (.stackwalk (dirname file ++ "/minidump_stackwalk".toList) dmp)).run t :=
    fun _ => rfl
  intro t
  rw [hrun]
  unfold walkCommands
  by_cases hr : ∀ sym ∈ syms dir, (files sym).isSome
  · rw [if_pos hr]
    refine (Issues.bind (hloop.congr (iff_true_intro hr)) fun _ => ?_) t
    exact ((issues_subprocessRun _).bind fun _ => issues_pure ()).congr (iff_true_intro hr).symm
  · rw [if_neg hr, List.append_nil]
    exact ((hloop.congr (iff_false_intro hr)).bind_error.congr (iff_false_intro hr).symm) t

end WalkStack

/-! ## The runs -/

/-- Some run hands the shell every one of these commands, unless one holds a NUL, and no run hands
it another. -/
def Covers (run : (σ : Type) → (Str → σ → CompletedProcess × σ) → σ → List Command)
    (cs : List Command) : Prop :=
  ∀ σ shell w, run σ shell w <+: cs
    ∧ ((∀ text w, (shell text w).1.returncode = 0) →
      (∃ c ∈ run σ shell w, Char.ofNat 0 ∈ c.text) ∨ run σ shell w = cs)

theorem Issues.covers {σ : Type} {h : Host σ} {x : Py σ Unit} {cs : List Command} {e : Prop}
    (hx : Issues h x cs e) (w : σ) :
    (after (x.run (fresh w))).calls <+: cs ∧ (h.Succeeds →
      (∃ c ∈ (after (x.run (fresh w))).calls, Char.ofNat 0 ∈ c.text)
        ∨ (after (x.run (fresh w))).calls = cs) := by
  obtain ⟨p, hp, hcalls, -, hall⟩ := hx (fresh w)
  rw [hcalls]
  exact ⟨hp, fun hs => (hall hs).imp id And.left⟩

section

variable (prog path bt il arch : Str) (files : Str → Str) (dir : List FileName)

/-- The commands of a run of `symbolicatereport`. -/
def reportCalls (σ : Type) (shell : Str → σ → CompletedProcess × σ) (w : σ) : List Command :=
  (after ((symbolicatereport (scriptHost prog [path, arch] files dir shell)).run (fresh w))).calls

/-- The commands of a run of `symbolicatexcode`. -/
def xcodeCalls (σ : Type) (shell : Str → σ → CompletedProcess × σ) (w : σ) : List Command :=
  (after ((symbolicatexcode (scriptHost prog [bt, il, arch] files dir shell)).run (fresh w))).calls

/-- The commands of a run of `walk_stack`. -/
def walkCalls (file dmp : Str) (files : Str → Option Str) (dir : List FileName) (σ : Type)
    (shell : Str → σ → CompletedProcess × σ) (w : σ) : List Command :=
  (after ((walk_stack (walkHost file dmp files dir shell)).run (fresh w))).calls

theorem covers_report :
    Covers (reportCalls prog path arch files dir) (reportCommands arch dir (files path)) := by
  intro σ shell w
  unfold reportCalls
  rw [symbolicatereport_run]
  exact (issues_loop (reads_reportFrame arch dir) _).covers w

theorem covers_xcode : Covers (xcodeCalls prog bt il arch files dir)
    (xcodeCommands arch dir (files bt) (files il)) := by
  intro σ shell w
  obtain ⟨m, hm, hrun⟩ := symbolicatexcode_run prog bt il arch files dir shell w
  unfold xcodeCalls
  rw [hrun]
  exact (issues_loop (reads_xcodeFrame hm arch dir) _).covers w

theorem covers_walk (file dmp : Str) (files : Str → Option Str) :
    Covers (walkCalls file dmp files dir) (walkCommands file dmp files dir) := fun _ shell w =>
  (issues_walk_stack file dmp files dir shell).covers w

end

end Xrash
