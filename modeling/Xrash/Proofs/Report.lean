import Xrash.Proofs.Run

/-!
# Crash reports

`symbolicatereport` handles a report, printing one line for each of its lines, exactly when each
line has the four tokens the loop indexes and no line it sends holds a NUL.
-/

namespace Xrash

open Py

/-- One line is printed for each line of the report, in order: a line that makes a command, and
only such a line, as its first three tokens and the answer. -/
def ReportHandled (a : Symboliser) (arch : Str) (dir : List FileName) (report : Str)
    (r : EStateM.Result PyError (Trace Unit) Unit) : Prop :=
  ∃ t, r = .ok () t
    ∧ t.out = (textLines report).map (fun line =>
        printed a 3 (split line) (reportCommand arch dir (split line)))
    ∧ t.calls = (textLines report).filterMap (fun line => reportCommand arch dir (split line))
    ∧ ∀ p ∈ t.out, '\n' ∉ p

theorem HasDSYM.noNul {dir : List FileName} {name : Str} (h : HasDSYM dir name) :
    Char.ofNat 0 ∉ name := by
  obtain ⟨d, -, hd⟩ := h
  have := d.noNul
  rw [hd] at this
  exact fun hm => this (List.mem_append_left _ hm)

/-- Only the address and the base, which are not names, can bring a NUL into a command. -/
theorem nul_mem_atosFor (arch : CStr) {dir : List FileName} {name : Str} (h : HasDSYM dir name)
    (base addr : Str) :
    Char.ofNat 0 ∈ (atosFor arch.chars name base addr).text
      ↔ Char.ofNat 0 ∈ addr ∨ Char.ofNat 0 ∈ base := by
  have hname := h.noNul
  have harch := arch.noNul
  have hlit : ∀ s ∈ ["xcrun atos -o ".toList, "/Contents/Resources/DWARF/".toList,
      " -arch ".toList, " -l ".toList, " ".toList, dSYMsuffix], Char.ofNat 0 ∉ s := by decide
  simp only [List.mem_cons, List.not_mem_nil, or_false, forall_eq_or_imp, forall_eq] at hlit
  rw [atosFor, Command.atos_text]
  simp only [List.mem_append, hname, harch, hlit, false_or, or_false]
  exact or_comm

theorem not_mem_joinBlank {c : Char} (hc : c ≠ ' ') :
    ∀ {parts : List Str}, (∀ p ∈ parts, c ∉ p) → c ∉ joinBlank parts
  | [], _ => by simp [joinBlank]
  | [p], h => by
    rw [joinBlank_singleton]
    exact h p List.mem_cons_self
  | p :: q :: ps, h => by
    have ih := not_mem_joinBlank hc fun p hp => h p (List.mem_cons_of_mem _ hp)
    rw [joinBlank, List.intercalate_cons_cons]
    simp only [List.mem_append, List.mem_singleton, not_or]
    exact ⟨⟨h p List.mem_cons_self, hc⟩, ih⟩

/-- What is printed for a line is one line. -/
theorem newline_not_mem_printed (a : Symboliser) (n : ℕ) (line : Str) (c : Option Command) :
    '\n' ∉ printed a n (split line) c := by
  have hsplit : ∀ p ∈ split line, '\n' ∉ p := fun p hp =>
    (token_of_mem_split hp).not_mem (by decide)
  rcases c with _ | c
  · exact not_mem_joinBlank (by decide) hsplit
  · refine not_mem_joinBlank (by decide) ?_
    simp only [List.mem_cons, List.not_mem_nil, or_false, forall_eq_or_imp, forall_eq]
    exact ⟨not_mem_joinBlank (by decide) fun p hp => hsplit p (List.mem_of_mem_take hp),
      a.oneLine _⟩

section Script

variable {σ : Type} (prog path : Str) (arch : Str) (files : Str → Str) (dir : List FileName)

theorem symbolicatereport_run (shell : Str → σ → CompletedProcess × σ) (w : σ) :
    (symbolicatereport (scriptHost prog [path, arch] files dir shell)).run (fresh w)
      = ((textLines (files path)).forM (symbolicateLine
          (scriptHost prog [path, arch] files dir shell) 3 (reportFrame arch (dSYMs dir)))).run
        (fresh w) := rfl

end Script

/-- The report is handled exactly when every line is taken. -/
theorem reportHandled_iff (a : Symboliser) (prog path arch : Str) (files : Str → Str)
    (dir : List FileName) :
    ReportHandled a arch dir (files path)
        ((symbolicatereport (scriptHost prog [path, arch] files dir a.shell)).run (fresh ()))
      ↔ ∀ line ∈ textLines (files path),
        Taken (4 ≤ ·.length) (reportCommand arch dir) line := by
  have hf := reads_reportFrame (σ := Unit) arch dir
  have hs : (scriptHost prog [path, arch] files dir a.shell).shell = a.shell := rfl
  rw [symbolicatereport_run]
  constructor
  · rintro ⟨t, hrun, -⟩
    by_contra hl
    push Not at hl
    obtain ⟨e, t', he⟩ := loop_not_taken (n := 3) hs hf _ hl (fresh ())
    rw [he] at hrun
    cases hrun
  · intro hl
    refine ⟨_, loop_taken hs hf _ hl (fresh ()), by simp [fresh], by simp [fresh], ?_⟩
    intro p hp
    simp only [fresh, List.nil_append, List.mem_map] at hp
    obtain ⟨line, -, rfl⟩ := hp
    exact newline_not_mem_printed a 3 line _

theorem reportCommand_taken (arch : CStr) (dir : List FileName) (parts : List Str) :
    (∀ c, reportCommand arch.chars dir parts = some c → Char.ofNat 0 ∉ c.text)
      ↔ ∀ index name addr base rest, parts = index :: name :: addr :: base :: rest →
        hexStart base → HasDSYM dir name → Char.ofNat 0 ∉ addr ∧ Char.ofNat 0 ∉ base := by
  constructor
  · intro h index name addr base rest hp hb hd
    have := h _ (reportCommand_eq_some.2 ⟨index, name, addr, base, rest, hp, hb, hd, rfl⟩)
    exact not_or.1 ((nul_mem_atosFor arch hd base addr).not.1 this)
  · intro h c hc
    obtain ⟨index, name, addr, base, rest, hp, hb, hd, rfl⟩ := reportCommand_eq_some.1 hc
    exact (nul_mem_atosFor arch hd base addr).not.2 (not_or.2 (h _ _ _ _ _ hp hb hd))

/-- A report is handled exactly when each of its lines has at least four tokens, and no line to be
symbolicated has a NUL in its address or its base. -/
theorem symbolicatereport_handles_iff (a : Symboliser) (prog path : Str) (arch : CStr)
    (files : Str → Str) (dir : List FileName) :
    ReportHandled a arch.chars dir (files path)
        ((symbolicatereport (scriptHost prog [path, arch.chars] files dir a.shell)).run
          (fresh ()))
      ↔ ∀ line ∈ textLines (files path), 4 ≤ (split line).length
        ∧ ∀ index name addr base rest, split line = index :: name :: addr :: base :: rest →
          hexStart base → HasDSYM dir name → Char.ofNat 0 ∉ addr ∧ Char.ofNat 0 ∉ base := by
  rw [reportHandled_iff]
  simp only [Taken, reportCommand_taken]

def crashDSYM : FileName where
  chars := "crash.framework.dSYM".toList
  noNul := by decide
  ne := by decide
  noSlash := by decide

def silent : Symboliser := ⟨fun _ => [], fun _ => by simp⟩

def bareHeaders : Str := "Thread 0 Crashed:\n0 crash 0x1 0x0 + 1\n".toList

/-- A thread header has three tokens, and what follows the last newline of the file has none. -/
theorem symbolicatereport_header_aborts :
    ¬ ReportHandled silent "arm64".toList [] bareHeaders
      ((symbolicatereport (scriptHost [] ["2.crash".toList, "arm64".toList] (fun _ => bareHeaders)
        [] silent.shell)).run (fresh ())) := by
  intro h
  have := (reportHandled_iff silent [] "2.crash".toList "arm64".toList (fun _ => bareHeaders) []).1
    h "Thread 0 Crashed:".toList (by decide)
  exact absurd this.1 (by decide)

end Xrash
