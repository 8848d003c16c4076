import Xrash.Frames

/-!
# Runs of the loops

A line is taken when its frame can be read off its tokens (`ok`) and the command it makes holds no
NUL; a stack whose lines are all taken is printed line by line, and the first line that is not
ends the run.
-/

namespace Xrash

open Py

section Items

variable {σ : Type}

theorem item_run {α : Type} (xs : List α) (i : ℕ) (t : Trace σ) :
    (item xs i).run t = match xs[i]? with
      | some x => .ok x t
      | none => .error .indexError t := by
  simp only [item, show ¬ (i : ℤ) < 0 by omega, if_false, Int.toNat_natCast]
  cases xs[i]? <;> rfl

theorem item_last {α : Type} {xs : List α} (h : xs ≠ []) (t : Trace σ) :
    (item xs (-1)).run t = .ok (xs.getLast h) t := by
  have hlen := List.length_pos_iff.2 h
  have hj : (-1 + (xs.length : ℤ)).toNat = xs.length - 1 := by omega
  have hlt : ¬ -1 + (xs.length : ℤ) < 0 := by omega
  simp only [item, show (-1 : ℤ) < 0 by omega, if_true, hlt, if_false, hj,
    List.getElem?_eq_getElem (show xs.length - 1 < xs.length by omega)]
  rw [List.getLast_eq_getElem]
  rfl

theorem value_run {d : Dict} {k v : Str} (h : d.lookup k = some v) (t : Trace σ) :
    (value d k).run t = .ok v t := by
  simp only [value, h]
  rfl

end Items

/-! ## Dictionaries -/

theorem dSYMs_lookup_foldl : ∀ (fs : List Str) (d : Dict) (k : Str),
    (∀ f ∈ fs, dSYMsuffix <:+ f) →
    (fs.foldl (fun d f => d.insert (f.rdrop 15) f) d).lookup k
      = if k ++ dSYMsuffix ∈ fs then some (k ++ dSYMsuffix) else d.lookup k
  | [], d, k, _ => by simp
  | f :: fs, d, k, h => by
    obtain ⟨r, rfl⟩ := h f List.mem_cons_self
    have hr : (r ++ dSYMsuffix).rdrop 15 = r := by
      rw [show 15 = dSYMsuffix.length by decide, List.rdrop_append_length]
    rw [List.foldl_cons, dSYMs_lookup_foldl fs _ k fun f hf => h f (List.mem_cons_of_mem _ hf), hr]
    by_cases hk : k = r
    · subst hk
      simp [AList.lookup_insert]
    · rw [AList.lookup_insert_ne hk]
      simp [hk]

/-- The dictionary has exactly the names with a dSYM, and gives each its directory. -/
theorem dSYMs_lookup (dir : List FileName) (k : Str) :
    (dSYMs dir).lookup k = if HasDSYM dir k then some (k ++ dSYMsuffix) else none := by
  rw [dSYMs, dSYMs_lookup_foldl _ _ k fun f hf => by simpa using (List.mem_filter.1 hf).2]
  have hmem : k ++ dSYMsuffix ∈ (dir.map (·.chars)).filter (dSYMsuffix <:+ ·) ↔ HasDSYM dir k := by
    simp [HasDSYM]
  simp [hmem]

theorem mem_dSYMs (dir : List FileName) (k : Str) : k ∈ dSYMs dir ↔ HasDSYM dir k := by
  rw [← AList.lookup_isSome, dSYMs_lookup]
  split_ifs with h <;> simp [h]

/-! ## Commands -/

section Commands

variable {σ : Type}

theorem andM_run (x y : Py σ Bool) (t : Trace σ) :
    (x <&&> y).run t = match x.run t with
      | .ok true t' => y.run t'
      | .ok false t' => .ok false t'
      | .error e t' => .error e t' := by
  simp only [andM, EStateM.run_bind]
  rcases x.run t with ⟨_ | _, t'⟩ | ⟨e, t'⟩ <;> rfl

/-- A command is logged, and unless it holds a NUL the shell gets it; the run goes on only if
the command succeeds. -/
theorem subprocessRun_run (h : Host σ) (c : Command) (t : Trace σ) :
    (subprocessRun h c).run t =
      if Char.ofNat 0 ∈ c.text then .error .valueError { t with calls := t.calls ++ [c] }
      else if (h.shell c.text t.world).1.returncode = 0 then
        .ok (h.shell c.text t.world).1 ⟨t.out, t.calls ++ [c], (h.shell c.text t.world).2⟩
      else .error (.calledProcessError (h.shell c.text t.world).1.returncode)
        ⟨t.out, t.calls ++ [c], (h.shell c.text t.world).2⟩ := by
  simp only [subprocessRun, EStateM.run_bind, EStateM.run_modify]
  split_ifs with h0 h1
  · rfl
  · simp [h1]
  · simp [h1]

theorem subprocessRun_ok {h : Host σ} {c : Command} {t : Trace σ} (h0 : Char.ofNat 0 ∉ c.text)
    (h1 : (h.shell c.text t.world).1.returncode = 0) :
    (subprocessRun h c).run t
      = .ok (h.shell c.text t.world).1 ⟨t.out, t.calls ++ [c], (h.shell c.text t.world).2⟩ := by
  rw [subprocessRun_run, if_neg h0, if_pos h1]

theorem print_run (args : List Str) (t : Trace σ) :
    (print args).run t = .ok () { t with out := t.out ++ [joinBlank args] } := rfl

/-- `frame` reads a line by its tokens: they have to be `ok`, else an index is out of range, and
then the command they make, if any, is `cmd`. -/
structure Reads (frame : List Str → Py σ (Option Command)) (ok : List Str → Prop)
    (cmd : List Str → Option Command) : Prop where
  run_ok : ∀ {parts}, ok parts → ∀ t, (frame parts).run t = .ok (cmd parts) t
  run_error : ∀ {parts}, ¬ ok parts → ∀ t, (frame parts).run t = .error .indexError t
  none : ∀ {parts}, ¬ ok parts → cmd parts = none

/-- The lines of a report that make a command. -/
theorem reportCommand_eq_some {arch : Str} {dir : List FileName} {parts : List Str} {c : Command} :
    reportCommand arch dir parts = some c ↔ ∃ index name addr base rest,
      parts = index :: name :: addr :: base :: rest ∧ hexStart base ∧ HasDSYM dir name
        ∧ atosFor arch name base addr = c := by
  rcases parts with _ | ⟨index, _ | ⟨name, _ | ⟨addr, _ | ⟨base, rest⟩⟩⟩⟩
  · simp [reportCommand]
  · simp [reportCommand]
  · simp [reportCommand]
  · simp [reportCommand]
  · simp [reportCommand, and_assoc]

theorem reportFrame_run (arch : Str) (dir : List FileName) (parts : List Str) (t : Trace σ) :
    (reportFrame arch (dSYMs dir) parts).run t
      = if 4 ≤ parts.length then .ok (reportCommand arch dir parts) t
        else .error .indexError t := by
  rcases parts with _ | ⟨a, _ | ⟨b, _ | ⟨c, _ | ⟨d, rest⟩⟩⟩⟩
  · rfl
  · rfl
  · rfl
  · rfl
  · have h1 : (item (a :: b :: c :: d :: rest) 1).run t = .ok b t := rfl
    have h2 : (item (a :: b :: c :: d :: rest) 2).run t = .ok c t := rfl
    have h3 : (item (a :: b :: c :: d :: rest) 3).run t = .ok d t := rfl
    simp only [reportFrame, EStateM.run_bind, andM_run, EStateM.run_map, h3]
    by_cases hd : hexStart d <;> by_cases hb : HasDSYM dir b
    · have hv := dSYMs_lookup dir b
      rw [if_pos hb] at hv
      simp [hd, hb, h1, h2, h3, mem_dSYMs, value_run hv, reportCommand, atosFor]
    · simp [hd, hb, h1, mem_dSYMs, reportCommand]
    · simp [hd, reportCommand]
    · simp [hd, reportCommand]

theorem reads_reportFrame (arch : Str) (dir : List FileName) :
    Reads (reportFrame (σ := σ) arch (dSYMs dir)) (4 ≤ ·.length) (reportCommand arch dir) where
  run_ok h t := by rw [reportFrame_run, if_pos h]
  run_error h t := by rw [reportFrame_run, if_neg h]
  none h := by
    refine Option.eq_none_iff_forall_ne_some.2 fun c hc => ?_
    obtain ⟨index, name, addr, base, rest, rfl, -⟩ := reportCommand_eq_some.1 hc
    simp at h

/-- The tokens a frame of a backtrace is read from are there. -/
def FrameTokens (parts : List Str) : Prop :=
  3 ≤ parts.length ∧ (hexStart (parts.getD 2 []) → 4 ≤ parts.length)

instance (parts : List Str) : Decidable (FrameTokens parts) := inferInstanceAs (Decidable (_ ∧ _))

/-- The frames of a backtrace that make a command. -/
theorem xcodeCommand_eq_some {arch : Str} {dir : List FileName} {il parts : List Str}
    {c : Command} :
    xcodeCommand arch dir il parts = some c ↔ ∃ mark index addr name rest base,
      parts = mark :: index :: addr :: name :: rest ∧ hexStart addr ∧ HasDSYM dir name
        ∧ imageBase il name = some base ∧ atosFor arch name base addr = c := by
  rcases parts with _ | ⟨mark, _ | ⟨index, _ | ⟨addr, _ | ⟨name, rest⟩⟩⟩⟩
  · simp [xcodeCommand]
  · simp [xcodeCommand]
  · simp [xcodeCommand]
  · simp [xcodeCommand]
  · rcases hb : imageBase il name with _ | base
    · simp [xcodeCommand, hb]
    · simp [xcodeCommand, hb, and_assoc]

theorem xcodeFrame_run {images : Dict} {il : List Str}
    (hi : ∀ k, images.lookup k = imageBase il k) (arch : Str) (dir : List FileName)
    (parts : List Str) (t : Trace σ) :
    (xcodeFrame arch (dSYMs dir) images parts).run t
      = if FrameTokens parts then .ok (xcodeCommand arch dir il parts) t
        else .error .indexError t := by
  rcases parts with _ | ⟨a, _ | ⟨b, _ | ⟨c, _ | ⟨d, rest⟩⟩⟩⟩
  · rfl
  · rfl
  · rfl
  · have h2 : (item [a, b, c] 2).run t = .ok c t := rfl
    have h3 : (item [a, b, c] 3).run t = .error .indexError t := rfl
    simp only [xcodeFrame, EStateM.run_bind, andM_run, EStateM.run_map, h2]
    by_cases hc : hexStart c <;> simp [hc, h3, FrameTokens, xcodeCommand]
  · have h2 : (item (a :: b :: c :: d :: rest) 2).run t = .ok c t := rfl
    have h3 : (item (a :: b :: c :: d :: rest) 3).run t = .ok d t := rfl
    have hok : FrameTokens (a :: b :: c :: d :: rest) := by simp [FrameTokens]
    have hmem : d ∈ images ↔ (imageBase il d).isSome := by rw [← AList.lookup_isSome, hi]
    rw [if_pos hok]
    simp only [xcodeFrame, EStateM.run_bind, andM_run, EStateM.run_map, h2]
    by_cases hc : hexStart c <;> by_cases hd : HasDSYM dir d <;>
      rcases hb : imageBase il d with _ | base <;> rw [hb] at hmem
    · simp [hc, hd, hb, h3, mem_dSYMs, hmem, xcodeCommand]
    · have hv := dSYMs_lookup dir d
      rw [if_pos hd] at hv
      simp [hc, hd, hb, h2, h3, mem_dSYMs, hmem, value_run hv, value_run ((hi d).trans hb),
        xcodeCommand, atosFor]
    all_goals simp [hc, hd, hb, h3, mem_dSYMs, xcodeCommand]

theorem reads_xcodeFrame {images : Dict} {il : List Str}
    (hi : ∀ k, images.lookup k = imageBase il k) (arch : Str) (dir : List FileName) :
    Reads (xcodeFrame (σ := σ) arch (dSYMs dir) images) FrameTokens
      (xcodeCommand arch dir il) where
  run_ok h t := by rw [xcodeFrame_run hi, if_pos h]
  run_error h t := by rw [xcodeFrame_run hi, if_neg h]
  none h := by
    refine Option.eq_none_iff_forall_ne_some.2 fun c hc => ?_
    obtain ⟨mark, index, addr, name, rest, base, rfl, -⟩ := xcodeCommand_eq_some.1 hc
    simp [FrameTokens] at h

end Commands

/-! ## Lines -/

section Lines

variable {a : Symboliser} {h : Host Unit} {n : ℕ} {frame : List Str → Py Unit (Option Command)}
  {ok : List Str → Prop} {cmd : List Str → Option Command}

/-- The line's frame can be read, and the shell can be given its command. -/
def Taken (ok : List Str → Prop) (cmd : List Str → Option Command) (line : Str) : Prop :=
  ok (split line) ∧ ∀ c, cmd (split line) = some c → Char.ofNat 0 ∉ c.text

theorem line_taken (hs : h.shell = a.shell) (hf : Reads frame ok cmd) {line : Str}
    (hl : Taken ok cmd line) (t : Trace Unit) :
    (symbolicateLine h n frame line).run t = .ok ()
      ⟨t.out ++ [printed a n (split line) (cmd (split line))],
        t.calls ++ (cmd (split line)).toList, ()⟩ := by
  simp only [symbolicateLine, EStateM.run_bind, hf.run_ok hl.1]
  rcases hc : cmd (split line) with _ | c
  · simp [print_run, printed, joinBlank_singleton]
  · have hr := subprocessRun_ok (h := h) (t := t) (hl.2 c hc) (by rw [hs]; rfl)
    simp only [EStateM.run_bind, hr, print_run, hs, Symboliser.shell, printed,
      List.dropLast_concat, Option.toList_some]

theorem line_not_taken (hf : Reads frame ok cmd) {line : Str} (hl : ¬ Taken ok cmd line)
    (t : Trace Unit) : ∃ e t', (symbolicateLine h n frame line).run t = .error e t' := by
  simp only [symbolicateLine, EStateM.run_bind]
  by_cases hok : ok (split line)
  · simp only [Taken, hok, true_and, not_forall, not_not] at hl
    obtain ⟨c, hc, h0⟩ := hl
    simp only [hf.run_ok hok, hc, EStateM.run_bind, subprocessRun_run, if_pos h0]
    exact ⟨_, _, rfl⟩
  · simp only [hf.run_error hok]
    exact ⟨_, _, rfl⟩

/-- A stack whose lines are all taken is printed line by line. -/
theorem loop_taken (hs : h.shell = a.shell) (hf : Reads frame ok cmd) :
    ∀ (stack : List Str), (∀ line ∈ stack, Taken ok cmd line) → ∀ t : Trace Unit,
      (stack.forM (symbolicateLine h n frame)).run t = .ok ()
        ⟨t.out ++ stack.map fun line => printed a n (split line) (cmd (split line)),
          t.calls ++ stack.filterMap (fun line => cmd (split line)), ()⟩
  | [], _, t => by simp
  | line :: stack, hl, t => by
    have ih := loop_taken hs hf stack fun l hm => hl l (List.mem_cons_of_mem _ hm)
    simp only [List.forM_eq_forM, List.forM_cons, EStateM.run_bind,
      line_taken hs hf (hl line List.mem_cons_self)] at ih ⊢
    rw [ih]
    rcases hc : cmd (split line) with _ | c <;> simp [hc]

/-- The first line that is not taken ends the run. -/
theorem loop_not_taken (hs : h.shell = a.shell) (hf : Reads frame ok cmd) :
    ∀ (stack : List Str), (∃ line ∈ stack, ¬ Taken ok cmd line) → ∀ t : Trace Unit,
      ∃ e t', (stack.forM (symbolicateLine h n frame)).run t = .error e t'
  | [], hl, _ => by simp at hl
  | line :: stack, hl, t => by
    simp only [List.forM_eq_forM, List.forM_cons, EStateM.run_bind]
    by_cases hk : Taken ok cmd line
    · rw [line_taken hs hf hk]
      have hl : ∃ l ∈ stack, ¬ Taken ok cmd l := by
        simpa [hk] using hl
      exact loop_not_taken hs hf stack hl _
    · obtain ⟨e, t', he⟩ := line_not_taken (h := h) (n := n) hf hk t
      rw [he]
      exact ⟨e, t', rfl⟩

end Lines

end Xrash
