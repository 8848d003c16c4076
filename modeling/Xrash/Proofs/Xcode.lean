import Xrash.Proofs.Report
import Xrash.Proofs.ImageList

/-!
# Backtraces

`symbolicatexcode` prints one line for each frame of the backtrace, in order, exactly when each
frame has the three tokens the loop indexes, a fourth where the third is an address, and no frame
it sends holds a NUL.
-/

namespace Xrash

open Py

def frameMark : Str := "frame #".toList

/-- One line is printed for each line of the backtrace with `frame #` in it, in order. It starts
with the first four tokens of the frame, and is just the tokens if the frame makes no command. -/
def FramesKept (arch : Str) (dir : List FileName) (bt il : Str)
    (r : EStateM.Result PyError (Trace Unit) Unit) : Prop :=
  ∃ t fs, r = .ok () t
    ∧ List.Forall₂ (FromFirst frameMark) ((textLines bt).filter (frameMark <:+: ·)) fs
    ∧ t.calls = fs.filterMap (fun f => xcodeCommand arch dir (textLines il) (split f))
    ∧ List.Forall₂ (fun f p => '\n' ∉ p ∧ joinBlank ((split f).take 4) <+: p
        ∧ (xcodeCommand arch dir (textLines il) (split f) = none → p = joinBlank (split f)))
        fs t.out

/-! ## The frames -/

theorem frames_fromFirst (stack : List Str) :
    List.Forall₂ (FromFirst frameMark) (stack.filter (frameMark <:+: ·)) (frames stack) := by
  rw [frames, List.forall₂_map_right_iff]
  refine List.forall₂_same.2 fun line hl => ?_
  obtain ⟨i, hi, hline⟩ := fromFirst_find (by simpa using (List.mem_filter.1 hl).2)
  have hi : find "frame #".toList line = some i := hi
  rwa [hi]

theorem FromFirst.infix {pat line f : Str} (h : FromFirst pat line f) : pat <:+: line := by
  obtain ⟨hp, x, rfl, -⟩ := h
  exact hp.isInfix.trans (List.suffix_append x f).isInfix

theorem mem_frames {stack : List Str} {f : Str} :
    f ∈ frames stack ↔ ∃ line ∈ stack, FromFirst frameMark line f := by
  simp only [frames, List.mem_map, List.mem_filter, decide_eq_true_eq]
  constructor
  · rintro ⟨line, ⟨hl, hm⟩, rfl⟩
    obtain ⟨i, hi, hline⟩ := fromFirst_find hm
    exact ⟨line, hl, by rwa [hi]⟩
  · rintro ⟨line, hl, hf⟩
    obtain ⟨i, hi, hline⟩ := fromFirst_find hf.infix
    have hi : find "frame #".toList line = some i := hi
    refine ⟨line, ⟨hl, hf.infix⟩, ?_⟩
    rw [hi]
    exact hline.unique hf

/-! ## The run -/

theorem joinBlank_take : ∀ (n : ℕ) (parts : List Str),
    joinBlank (parts.take n) <+: joinBlank parts
  | 0, parts => by simp [joinBlank]
  | n + 1, [] => by simp [joinBlank]
  | n + 1, [p] => by simp
  | 1, p :: q :: ps => by
    rw [List.take_succ_cons, List.take_zero, joinBlank_singleton, joinBlank,
      List.intercalate_cons_cons, List.append_assoc]
    exact List.prefix_append _ _
  | n + 2, p :: q :: ps => by
    have ih := joinBlank_take (n + 1) (q :: ps)
    rw [List.take_succ_cons] at ih ⊢
    rw [List.take_succ_cons, joinBlank, joinBlank, List.intercalate_cons_cons,
      List.intercalate_cons_cons, List.prefix_append_right_inj]
    exact ih

theorem joinBlank_take_printed (a : Symboliser) (n : ℕ) (parts : List Str) (c : Option Command) :
    joinBlank (parts.take n) <+: printed a n parts c := by
  rcases c with _ | c
  · exact joinBlank_take n parts
  · simpa [printed, joinBlank_singleton] using
      joinBlank_take 1 [joinBlank (parts.take n), a.answer c.text]

/-- The run is the loop over the frames, with a map that has the bases of the image list. -/
theorem symbolicatexcode_run {σ : Type} (prog bt il arch : Str) (files : Str → Str)
    (dir : List FileName) (shell : Str → σ → CompletedProcess × σ) (w : σ) :
    ∃ m : Dict, (∀ k, m.lookup k = imageBase (textLines (files il)) k)
      ∧ (symbolicatexcode (scriptHost prog [bt, il, arch] files dir shell)).run (fresh w)
        = ((frames (textLines (files bt))).forM (symbolicateLine
            (scriptHost prog [bt, il, arch] files dir shell) 4
            (xcodeFrame arch (dSYMs dir) m))).run (fresh w) := by
  obtain ⟨m, hrun, hm⟩ := images_run (textLines (files il)) (fresh w)
  refine ⟨m, hm, ?_⟩
  have h : (symbolicatexcode (scriptHost prog [bt, il, arch] files dir shell)).run (fresh w)
      = (images (textLines (files il)) >>= fun m =>
          (frames (textLines (files bt))).forM (symbolicateLine
            (scriptHost prog [bt, il, arch] files dir shell) 4
            (xcodeFrame arch (dSYMs dir) m))).run (fresh w) := rfl
  rw [h, EStateM.run_bind, hrun]

theorem framesKept_iff (a : Symboliser) (prog bt il arch : Str) (files : Str → Str)
    (dir : List FileName) :
    FramesKept arch dir (files bt) (files il)
        ((symbolicatexcode (scriptHost prog [bt, il, arch] files dir a.shell)).run (fresh ()))
      ↔ ∀ f ∈ frames (textLines (files bt)),
        Taken FrameTokens (xcodeCommand arch dir (textLines (files il))) f := by
  obtain ⟨m, hm, hrun⟩ := symbolicatexcode_run prog bt il arch files dir a.shell ()
  have hf := reads_xcodeFrame (σ := Unit) hm arch dir
  have hs : (scriptHost prog [bt, il, arch] files dir a.shell).shell = a.shell := rfl
  rw [hrun]
  constructor
  · rintro ⟨t, fs, hok, -⟩
    by_contra hl
    push Not at hl
    obtain ⟨e, t', he⟩ := loop_not_taken (n := 4) hs hf _ hl (fresh ())
    rw [he] at hok
    cases hok
  · intro hl
    refine ⟨_, _, loop_taken hs hf _ hl (fresh ()), frames_fromFirst _, by simp [fresh], ?_⟩
    simp only [fresh, List.nil_append]
    rw [List.forall₂_map_right_iff]
    refine List.forall₂_same.2 fun f _ => ⟨newline_not_mem_printed a 4 f _,
      joinBlank_take_printed a 4 _ _, fun hn => by rw [hn]; rfl⟩

theorem xcodeCommand_taken (arch : CStr) (dir : List FileName) (il : List Str)
    (parts : List Str) :
    (∀ c, xcodeCommand arch.chars dir il parts = some c → Char.ofNat 0 ∉ c.text)
      ↔ ∀ mark index addr name rest base, parts = mark :: index :: addr :: name :: rest →
        hexStart addr → HasDSYM dir name → imageBase il name = some base →
        Char.ofNat 0 ∉ addr ∧ Char.ofNat 0 ∉ base := by
  constructor
  · intro h mark index addr name rest base hp ha hd hb
    have := h _ (xcodeCommand_eq_some.2 ⟨mark, index, addr, name, rest, base, hp, ha, hd, hb, rfl⟩)
    exact not_or.1 ((nul_mem_atosFor arch hd base addr).not.1 this)
  · intro h c hc
    obtain ⟨mark, index, addr, name, rest, base, hp, ha, hd, hb, rfl⟩ := xcodeCommand_eq_some.1 hc
    exact (nul_mem_atosFor arch hd base addr).not.2 (not_or.2 (h _ _ _ _ _ _ hp ha hd hb))

/-- No frame is lost exactly when each has at least three tokens, and four if the third starts
with `0x`, and no frame to be symbolicated has a NUL in its address or its base. -/
theorem symbolicatexcode_keeps_iff (a : Symboliser) (prog bt il : Str) (arch : CStr)
    (files : Str → Str) (dir : List FileName) :
    FramesKept arch.chars dir (files bt) (files il)
        ((symbolicatexcode (scriptHost prog [bt, il, arch.chars] files dir a.shell)).run
          (fresh ()))
      ↔ ∀ line ∈ textLines (files bt), ∀ f, FromFirst frameMark line f →
        3 ≤ (split f).length
        ∧ (hexStart ((split f).getD 2 []) → 4 ≤ (split f).length)
        ∧ ∀ mark index addr name rest base, split f = mark :: index :: addr :: name :: rest →
          hexStart addr → HasDSYM dir name →
          imageBase (textLines (files il)) name = some base →
          Char.ofNat 0 ∉ addr ∧ Char.ofNat 0 ∉ base := by
  rw [framesKept_iff]
  simp only [Taken, xcodeCommand_taken, FrameTokens, mem_frames, and_assoc]
  constructor
  · exact fun h line hl f hf => h f ⟨line, hl, hf⟩
  · rintro h f ⟨line, hl, hf⟩
    exact h line hl f hf

def nullCall : Str := "* thread #1\n  * frame #0: 0x0\n    frame #1: 0x4 crash\n".toList

/-- Of a call through a null pointer lldb prints only the address. -/
theorem symbolicatexcode_null_aborts :
    ¬ FramesKept "arm64".toList [] nullCall []
      ((symbolicatexcode (scriptHost [] ["bt.txt".toList, "il.txt".toList, "arm64".toList]
        (fun f => if f = "bt.txt".toList then nullCall else []) [] silent.shell)).run
        (fresh ())) := by
  intro h
  have := (framesKept_iff silent [] "bt.txt".toList "il.txt".toList "arm64".toList
    (fun f => if f = "bt.txt".toList then nullCall else []) []).1 h "frame #0: 0x0".toList
    (by decide)
  exact absurd this.1 (by decide)

end Xrash
