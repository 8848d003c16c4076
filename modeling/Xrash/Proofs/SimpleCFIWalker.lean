import Xrash.SimpleCFIWalker

/-!
# What a walk knows

A context with flags stands for the registers that are known, and a walk up the stack finds what
unwinding them finds.
-/

namespace Xrash.SimpleCFIWalker

open PostfixEvaluator (Dictionary)

variable {ι : Type} {w : ℕ} {map : List (RegisterSet ι)} {f callee : Frame ι w}
  {callers : Dictionary w} {r r' : RegisterSet ι}

/-- Registers have names, flags and members of their own. -/
structure Separate (map : List (RegisterSet ι)) : Prop where
  names : map.Pairwise fun r r' => r.name ≠ r'.name
  apart : map.Pairwise fun r r' =>
    r.contextMember ≠ r'.contextMember ∧ r.validityFlag &&& r'.validityFlag = 0
  flags : ∀ r ∈ map, r.validityFlag ≠ 0

/-- A register of a frame, if it is valid. -/
def Frame.read (f : Frame ι w) (r : RegisterSet ι) : Option (BitVec w) :=
  if f.Valid r then some (f.context r.contextMember) else none

/-! ## Names -/

theorem find_name : ∀ {l : List (RegisterSet ι)}, l.Pairwise (fun r r' => r.name ≠ r'.name) →
    r ∈ l → l.find? (·.name = r.name) = some r
  | r' :: l, hl, hr => by
    obtain ⟨hhead, htail⟩ := List.pairwise_cons.1 hl
    rcases List.mem_cons.1 hr with rfl | hr
    · exact List.find?_cons_of_pos (decide_eq_true rfl)
    · rw [List.find?_cons_of_neg (by simpa using hhead r hr)]
      exact find_name htail hr

theorem known_eq (hmap : Separate map) (hr : r ∈ map) : known map f r.name = f.read r := by
  unfold known
  rw [find_name hmap.names hr]
  rfl

theorem foldl_registers (f : Frame ι w) (name : Str) : ∀ {l : List (RegisterSet ι)}
    {registers : Dictionary w}, l.Pairwise (fun r r' => r.name ≠ r'.name) →
    (∀ r ∈ l, r.name = name → registers name = none) →
    l.foldl (fun registers r =>
      if f.Valid r then Function.update registers r.name (some (f.context r.contextMember))
      else registers) registers name
      = ((l.find? (·.name = name)).bind f.read <|> registers name)
  | [], registers, _, _ => rfl
  | r :: l, registers, hl, hnone => by
    obtain ⟨hhead, htail⟩ := List.pairwise_cons.1 hl
    rw [List.foldl_cons]
    by_cases hname : r.name = name
    · have hne : ∀ r' ∈ l, r'.name ≠ name := fun r' hr heq => hhead r' hr (hname.trans heq.symm)
      have hfind : l.find? (·.name = name) = none :=
        List.find?_eq_none.2 fun r' hr => by simpa using hne r' hr
      have hhit : (r :: l).find? (·.name = name) = some r :=
        List.find?_cons_of_pos (by simpa using hname)
      rw [foldl_registers f name htail fun r' hr heq => absurd heq (hne r' hr), hfind, hhit,
        hnone r List.mem_cons_self hname]
      show (if f.Valid r then _ else registers) name = (f.read r <|> none)
      unfold Frame.read
      split_ifs
      · rw [hname]
        exact Function.update_self ..
      · exact hnone r List.mem_cons_self hname
    · have hstep : (if f.Valid r then
          Function.update registers r.name (some (f.context r.contextMember)) else registers) name
          = registers name := by
        split_ifs
        · exact Function.update_of_ne (Ne.symm hname) ..
        · rfl
      rw [foldl_registers f name htail fun r' hr heq => hstep.trans
          (hnone r' (List.mem_cons_of_mem _ hr) heq), hstep,
        List.find?_cons_of_neg (by simpa using hname)]

theorem calleeRegisters_eq (hmap : Separate map) : calleeRegisters map f = known map f := by
  funext name
  unfold calleeRegisters
  rw [foldl_registers f name hmap.names fun _ _ _ => rfl]
  show (known map f name <|> none) = known map f name
  rcases known map f name with _ | _ <;> rfl

/-! ## Frames -/

variable [DecidableEq ι]

/-- What is found for a register of the caller. -/
def found (callers : Dictionary w) (callee : Frame ι w) (r : RegisterSet ι) : Option (BitVec w) :=
  callers r.name <|> r.alternateName.bind callers <|> if r.calleeSaves then callee.read r else none

theorem recover_eq (callers : Dictionary w) (callee caller : Frame ι w) (r : RegisterSet ι) :
    recover callers callee caller r = match found callers callee r with
      | some value => caller.set r value
      | none => caller := by
  unfold recover found Frame.read
  rcases callers r.name with _ | value
  · rcases r.alternateName.bind callers with _ | value
    · by_cases hsaves : r.calleeSaves
      · by_cases hvalid : callee.Valid r
        · simp [hsaves, hvalid]
        · simp [hsaves, hvalid]
      · simp [hsaves]
    · rfl
  · rfl

theorem read_set_self (hflag : r.validityFlag ≠ 0) (value : BitVec w) :
    (f.set r value).read r = some value := by
  have hvalid : (f.set r value).Valid r := by
    intro hzero
    have hor : (f.validity ||| r.validityFlag) &&& r.validityFlag = 0#32 := hzero
    rw [BitVec.and_or_distrib_right, BitVec.and_self, BitVec.or_eq_zero_iff] at hor
    exact hflag hor.2
  unfold Frame.read
  rw [if_pos hvalid]
  exact congrArg some (Function.update_self ..)

theorem read_set_ne (hne : r.contextMember ≠ r'.contextMember)
    (hflag : r.validityFlag &&& r'.validityFlag = 0) (value : BitVec w) :
    (f.set r' value).read r = f.read r := by
  have hvalid : (f.set r' value).Valid r ↔ f.Valid r := by
    show (f.validity ||| r'.validityFlag) &&& r.validityFlag ≠ 0 ↔ _
    rw [BitVec.and_or_distrib_right, BitVec.and_comm r'.validityFlag, hflag]
    exact iff_of_eq (congrArg (· ≠ 0) BitVec.or_zero)
  have hcontext : (f.set r' value).context r.contextMember = f.context r.contextMember :=
    Function.update_of_ne hne ..
  unfold Frame.read
  rw [hcontext]
  exact if_congr hvalid rfl rfl

theorem recover_self (hflag : r.validityFlag ≠ 0) (hf : f.read r = none) :
    (recover callers callee f r).read r = found callers callee r := by
  rw [recover_eq]
  rcases found callers callee r with _ | value
  · exact hf
  · exact read_set_self hflag value

theorem recover_ne (hne : r.contextMember ≠ r'.contextMember)
    (hflag : r.validityFlag &&& r'.validityFlag = 0) :
    (recover callers callee f r').read r = f.read r := by
  rw [recover_eq]
  rcases found callers callee r' with _ | value
  · rfl
  · exact read_set_ne hne hflag value

theorem read_foldl_ne : ∀ {l : List (RegisterSet ι)} {f : Frame ι w},
    (∀ r' ∈ l, r.contextMember ≠ r'.contextMember ∧ r.validityFlag &&& r'.validityFlag = 0) →
      (l.foldl (recover callers callee) f).read r = f.read r
  | [], f, _ => rfl
  | r' :: l, f, hl => by
    obtain ⟨hne, hflag⟩ := hl r' List.mem_cons_self
    rw [List.foldl_cons, read_foldl_ne fun r'' hr => hl r'' (List.mem_cons_of_mem _ hr),
      recover_ne hne hflag]

/-- The loop finds every register, whichever order they are in. -/
theorem read_foldl : ∀ {l : List (RegisterSet ι)} {f : Frame ι w},
    l.Pairwise (fun r r' => r.contextMember ≠ r'.contextMember
      ∧ r.validityFlag &&& r'.validityFlag = 0) → (∀ r ∈ l, r.validityFlag ≠ 0) →
    (∀ r ∈ l, f.read r = none) → r ∈ l →
      (l.foldl (recover callers callee) f).read r = found callers callee r
  | r' :: l, f, hl, hflags, hf, hr => by
    obtain ⟨hhead, htail⟩ := List.pairwise_cons.1 hl
    rw [List.foldl_cons]
    rcases List.mem_cons.1 hr with rfl | hr
    · rw [read_foldl_ne hhead]
      exact recover_self (hflags r List.mem_cons_self) (hf r List.mem_cons_self)
    · refine read_foldl htail (fun r hr => hflags r (List.mem_cons_of_mem _ hr)) ?_ hr
      intro r hr
      obtain ⟨hne, hflag⟩ := hhead r hr
      rw [recover_ne hne.symm (by rw [BitVec.and_comm]; exact hflag)]
      exact hf r (List.mem_cons_of_mem _ hr)

/-- One frame up the stack. -/
theorem findCallerRegisters_known (hmap : Separate map) (rules : Rules w) (callee : Frame ι w) :
    (findCallerRegisters map rules callee).map (known map)
      = unwind map rules (known map callee) := by
  unfold findCallerRegisters unwind
  rw [calleeRegisters_eq hmap, Option.map_map]
  refine congrArg (Option.map · _) (funext fun callers => funext fun name => ?_)
  show known map (map.foldl (recover callers callee) unknown) name = _
  rcases hfind : map.find? (·.name = name) with _ | r
  · unfold known
    rw [hfind]
    rfl
  · have hr := List.mem_of_find?_eq_some hfind
    have hname : r.name = name := by simpa using List.find?_some hfind
    rw [← hname, known_eq hmap hr, read_foldl hmap.apart hmap.flags (fun r _ => ?_) hr]
    · unfold found
      rw [find_name hmap.names hr, Option.bind_some, known_eq hmap hr]
    · exact if_neg fun h => h BitVec.zero_and

/-- Walking up the stack knows of each frame what unwinding does: the flags say which registers are
known, and the context has their values. -/
theorem walk_known (hmap : Separate map) : ∀ (frames : List (Rules w)) (callee : Frame ι w),
    (walk map frames callee).map (known map)
      = frames.foldlM (fun callee rules => unwind map rules callee) (known map callee)
  | [], callee => rfl
  | rules :: frames, callee => by
    have hstep := findCallerRegisters_known hmap rules callee
    unfold walk
    rw [List.foldlM_cons, List.foldlM_cons, ← hstep]
    rcases findCallerRegisters map rules callee with _ | caller
    · rfl
    · exact walk_known hmap frames caller

/-- Two registers, the second of which is saved by its callee. -/
def twoRegisters : List (RegisterSet (Fin 2)) :=
  [⟨['a'], some ['r'], false, 1, 0⟩, ⟨['b'], none, true, 2, 1⟩]

theorem twoRegisters_separate : Separate twoRegisters := ⟨by decide, by decide, by decide⟩

/-- Rules that give a register its value plus one under another name. -/
def oneRule : Rules 32 := fun registers =>
  some (Function.update (fun _ => none) ['r'] ((registers ['a']).map (· + 1)))

theorem walk_known_two :
    (walk twoRegisters [oneRule, oneRule] ⟨fun _ => 5, 3⟩).map (known twoRegisters)
      = [oneRule, oneRule].foldlM (fun callee rules => unwind twoRegisters rules callee)
        (known twoRegisters ⟨fun _ => 5, 3⟩) :=
  walk_known twoRegisters_separate _ _

example : ((walk twoRegisters [oneRule, oneRule] ⟨fun _ => 5, 3⟩).map fun f =>
    (known twoRegisters f ['a'], known twoRegisters f ['b'])) = some (some 7, some 5) := rfl

/-- A register that no rules mention has its value for as long as each callee saves it, and is not
known any more after the first frame if it does not. -/
theorem walk_unmentioned (hmap : Separate map) (hr : r ∈ map) : ∀ {frames : List (Rules w)}
    {callee f : Frame ι w}, (∀ rules ∈ frames, ∀ registers callers, rules registers = some callers →
      callers r.name = none ∧ r.alternateName.bind callers = none) →
    walk map frames callee = some f →
      f.read r = if frames = [] ∨ r.calleeSaves then callee.read r else none
  | [], callee, f, _, h => by
    cases h
    rfl
  | rules :: frames, callee, f, hrules, h => by
    unfold walk at h
    rw [List.foldlM_cons] at h
    obtain ⟨caller, hcaller, h⟩ := Option.bind_eq_some_iff.1 h
    have hrest := walk_unmentioned hmap hr
      (fun rules hmem => hrules rules (List.mem_cons_of_mem _ hmem)) h
    obtain ⟨callers, hcallers, rfl⟩ := Option.map_eq_some_iff.1 hcaller
    obtain ⟨hname, halternate⟩ := hrules rules List.mem_cons_self _ _ hcallers
    have hread : (map.foldl (recover callers callee) unknown).read r
        = if r.calleeSaves then callee.read r else none := by
      rw [read_foldl hmap.apart hmap.flags (fun r _ => if_neg fun h => h BitVec.zero_and) hr]
      unfold found
      rw [hname, halternate]
      rfl
    rw [hrest, hread]
    by_cases hsaves : r.calleeSaves
    · simp [hsaves]
    · simp [hsaves]

end Xrash.SimpleCFIWalker
