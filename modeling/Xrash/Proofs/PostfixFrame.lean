import Xrash.Proofs.PostfixEvaluator

/-!
# What no expression does

Any text may be given to the evaluator. Whatever it is, only variables are assigned, and each that
is assigned is marked; and it is evaluated to its end when no number is divided and none has a sign.
-/

namespace Xrash.PostfixEvaluator

variable {w : ℕ} {memory : Option (Memory w)} {s s' : State w} {t : Str}

/-! ## One token -/

theorem popValue_some (s : State w) : ∃ r st, popValue s = some (r, { s with stack := st })
    ∧ ∀ x ∈ st, x ∈ s.stack := by
  obtain ⟨stack, d, a⟩ := s
  rcases stack with _ | ⟨t, st⟩
  · exact ⟨none, [], rfl, fun x hx => hx⟩
  · exact ⟨_, st, popValue_cons t st d a, fun x hx => List.mem_cons_of_mem _ hx⟩

theorem popValues_some (s : State w) : ∃ r st, popValues s = some (r, { s with stack := st })
    ∧ ∀ x ∈ st, x ∈ s.stack := by
  obtain ⟨r2, st2, hpop2, hsub2⟩ := popValue_some s
  unfold popValues
  rw [hpop2]
  rcases r2 with _ | v2
  · exact ⟨none, st2, rfl, hsub2⟩
  · obtain ⟨r1, st1, hpop1, hsub1⟩ := popValue_some { s with stack := st2 }
    simp only [hpop1]
    exact ⟨_, st1, rfl, fun x hx => hsub2 x (hsub1 x hx)⟩

/-- What a token may do to a state. -/
structure Step (t : Str) (s s' : State w) : Prop where
  stack : ∀ x ∈ s'.stack, x ∈ s.stack ∨ (x = t ∧ Atom t)
    ∨ ∃ v : BitVec w, x = Nat.toDigits 10 v.toNat
  vars : (s'.dictionary = s.dictionary ∧ s'.assigned = s.assigned)
    ∨ ∃ name v, name.head? = some '$' ∧ s'.dictionary = Function.update s.dictionary name (some v)
      ∧ s'.assigned = s.assigned.map fun a => Function.update a name (some true)

theorem Step.of_sub {st : List Str} (h : ∀ x ∈ st, x ∈ s.stack) :
    Step t s { s with stack := st } :=
  ⟨fun x hx => .inl (h x hx), .inl ⟨rfl, rfl⟩⟩

theorem Step.push {st : List Str} (h : ∀ x ∈ st, x ∈ s.stack) (v : BitVec w) :
    Step t s (pushValue { s with stack := st } v) := by
  refine ⟨fun x hx => ?_, .inl ⟨rfl, rfl⟩⟩
  rcases List.mem_cons.1 hx with rfl | hx
  · exact .inr (.inr ⟨v, rfl⟩)
  · exact .inl (h x hx)

/-- Where the evaluator does not return. -/
def Unsafe (t : Str) (s : State w) : Prop :=
  t = ['/'] ∨ t = ['%'] ∨ ∃ x ∈ s.stack, ∃ v, (operand x : Operand w) = .literal v true

theorem symbol_of_binaryOperation {operation : BinaryOperation}
    (h : binaryOperation t = some operation) : t = operation.symbol := by
  unfold binaryOperation at h
  split_ifs at h with h1 h2 h3 h4 h5 h6 <;> cases h <;> assumption

theorem evaluateToken_cases (memory : Option (Memory w)) (t : Str) (s : State w) :
    (evaluateToken memory t s = none ∧ Unsafe t s)
      ∨ ∃ b s', evaluateToken memory t s = some (b, s') ∧ Step t s s' := by
  unfold evaluateToken
  rcases hop : binaryOperation t with _ | operation
  · by_cases hmem : t = ['^']
    · simp only [if_pos hmem]
      rcases memory with _ | getMemoryAtAddress
      · exact .inr ⟨false, s, rfl, .of_sub fun x hx => hx⟩
      · obtain ⟨r, st, hpop, hsub⟩ := popValue_some s
        rw [hpop]
        rcases r with _ | address
        · exact .inr ⟨false, _, rfl, .of_sub hsub⟩
        · simp only []
          rcases getMemoryAtAddress address with _ | v
          · exact .inr ⟨false, _, rfl, .of_sub hsub⟩
          · exact .inr ⟨true, _, rfl, .push hsub v⟩
    · by_cases hassign : t = ['=']
      · obtain ⟨r, st, hpop, hsub⟩ := popValue_some s
        simp only [if_neg hmem, if_pos hassign, hpop]
        rcases r with _ | v
        · exact .inr ⟨false, _, rfl, .of_sub hsub⟩
        · rcases st with _ | ⟨x, st⟩
          · exact .inr ⟨false, _, rfl, .of_sub hsub⟩
          · have hsub' : ∀ y ∈ st, y ∈ s.stack := fun y hy => hsub y (List.mem_cons_of_mem _ hy)
            simp only [popValueOrIdentifier_cons]
            rcases hx : (operand x : Operand w) with ⟨u, _ | _⟩ | name
            · exact .inr ⟨false, _, rfl, .of_sub hsub'⟩
            · exact .inl ⟨rfl, .inr (.inr ⟨x, hsub x List.mem_cons_self, u, hx⟩)⟩
            · by_cases hname : name.head? ≠ some '$'
              · simp only [if_pos hname]
                exact .inr ⟨false, _, rfl, .of_sub hsub'⟩
              · simp only [if_neg hname]
                exact .inr ⟨true, _, rfl, fun y hy => .inl (hsub' y hy),
                  .inr ⟨name, v, not_not.1 hname, rfl, rfl⟩⟩
      · simp only [if_neg hmem, if_neg hassign]
        refine .inr ⟨true, _, rfl, fun x hx => ?_, .inl ⟨rfl, rfl⟩⟩
        rcases List.mem_cons.1 hx with rfl | hx
        · exact .inr (.inl ⟨rfl, hop, hmem, hassign⟩)
        · exact .inl hx
  · obtain ⟨r, st, hpop, hsub⟩ := popValues_some s
    simp only [hpop]
    rcases r with _ | ⟨v1, v2⟩
    · exact .inr ⟨false, _, rfl, .of_sub hsub⟩
    · show (Option.map _ (operation.perform v1 v2) = none ∧ _)
        ∨ ∃ b s', Option.map _ (operation.perform v1 v2) = some (b, s') ∧ _
      rcases hv : operation.perform v1 v2 with _ | v
      · refine .inl ⟨rfl, ?_⟩
        rw [symbol_of_binaryOperation hop]
        cases operation with
        | divideQuotient => exact .inl rfl
        | divideModulus => exact .inr (.inl rfl)
        | _ => cases hv
      · exact .inr ⟨true, _, rfl, .push hsub v⟩

/-! ## Runs -/

/-- Where one dictionary comes from another, and the marks with it: each key is as it was, or a
variable that has a value and is marked. -/
def Kept (d d' : Dictionary w) (a a' : Option Validity) : Prop :=
  (a'.isSome = a.isSome) ∧ ∀ k, (d' k = d k ∧ (∀ v ∈ a, ∀ v' ∈ a', v' k = v k))
    ∨ (k.head? = some '$' ∧ d' k ≠ none ∧ ∀ v' ∈ a', v' k = some true)

theorem Step.kept {d : Dictionary w} {a : Option Validity} (h : Step t s s')
    (hs : Kept d s.dictionary a s.assigned) : Kept d s'.dictionary a s'.assigned := by
  rcases h.vars with ⟨hd, ha⟩ | ⟨name, v, hname, hd, ha⟩
  · rw [hd, ha]
    exact hs
  · refine ⟨by rw [ha, Option.isSome_map, hs.1], fun k => ?_⟩
    rw [hd, ha]
    by_cases hk : k = name
    · subst hk
      refine .inr ⟨hname, ?_, fun v' hv' => ?_⟩
      · rw [Function.update_self]
        exact nofun
      · obtain ⟨u, -, rfl⟩ := Option.map_eq_some_iff.1 hv'
        exact Function.update_self ..
    · have hupdate : ∀ v' ∈ s.assigned.map fun a => Function.update a name (some true),
          ∃ u ∈ s.assigned, v' k = u k := fun v' hv' => by
        obtain ⟨u, hu, rfl⟩ := Option.map_eq_some_iff.1 hv'
        exact ⟨u, hu, Function.update_of_ne hk ..⟩
      rw [Function.update_of_ne hk]
      rcases hs.2 k with ⟨hdk, hak⟩ | ⟨hk', hdk, hak⟩
      · refine .inl ⟨hdk, fun u hu v' hv' => ?_⟩
        obtain ⟨u', hu', heq⟩ := hupdate v' hv'
        rw [heq, hak u hu u' hu']
      · refine .inr ⟨hk', hdk, fun v' hv' => ?_⟩
        obtain ⟨u', hu', heq⟩ := hupdate v' hv'
        rw [heq, hak u' hu']

/-- A property every token keeps is kept by a run of tokens, which ends at an unsafe one if it does
not return. -/
theorem evaluateTokens_keeps (memory : Option (Memory w)) {P : State w → Prop} : ∀ (ts : List Str),
    (∀ t ∈ ts, ∀ s s', Step t s s' → P s → P s') → ∀ s, P s →
    (evaluateTokens memory ts s = none ∧ ∃ t ∈ ts, ∃ s, P s ∧ Unsafe t s)
      ∨ ∃ b s', evaluateTokens memory ts s = some (b, s') ∧ P s'
  | [], _, s, hs => .inr ⟨true, s, rfl, hs⟩
  | t :: ts, h, s, hs => by
    unfold evaluateTokens
    rcases evaluateToken_cases memory t s with ⟨hnone, hunsafe⟩ | ⟨b, s', hsome, hstep⟩
    · rw [hnone]
      exact .inl ⟨rfl, t, List.mem_cons_self, s, hs, hunsafe⟩
    · have hs' := h t List.mem_cons_self s s' hstep hs
      rw [hsome]
      rcases b with _ | _
      · exact .inr ⟨false, s', rfl, hs'⟩
      · rcases evaluateTokens_keeps memory ts (fun t ht => h t (List.mem_cons_of_mem _ ht)) s' hs'
          with ⟨hnone, t', ht', hunsafe⟩ | hsome
        · exact .inl ⟨hnone, t', List.mem_cons_of_mem _ ht', hunsafe⟩
        · exact .inr hsome

/-- Whatever the text is and however its evaluation ends, each entry of the dictionary is as it was,
or that of a variable that is marked as assigned. -/
theorem evaluate_keeps (memory : Option (Memory w)) (expression : Str) (d : Dictionary w)
    (a : Option Validity) {b : Bool} {d' : Dictionary w} {a' : Option Validity}
    (h : evaluate memory expression d a = some (b, d', a')) : Kept d d' a a' := by
  have hstart : Kept d d a a := ⟨rfl, fun k => .inl ⟨rfl, fun v hv v' hv' => by
    rw [Option.mem_unique hv hv']⟩⟩
  have hrun := evaluateTokens_keeps memory (P := fun s : State w =>
    Kept d s.dictionary a s.assigned) (unsmash (tokens expression))
    (fun t _ s s' hstep hs => hstep.kept hs) ⟨[], d, a⟩ hstart
  unfold evaluate at h
  rw [evaluateInternal_eq] at h
  rcases hrun with ⟨hnone, -⟩ | ⟨b', s', hsome, hkept⟩
  · rw [hnone] at h
    cases h
  · rw [hsome] at h
    cases h
    exact hkept

theorem evaluate_keeps_variable :
    Kept (fun _ => none) (Function.update (fun _ => none) ['$', 'x'] (some (7 : BitVec 32)))
      (some fun _ => none) (some (Function.update (fun _ => none) ['$', 'x'] (some true))) :=
  evaluate_keeps none ['$', 'x', ' ', '7', ' ', '='] (fun _ => none) (some fun _ => none)
    (b := true) rfl

/-- A string that is read as no number with a sign. -/
def Unsigned (t : Str) : Prop := t.head? ≠ some '-'

theorem operand_of_unsigned {x : Str} (hx : Unsigned x) (v : BitVec w) :
    operand x ≠ .literal v true := by
  unfold operand
  simp only [decide_eq_false hx, Bool.false_eq_true, if_false]
  rcases extract x with _ | u
  · exact nofun
  · exact nofun

/-- A text without divisions and without a token that begins with a minus, the operator apart, is
evaluated to its end. -/
theorem evaluate_returns (memory : Option (Memory w)) (expression : Str) (d : Dictionary w)
    (a : Option Validity) (h : ∀ t ∈ unsmash (tokens expression),
      t ≠ ['/'] ∧ t ≠ ['%'] ∧ (t.head? = some '-' → t = ['-'])) :
    ∃ r, evaluate memory expression d a = some r := by
  have hrun := evaluateTokens_keeps memory
    (P := fun s : State w => ∀ x ∈ s.stack, Unsigned x) (unsmash (tokens expression)) ?_
    ⟨[], d, a⟩ (fun x hx => absurd hx List.not_mem_nil)
  · unfold evaluate
    rw [evaluateInternal_eq]
    rcases hrun with ⟨-, t, ht, s, hs, hunsafe⟩ | ⟨b, s, hsome, -⟩
    · rcases hunsafe with rfl | rfl | ⟨x, hx, v, hv⟩
      · exact absurd rfl (h _ ht).1
      · exact absurd rfl (h _ ht).2.1
      · exact absurd hv (operand_of_unsigned (hs x hx) v)
    · rw [hsome]
      exact ⟨_, rfl⟩
  · intro t ht s s' hstep hs x hx
    rcases hstep.stack x hx with hx | ⟨rfl, hatom⟩ | ⟨v, rfl⟩
    · exact hs x hx
    · intro hminus
      rw [(h x ht).2.2 hminus] at hatom
      exact absurd hatom (by decide)
    · intro hminus
      have hdigit := Nat.isDigit_of_mem_toDigits (b := 10) (n := v.toNat) (by decide) (by decide)
        (List.mem_of_head? hminus)
      cases hdigit

end Xrash.PostfixEvaluator
