import Xrash.PostfixProgram

/-!
# The postfix evaluator runs programs

A result is pushed as text and read back as what it was (`operand_toDigits`), so the stack of
strings holds the operands of an expression. Whatever the text of a program looks like, with its
assignments smashed up or not, it is evaluated as the program says.
-/

namespace Xrash.PostfixEvaluator

variable {w : ℕ} {memory : Option (Memory w)} {d : Dictionary w} {a : Option Validity}
  {st : List Str}

/-! ## The stack -/

/-- Decimal digits are a literal, and the one they were written for. -/
theorem operand_toDigits (v : BitVec w) :
    operand (Nat.toDigits 10 v.toNat) = .literal v false := by
  obtain ⟨ds, hds⟩ : ∃ ds, ds = Nat.toDigits 10 v.toNat := ⟨_, rfl⟩
  have hdigit : ∀ c ∈ ds, c.isDigit = true := fun c hc =>
    Nat.isDigit_of_mem_toDigits (by decide) (by decide) (hds ▸ hc)
  have hne : ds ≠ [] := hds ▸ Nat.toDigits_ne_nil
  have hread : Nat.ofDigitChars 10 ds 0 = v.toNat := by rw [hds, Nat.ofDigitChars_ten_toDigits]
  rw [← hds]
  rcases ds with _ | ⟨c, cs⟩
  · exact absurd rfl hne
  have hc := hdigit c List.mem_cons_self
  have hspace : isCSpace c = false := by
    have hlow : 48 ≤ c.toNat := by
      unfold Char.isDigit at hc
      simp only [Bool.and_eq_true, decide_eq_true_eq, ge_iff_le, UInt32.le_iff_toNat_le] at hc
      exact hc.1
    have hblank : c ≠ ' ' := by
      rintro rfl
      cases hc
    unfold isCSpace
    simp only [hblank, decide_false, Bool.false_or, Bool.and_eq_false_iff, decide_eq_false_iff_not]
    omega
  have hminus : c ≠ '-' := by
    rintro rfl
    cases hc
  have hplus : c ≠ '+' := by
    rintro rfl
    cases hc
  have hextract : extract (c :: cs) = some v := by
    unfold extract
    rw [List.dropWhile_cons_of_neg (by simp [hspace])]
    simp only [List.head?_cons, Option.some_inj, hminus, hplus, or_self, if_false, hread]
    rw [if_pos ⟨nofun, List.all_eq_true.2 hdigit, v.isLt⟩, BitVec.ofNat_toNat, BitVec.setWidth_eq]
  unfold operand
  simp [hminus, hextract]

theorem popValueOrIdentifier_cons (null : Bool) (t : Str) (st : List Str) :
    popValueOrIdentifier null (t :: st) = match (operand t : Operand w) with
      | .literal v negative => if negative && null then none else some (.value v, st)
      | .identifier name => some (.identifier name, st) := by
  unfold popValueOrIdentifier operand
  by_cases hneg : t.head? = some '-'
  · simp only [hneg, decide_true, if_true]
    rcases (extract t.tail : Option (BitVec w)) with _ | v
    · rfl
    · cases null <;> rfl
  · simp only [hneg, decide_false, Bool.false_eq_true, if_false]
    rcases (extract t : Option (BitVec w)) with _ | v
    · rfl
    · rfl

theorem popValue_cons (t : Str) (st : List Str) (d : Dictionary w) (a : Option Validity) :
    popValue ⟨t :: st, d, a⟩ = some ((operand t).resolve d, ⟨st, d, a⟩) := by
  unfold popValue
  rw [popValueOrIdentifier_cons]
  rcases operand t with ⟨v, negative⟩ | name
  · cases negative <;> rfl
  · rfl

theorem popValues_cons (t2 t1 : Str) (st : List Str) (d : Dictionary w) (a : Option Validity) :
    popValues ⟨t2 :: t1 :: st, d, a⟩ = match (operand t1).resolve d, (operand t2).resolve d with
      | some v1, some v2 => some (some (v1, v2), ⟨st, d, a⟩)
      | none, some _ => some (none, ⟨st, d, a⟩)
      | _, none => some (none, ⟨t1 :: st, d, a⟩) := by
  unfold popValues
  rw [popValue_cons]
  rcases (operand t2).resolve d with _ | v2
  · cases (operand t1).resolve d <;> rfl
  · have hfirst := popValue_cons t1 st d a
    simp only [hfirst]
    cases (operand t1).resolve d <;> rfl

/-! ## Tokens -/

/-- The tokens of a text that has no assignment smashed up. -/
def evaluateTokens (memory : Option (Memory w)) : List Str → State w → Option (Bool × State w)
  | [], s => some (true, s)
  | t :: ts, s => andThen (evaluateToken memory t s) (evaluateTokens memory ts)

theorem andThen_assoc (r : Option (Bool × State w)) (f g : State w → Option (Bool × State w)) :
    andThen (andThen r f) g = andThen r fun s => andThen (f s) g := by
  rcases r with _ | ⟨_ | _, s⟩ <;> rfl

theorem evaluateTokens_singleton (t : Str) (s : State w) :
    evaluateTokens memory [t] s = evaluateToken memory t s := by
  unfold evaluateTokens
  rcases evaluateToken memory t s with _ | ⟨_ | _, s⟩ <;> rfl

theorem evaluateTokens_append (ts ts' : List Str) (s : State w) :
    evaluateTokens memory (ts ++ ts') s
      = andThen (evaluateTokens memory ts s) (evaluateTokens memory ts') := by
  induction ts generalizing s with
  | nil => rfl
  | cons t ts ih =>
    rw [List.cons_append, evaluateTokens, evaluateTokens, andThen_assoc]
    exact congrArg (andThen _) (funext ih)

theorem evaluateInternal_eq (ts : List Str) (s : State w) :
    evaluateInternal memory ts s = evaluateTokens memory (unsmash ts) s := by
  induction ts generalizing s with
  | nil => rfl
  | cons t ts ih =>
    unfold evaluateInternal unsmash
    rw [List.flatMap_cons, evaluateTokens_append]
    simp only [ih]
    split_ifs
    · simp only [evaluateTokens, andThen_assoc]
      rfl
    · simp only [evaluateTokens, andThen_assoc]
      rfl

theorem evaluateToken_atom {t : Str} (ht : Atom t) (s : State w) :
    evaluateToken memory t s = some (true, { s with stack := t :: s.stack }) := by
  unfold evaluateToken
  rw [ht.1]
  simp only [ht.2.1, ht.2.2, if_false]

theorem binaryOperation_symbol (operation : BinaryOperation) :
    binaryOperation operation.symbol = some operation := by
  cases operation <;> rfl

/-! ## Expressions -/

/-- How the evaluation of a part of a program ends, and what it leaves: the dictionary is as it was
where it fails. -/
inductive Ends {α : Type} (d : Dictionary w) (a : Option Validity) (R : α → State w → Prop) :
    Except Stop α → Option (Bool × State w) → Prop
  | ok {x : α} {s : State w} (h : R x s) : Ends d a R (.ok x) (some (true, s))
  | fails (st : List Str) : Ends d a R (.error .fails) (some (false, ⟨st, d, a⟩))
  | crashes : Ends d a R (.error .crashes) none

theorem Ends.bind {α β : Type} {R : α → State w → Prop} {R' : β → State w → Prop}
    {r : Except Stop α} {x : Option (Bool × State w)} {f : α → Except Stop β}
    {g : State w → Option (Bool × State w)} (h : Ends d a R r x)
    (hf : ∀ y s, R y s → Ends d a R' (f y) (g s)) : Ends d a R' (r >>= f) (andThen x g) := by
  cases h with
  | ok hy => exact hf _ _ hy
  | fails st => exact .fails st
  | crashes => exact .crashes

/-- What is left of an expression is on the top of the stack. -/
def Pushed (st : List Str) (d : Dictionary w) (a : Option Validity) (o : Operand w) (s : State w) :
    Prop := ∃ t, o = operand t ∧ s = ⟨t :: st, d, a⟩

theorem pushed_pushValue (v : BitVec w) :
    Pushed st d a (.literal v false) (pushValue ⟨st, d, a⟩ v) :=
  ⟨_, (operand_toDigits v).symm, rfl⟩

theorem evaluateToken_symbol (operation : BinaryOperation) (t1 t2 : Str) :
    Ends d a (Pushed st d a) (operation.apply d (operand t1) (operand t2))
      (evaluateToken memory operation.symbol ⟨t2 :: t1 :: st, d, a⟩) := by
  unfold evaluateToken BinaryOperation.apply Operand.value
  rw [binaryOperation_symbol, popValues_cons]
  rcases (operand t2).resolve d with _ | v2
  · rcases (operand t1).resolve d with _ | v1
    · exact .fails _
    · exact .fails _
  · rcases (operand t1).resolve d with _ | v1
    · exact .fails _
    · show Ends d a _ (orStop .crashes (operation.perform v1 v2) >>= _)
        ((operation.perform v1 v2).map _)
      rcases operation.perform v1 v2 with _ | v
      · exact .crashes
      · exact .ok (pushed_pushValue v)

theorem evaluateToken_dereference (t : Str) :
    Ends d a (Pushed st d a) (dereference memory d (operand t))
      (evaluateToken memory ['^'] ⟨t :: st, d, a⟩) := by
  have hnone : binaryOperation ['^'] = none := by decide
  unfold evaluateToken dereference Operand.value
  rw [hnone]
  simp only [if_true]
  rcases memory with _ | getMemoryAtAddress
  · exact .fails _
  · rw [popValue_cons]
    rcases (operand t).resolve d with _ | address
    · exact .fails _
    · dsimp only
      show Ends d a _ (orStop .fails (getMemoryAtAddress address) >>= _) _
      rcases getMemoryAtAddress address with _ | v
      · exact .fails _
      · exact .ok (pushed_pushValue v)

/-- The tokens of an expression leave what is left of it above the stack. -/
theorem evaluateTokens_expr : ∀ (e : Expr), e.Atoms → ∀ st,
    Ends d a (Pushed st d a) (e.run memory d) (evaluateTokens memory e.tokens ⟨st, d, a⟩)
  | .atom t, ht, st => by
    unfold Expr.tokens
    rw [evaluateTokens_singleton, evaluateToken_atom ht]
    exact .ok ⟨t, rfl, rfl⟩
  | .binary operation e1 e2, ⟨h1, h2⟩, st => by
    unfold Expr.tokens Expr.run
    rw [List.append_assoc, evaluateTokens_append]
    refine (evaluateTokens_expr e1 h1 st).bind fun _ _ ⟨t1, ho1, hs1⟩ => ?_
    subst ho1 hs1
    rw [evaluateTokens_append]
    refine (evaluateTokens_expr e2 h2 (t1 :: st)).bind fun _ _ ⟨t2, ho2, hs2⟩ => ?_
    subst ho2 hs2
    rw [evaluateTokens_singleton]
    exact evaluateToken_symbol operation t1 t2
  | .dereference e, he, st => by
    unfold Expr.tokens Expr.run
    rw [evaluateTokens_append]
    refine (evaluateTokens_expr e he st).bind fun _ _ ⟨t, ho, hs⟩ => ?_
    subst ho hs
    rw [evaluateTokens_singleton]
    exact evaluateToken_dereference t

/-! ## Programs -/

/-- A variable has its value. -/
def Assigned (st : List Str) (d : Dictionary w) (a : Option Validity) (r : Str × BitVec w)
    (s : State w) : Prop := s = assign ⟨st, d, a⟩ r.1 r.2

theorem evaluateToken_assign (t target : Str) :
    Ends d a (Assigned st d a) (assignTo d target (operand t))
      (evaluateToken memory ['='] ⟨t :: target :: st, d, a⟩) := by
  have hnone : binaryOperation ['='] = none := by decide
  have hne : ¬ (['='] : Str) = ['^'] := by decide
  unfold evaluateToken assignTo Operand.value
  rw [hnone]
  simp only [hne, if_true, if_false, popValue_cons]
  rcases (operand t).resolve d with _ | v
  · exact .fails _
  · unfold variableOf
    simp only [popValueOrIdentifier_cons]
    rcases (operand target : Operand w) with ⟨u, _ | _⟩ | name
    · exact .fails _
    · exact .crashes
    · by_cases hname : name.head? ≠ some '$'
      · simp only [if_pos hname]
        exact .fails _
      · simp only [if_neg hname]
        exact .ok rfl

/-- The tokens of an assignment assign to its variable. -/
theorem evaluateTokens_assignment (p : Assignment) (hp : p.Atoms) (st : List Str) :
    Ends d a (Assigned st d a) (p.exec memory d) (evaluateTokens memory p.tokens ⟨st, d, a⟩) := by
  unfold Assignment.exec Assignment.tokens
  rw [evaluateTokens, evaluateToken_atom hp.1]
  show Ends d a _ _ (evaluateTokens memory (p.value.tokens ++ [['=']]) ⟨p.target :: st, d, a⟩)
  rw [evaluateTokens_append]
  refine (evaluateTokens_expr p.value hp.2 (p.target :: st)).bind fun _ _ ⟨t, ho, hs⟩ => ?_
  subst ho hs
  rw [evaluateTokens_singleton]
  exact evaluateToken_assign t p.target

/-- A run of assignments and then of these tokens, on an empty stack, against what the assignments
do. -/
inductive RunsTo (memory : Option (Memory w)) (ts : List Str) :
    Option (Bool × Dictionary w × Option Validity) → Option (Bool × State w) → Prop
  | ends (d : Dictionary w) (a : Option Validity) :
    RunsTo memory ts (some (true, d, a)) (evaluateTokens memory ts ⟨[], d, a⟩)
  | fails (st : List Str) (d : Dictionary w) (a : Option Validity) :
    RunsTo memory ts (some (false, d, a)) (some (false, ⟨st, d, a⟩))
  | crashes : RunsTo memory ts none none

theorem evaluateTokens_program (memory : Option (Memory w)) (ts : List Str) :
    ∀ (ps : List Assignment), (∀ p ∈ ps, p.Atoms) → ∀ (d : Dictionary w) (a : Option Validity),
    RunsTo memory ts (exec memory ps d a)
      (evaluateTokens memory (ps.flatMap Assignment.tokens ++ ts) ⟨[], d, a⟩)
  | [], _, d, a => .ends d a
  | p :: ps, hps, d, a => by
    have hp : Ends d a (Assigned [] d a) (p.exec memory d)
        (evaluateTokens memory p.tokens ⟨[], d, a⟩) :=
      evaluateTokens_assignment p (hps p List.mem_cons_self) []
    unfold exec
    rw [List.flatMap_cons, List.append_assoc, evaluateTokens_append]
    generalize p.exec memory d = r at hp ⊢
    generalize evaluateTokens memory p.tokens ⟨[], d, a⟩ = x at hp ⊢
    cases hp with
    | fails st => exact .fails st d a
    | crashes => exact .crashes
    | @ok y s h =>
      obtain ⟨name, v⟩ := y
      obtain rfl : s = assign ⟨[], d, a⟩ name v := h
      exact evaluateTokens_program memory ts ps (fun q hq => hps q (List.mem_cons_of_mem _ hq)) _ _

/-- A text whose tokens are those of a program is evaluated as the program says. -/
theorem evaluate_program (memory : Option (Memory w)) {ps : List Assignment} {expression : Str}
    (hps : ∀ p ∈ ps, p.Atoms)
    (htokens : unsmash (tokens expression) = ps.flatMap Assignment.tokens)
    (d : Dictionary w) (a : Option Validity) :
    evaluate memory expression d a = exec memory ps d a := by
  have hrun := evaluateTokens_program memory [] ps hps d a
  unfold evaluate
  rw [evaluateInternal_eq, htokens]
  rw [List.append_nil] at hrun
  generalize exec memory ps d a = r at hrun ⊢
  generalize evaluateTokens memory (ps.flatMap Assignment.tokens) ⟨[], d, a⟩ = x at hrun ⊢
  cases hrun with
  | ends => rfl
  | fails => rfl
  | crashes => rfl

theorem evaluate_program_smashed : evaluate (some fun a => some (a + 1))
    "$T $b 8 + =$e $T ^ =".toList (fun s : Str => if s = "$b".toList then some (4 : BitVec 32)
      else none) none
    = exec (some fun a => some (a + 1))
      [⟨"$T".toList, .binary .add (.atom "$b".toList) (.atom "8".toList)⟩,
        ⟨"$e".toList, .dereference (.atom "$T".toList)⟩]
      (fun s : Str => if s = "$b".toList then some (4 : BitVec 32) else none) none :=
  evaluate_program _ (by decide) (by decide) _ none

/-- With an expression after the program, it is the value of the expression, with what the program
has assigned. -/
theorem evaluateForValue_program (memory : Option (Memory w)) {ps : List Assignment} {e : Expr}
    {expression : Str} (hps : ∀ p ∈ ps, p.Atoms) (he : e.Atoms)
    (htokens : unsmash (tokens expression) = ps.flatMap Assignment.tokens ++ e.tokens)
    (d : Dictionary w) :
    evaluateForValue memory expression d = valueAfter memory ps e d := by
  have hrun := evaluateTokens_program memory e.tokens ps hps d none
  unfold evaluateForValue valueAfter
  rw [evaluateInternal_eq, htokens]
  generalize exec memory ps d none = r at hrun ⊢
  generalize evaluateTokens memory (ps.flatMap Assignment.tokens ++ e.tokens) ⟨[], d, none⟩ = x
    at hrun ⊢
  cases hrun with
  | fails => rfl
  | crashes => rfl
  | ends d' a' =>
    have hvalue : Ends d' a' (Pushed [] d' a') (e.run memory d')
        (evaluateTokens memory e.tokens ⟨[], d', a'⟩) := evaluateTokens_expr e he []
    simp only []
    generalize e.run memory d' = r at hvalue ⊢
    generalize evaluateTokens memory e.tokens ⟨[], d', a'⟩ = x at hvalue ⊢
    cases hvalue with
    | fails => rfl
    | crashes => rfl
    | ok h =>
      obtain ⟨t, rfl, rfl⟩ := h
      simp only [List.length_singleton, ne_eq, not_true_eq_false, if_false, popValue_cons]
      rfl

end Xrash.PostfixEvaluator
