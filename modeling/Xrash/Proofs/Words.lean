import Xrash.Shell

/-!
# When the shell reads words back

Every character token recognition consumes is a character of a word or is gone, so the words the
shell makes of a text are no longer than the text, and are as long only if nothing of it quoted,
separated twice or was a comment. So the shell reads words joined by blanks back as they were
exactly when each of them is inert (`argv_intercalate`).
-/

namespace Xrash

namespace Shell

/-- A run of token recognition keeps what each step keeps, of the state and the text read. -/
theorem run_keeps {P : State → List Char → Prop}
    (hstep : ∀ s s' t c, P s t → step s c = .ok s' → P s' (t ++ [c])) :
    ∀ (text : List Char) {s s' : State} {t : List Char}, P s t →
      text.foldlM step s = .ok s' → P s' (t ++ text)
  | [], s, s', t, hs, h => by
    obtain rfl : s = s' := by simpa [pure, Except.pure] using h
    simpa using hs
  | c :: text, s, s', t, hs, h => by
    rw [List.foldlM_cons] at h
    rcases hc : step s c with e | s₁ <;> rw [hc] at h
    · simp [bind, Except.bind] at h
    · have := run_keeps hstep text (hstep s s₁ t c hs hc) h
      simpa using this

theorem lex_eq_ok {text : List Char} {ws : List Word} (h : lex text = .ok ws) :
    ∃ s, text.foldlM step start = .ok s ∧ finish s = .ok ws := by
  unfold lex at h
  rcases hs : text.foldlM step start with e | s <;> rw [hs] at h
  · simp [bind, Except.bind] at h
  · exact ⟨s, rfl, h⟩

/-! ## Bare words are read back -/

/-- A word nothing in which stops token recognition. -/
def PlainWord (w : List Char) : Prop :=
  w ≠ [] ∧ (∀ c ∈ w, classOf c = .hash ∨ classOf c = .other) ∧ w.head? ≠ some '#'

theorem Inert.plainWord {w : List Char} (h : Inert w) : PlainWord w := ⟨h.ne, h.chars, h.first.1⟩

theorem classOf_eq_hash {c : Char} (h : classOf c = .hash) : c = '#' := by
  unfold classOf at h
  split_ifs at h
  assumption

theorem step_cur {c : Char} (hc : classOf c = .hash ∨ classOf c = .other) (ws : List Word)
    (v : Word) : step ⟨.plain, ws, some v⟩ c = .ok ⟨.plain, ws, some (v ++ [(c, false)])⟩ := by
  rcases hc with hc | hc <;> simp [step, stepPlain, hc, State.push]

theorem run_cur : ∀ (w : List Char) (ws : List Word) (v : Word),
    (∀ c ∈ w, classOf c = .hash ∨ classOf c = .other) →
    w.foldlM step ⟨.plain, ws, some v⟩ = .ok ⟨.plain, ws, some (v ++ bare w)⟩
  | [], ws, v, _ => by simp [bare, pure, Except.pure]
  | c :: w, ws, v, h => by
    rw [List.foldlM_cons, step_cur (h c List.mem_cons_self)]
    have := run_cur w ws (v ++ [(c, false)]) fun c hc => h c (List.mem_cons_of_mem _ hc)
    simpa [bare, bind, Except.bind] using this

theorem run_word {w : List Char} (h : PlainWord w) (ws : List Word) :
    w.foldlM step ⟨.plain, ws, none⟩ = .ok ⟨.plain, ws, some (bare w)⟩ := by
  obtain ⟨c, w, rfl⟩ := List.exists_cons_of_ne_nil h.1
  have hc : classOf c = .other := by
    rcases h.2.1 c List.mem_cons_self with hc | hc
    · exact absurd (congrArg some (classOf_eq_hash hc)) h.2.2
    · exact hc
  have := run_cur w ws [(c, false)] fun c hc => h.2.1 c (List.mem_cons_of_mem _ hc)
  simpa [List.foldlM_cons, step, stepPlain, hc, State.push, bind, Except.bind, bare] using this

theorem step_blank (ws : List Word) (v : Word) :
    step ⟨.plain, ws, some v⟩ ' ' = .ok ⟨.plain, ws ++ [v], none⟩ := by
  simp [step, stepPlain, show classOf ' ' = .blank by decide, State.closed]

theorem run_words : ∀ (us : List (List Char)) (w : List Char) (ws : List Word),
    (∀ u ∈ w :: us, PlainWord u) → ([' '].intercalate (w :: us)).foldlM step ⟨.plain, ws, none⟩
      = .ok ⟨.plain, ws ++ ((w :: us).map bare).dropLast, ((w :: us).map bare).getLast?⟩
  | [], w, ws, h => by simpa using run_word (h w List.mem_cons_self) ws
  | u :: us, w, ws, h => by
    have ih := run_words us u (ws ++ [bare w]) fun u hu => h u (List.mem_cons_of_mem _ hu)
    rw [List.intercalate_cons_cons, List.foldlM_append, List.foldlM_append,
      run_word (h w List.mem_cons_self)]
    simpa [bind, Except.bind, pure, Except.pure, step_blank] using ih

theorem lex_intercalate {ws : List (List Char)} (hne : ws ≠ []) (h : ∀ w ∈ ws, PlainWord w) :
    lex ([' '].intercalate ws) = .ok (ws.map bare) := by
  obtain ⟨w, us, rfl⟩ := List.exists_cons_of_ne_nil hne
  have := run_words us w [] h
  simp only [start, lex, this, bind, Except.bind, finish, State.closed, List.nil_append]
  rw [List.getLast?_eq_some_getLast (by simp), Option.toList_some, List.dropLast_append_getLast]

/-! ## What a step does -/

/-- A step keeps the character as it is, ends a word, only changes the mode, opens a quotation, or
keeps what a quotation makes literal. -/
theorem step_cases {s s' : State} {c : Char} (h : step s c = .ok s') :
    (s.mode = .plain ∧ (classOf c = .other ∨ (classOf c = .hash ∧ s.cur ≠ none))
        ∧ s' = s.push .plain [(c, false)])
    ∨ ((s.mode = .plain ∨ s.mode = .comment)
        ∧ ∃ m, (m = .plain ∨ m = .ended) ∧ s' = ⟨m, s.closed, none⟩)
    ∨ (∃ m, (m = .doubleEscape → s.mode = .double ∧ classOf c = .backslash)
        ∧ s' = { s with mode := m })
    ∨ (s.mode = .plain ∧ ∃ m, (m = .single ∨ m = .double) ∧ s' = s.push m [])
    ∨ ((s.mode ≠ .plain ∧ s.mode ≠ .ended)
        ∧ ∃ m, m ≠ .doubleEscape ∧ s' = s.push m [(c, true)])
    ∨ (s.mode = .doubleEscape ∧ s' = s.push .double [(Char.ofNat 92, true), (c, true)]) := by
  have hnl : ∃ m, (m = .plain ∨ m = .ended) ∧ s.newline = ⟨m, s.closed, none⟩ := by
    refine ⟨if s.closed = [] then .plain else .ended, ?_, rfl⟩
    split_ifs <;> simp
  have hn : classOf c ≠ .nul := by
    intro hn
    simp [step, hn] at h
  cases hm : s.mode <;> simp only [step, hm, if_neg hn] at h
  · simp only [stepPlain] at h
    split at h <;> simp only [Except.ok.injEq, reduceCtorEq] at h
    · exact .inr (.inl ⟨.inl rfl, _, .inl rfl, h.symm⟩)
    · exact .inr (.inl ⟨.inl rfl, h ▸ hnl⟩)
    · exact .inr (.inr (.inl ⟨.escape, by simp, h.symm⟩))
    · exact .inr (.inr (.inr (.inl ⟨rfl, _, .inl rfl, h.symm⟩)))
    · exact .inr (.inr (.inr (.inl ⟨rfl, _, .inr rfl, h.symm⟩)))
    · rename_i hc
      split_ifs at h with hcur
      · exact .inr (.inr (.inl ⟨.comment, by simp, h.symm⟩))
      · exact .inl ⟨rfl, .inr ⟨hc, hcur⟩, h.symm⟩
    · rename_i hc
      exact .inl ⟨rfl, .inl hc, h.symm⟩
  · split_ifs at h <;> simp only [Except.ok.injEq] at h
    · exact .inr (.inr (.inl ⟨.plain, by simp, h.symm⟩))
    · exact .inr (.inr (.inr (.inr (.inl ⟨by simp, .plain, by simp, h.symm⟩))))
  · split_ifs at h <;> simp only [Except.ok.injEq] at h
    · exact .inr (.inr (.inl ⟨.plain, by simp, h.symm⟩))
    · exact .inr (.inr (.inr (.inr (.inl ⟨by simp, .single, by simp, h.symm⟩))))
  · split at h <;> simp only [Except.ok.injEq, reduceCtorEq] at h
    · exact .inr (.inr (.inl ⟨.plain, by simp, h.symm⟩))
    · rename_i hc
      exact .inr (.inr (.inl ⟨.doubleEscape, fun _ => ⟨rfl, hc⟩, h.symm⟩))
    · exact .inr (.inr (.inr (.inr (.inl ⟨by simp, .double, by simp, h.symm⟩))))
  · split at h <;> simp only [Except.ok.injEq] at h
    · exact .inr (.inr (.inl ⟨.double, by simp, h.symm⟩))
    all_goals first
      | exact .inr (.inr (.inr (.inr (.inr ⟨rfl, h.symm⟩))))
      | exact .inr (.inr (.inr (.inr (.inl ⟨by simp, .double, by simp, h.symm⟩))))
  · split_ifs at h <;> simp only [Except.ok.injEq] at h
    · exact .inr (.inl ⟨.inr rfl, h ▸ hnl⟩)
    · exact .inr (.inr (.inl ⟨.comment, by simp, by rw [← h, ← hm]⟩))
  · split at h <;> simp only [Except.ok.injEq, reduceCtorEq] at h
    · exact .inr (.inr (.inl ⟨.ended, by simp, by rw [← h, ← hm]⟩))
    · exact .inr (.inr (.inl ⟨.ended, by simp, by rw [← h, ← hm]⟩))
    · exact .inr (.inr (.inl ⟨.comment, by simp, h.symm⟩))

/-! ## What the text costs -/

/-- The characters the words take, with one more for what ends each. -/
def size (ws : List Word) : ℕ := (ws.map (·.length + 1)).sum

/-- The characters accounted for so far. -/
def State.cost (s : State) : ℕ := size s.words + (s.cur.getD []).length

theorem State.size_closed (s : State) : size s.closed = s.cost + s.cur.toList.length := by
  rcases s with ⟨m, ws, _ | w⟩ <;> simp [closed, cost, size]
  omega

theorem State.cost_push (s : State) (m : Mode) (cs : Word) :
    (s.push m cs).cost = s.cost + cs.length := by
  simp [push, cost]
  omega

theorem State.cur_length (s : State) : s.cur.toList.length ≤ 1 := by
  rcases s with ⟨m, ws, _ | w⟩ <;> simp

/-- All words so far are plain and unquoted. -/
def State.AllPlain (s : State) : Prop := ∀ w ∈ s.closed, ∃ u, PlainWord u ∧ w = bare u

/-- The words account for at most the `n` characters read, and account for all of them only if
they are plain, outside every quotation. -/
def State.Within (s : State) (n : ℕ) : Prop :=
  match s.mode with
  | .plain | .ended => s.cost ≤ n ∧ (s.cost = n → s.AllPlain)
  | .doubleEscape => s.cost + 1 < n
  | _ => s.cost < n

theorem allPlain_push {s : State} (hs : s.AllPlain) {c : Char}
    (hc : classOf c = .other ∨ (classOf c = .hash ∧ s.cur ≠ none)) :
    (s.push .plain [(c, false)]).AllPlain := by
  rcases s with ⟨m, ws, _ | v⟩
  · have hc : classOf c = .other := by simpa using hc
    intro w hw
    simp only [State.closed, State.push, Option.getD_none, List.nil_append, Option.toList_some,
      List.mem_append, List.mem_singleton] at hw
    rcases hw with hw | rfl
    · exact hs w (by simp [State.closed, hw])
    · refine ⟨[c], ⟨by simp, by simp [hc], ?_⟩, rfl⟩
      rintro h
      obtain rfl : c = '#' := by simpa using h
      exact absurd hc (by decide)
  · intro w hw
    simp only [State.closed, State.push, Option.getD_some, Option.toList_some,
      List.mem_append, List.mem_singleton] at hw
    rcases hw with hw | rfl
    · exact hs w (by simp [State.closed, hw])
    · obtain ⟨u, hu, rfl⟩ := hs v (by simp [State.closed])
      refine ⟨u ++ [c], ⟨by simp, ?_, ?_⟩, by simp [bare]⟩
      · intro d hd
        rcases List.mem_append.1 hd with hd | hd
        · exact hu.2.1 d hd
        · obtain rfl := List.mem_singleton.1 hd
          tauto
      · rw [List.head?_append_of_ne_nil _ hu.1]
        exact hu.2.2

theorem within_closed {s : State} {n : ℕ} (hs : s.cost ≤ n ∧ (s.cost = n → s.AllPlain)) (m : Mode) :
    let s' : State := ⟨m, s.closed, none⟩
    s'.cost ≤ n + 1 ∧ (s'.cost = n + 1 → s'.AllPlain) := by
  have hcost : (⟨m, s.closed, none⟩ : State).cost = s.cost + s.cur.toList.length :=
    s.size_closed
  have hlen := s.cur_length
  refine ⟨by omega, fun h w hw => hs.2 (by omega) w ?_⟩
  simpa [State.closed] using hw

theorem State.Within.le {s : State} {n : ℕ} (hs : s.Within n) : s.cost ≤ n := by
  unfold State.Within at hs
  split at hs <;> omega

theorem State.Within.lt {s : State} {n : ℕ} (hs : s.Within n) (hp : s.mode ≠ .plain)
    (he : s.mode ≠ .ended) : s.cost < n := by
  unfold State.Within at hs
  split at hs
  · contradiction
  · contradiction
  · omega
  · exact hs

/-- Once a character is lost, the words never account for all of the text again. -/
theorem within_of_lt {s : State} {n : ℕ} (hm : s.mode ≠ .doubleEscape) (h : s.cost < n) :
    s.Within n := by
  unfold State.Within
  split
  · exact ⟨h.le, fun h' => by omega⟩
  · exact ⟨h.le, fun h' => by omega⟩
  · contradiction
  · exact h

theorem within_step {s s' : State} {n : ℕ} {c : Char} (hs : s.Within n) (h : step s c = .ok s') :
    s'.Within (n + 1) := by
  have hle := hs.le
  rcases step_cases h with ⟨hm, hc, rfl⟩ | ⟨hm, m, hm', rfl⟩ | ⟨m, hm, rfl⟩ | ⟨hm, m, hm', rfl⟩ |
    ⟨hm, m, hm', rfl⟩ | ⟨hm, rfl⟩
  · have hs : s.cost ≤ n ∧ (s.cost = n → s.AllPlain) := by simpa [State.Within, hm] using hs
    have hcost := s.cost_push .plain [(c, false)]
    simp only [List.length_singleton] at hcost
    exact ⟨by omega, fun h => allPlain_push (hs.2 (by omega)) hc⟩
  · have hs : s.cost ≤ n ∧ (s.cost = n → s.AllPlain) := by
      rcases hm with hm | hm
      · simpa [State.Within, hm] using hs
      · exact ⟨hle, fun h => absurd h (hs.lt (by simp [hm]) (by simp [hm])).ne⟩
    rcases hm' with rfl | rfl <;> exact within_closed hs _
  · by_cases hd : m = .doubleEscape
    · subst hd
      have := hs.lt (by simp [(hm rfl).1]) (by simp [(hm rfl).1])
      exact Nat.succ_lt_succ this
    · exact within_of_lt hd (Nat.lt_succ_of_le hle)
  · have hcost := s.cost_push m []
    simp only [List.length_nil] at hcost
    refine within_of_lt ?_ (by omega)
    rcases hm' with rfl | rfl <;> simp [State.push]
  · have hcost := s.cost_push m [(c, true)]
    simp only [List.length_singleton] at hcost
    have := hs.lt hm.1 hm.2
    exact within_of_lt hm' (by omega)
  · have hcost := s.cost_push .double [(Char.ofNat 92, true), (c, true)]
    simp only [List.length_cons, List.length_nil] at hcost
    have hs : s.cost + 1 < n := by simpa [State.Within, hm] using hs
    exact within_of_lt (by simp [State.push]) (by omega)

theorem within_start : start.Within 0 :=
  ⟨le_rfl, fun _ w hw => by simp [start, State.closed] at hw⟩

/-- The words of a text are no longer than the text, and as long only if they are plain. -/
theorem lex_size {text : List Char} {ws : List Word} (h : lex text = .ok ws) :
    size ws ≤ text.length + 1
      ∧ (size ws = text.length + 1 → ∀ w ∈ ws, ∃ u, PlainWord u ∧ w = bare u) := by
  obtain ⟨s, hrun, hfin⟩ := lex_eq_ok h
  have hs : s.Within text.length := by
    simpa using run_keeps (P := fun s t => s.Within t.length)
      (fun s s' t c hs h => by simpa using within_step hs h) text (t := []) within_start hrun
  have hsize := s.size_closed
  have hcur := s.cur_length
  have hle := hs.le
  unfold finish at hfin
  split at hfin <;> simp only [Except.ok.injEq, reduceCtorEq] at hfin <;> subst hfin
  · rename_i hm
    have hs : s.cost ≤ text.length ∧ (s.cost = text.length → s.AllPlain) := by
      simpa [State.Within, hm] using hs
    exact ⟨by omega, fun h => hs.2 (by omega)⟩
  · rename_i hm
    have := hs.lt (by simp [hm]) (by simp [hm])
    exact ⟨by omega, fun h => by omega⟩
  · rename_i hm
    have hs : s.cost ≤ text.length ∧ (s.cost = text.length → s.AllPlain) := by
      simpa [State.Within, hm] using hs
    exact ⟨by omega, fun h => hs.2 (by omega)⟩

theorem size_eq_map_fst (ws : List Word) :
    size ws = ((ws.map fun w => w.map Prod.fst).map (·.length + 1)).sum := by
  simp [size, Function.comp_def]

theorem length_intercalate : ∀ (ws : List (List Char)), ws ≠ [] →
    ([' '].intercalate ws).length + 1 = (ws.map (·.length + 1)).sum
  | [w], _ => by simp
  | w :: u :: us, _ => by
    have ih := length_intercalate (u :: us) (by simp)
    rw [List.intercalate_cons_cons, List.map_cons, List.sum_cons, ← ih]
    simp
    omega

/-! ## The words that are read back -/

/-- Whatever `argv` accepts passed token recognition and needs no expansion. -/
theorem argv_eq_ok {text : List Char} {as : List (List Char)} (h : argv text = .ok as) :
    ∃ w ws, lex text = .ok (w :: ws) ∧ isName w = true
      ∧ (∀ v ∈ w :: ws, isTilde v = false ∧ isPattern v = false)
      ∧ as = (w :: ws).map fun w => w.map Prod.fst := by
  unfold argv at h
  split at h
  · simp at h
  · simp at h
  · rename_i w ws hlex
    split_ifs at h with hn ht
    refine ⟨w, ws, hlex, by simpa using hn, fun v hv => ?_, by simpa using h.symm⟩
    simp only [List.any_eq_true, Bool.or_eq_true, not_exists, not_and, not_or,
      Bool.not_eq_true] at ht
    exact ht v hv

theorem bare_fst (w : List Char) : (bare w).map Prod.fst = w := by
  simp [bare, Function.comp_def]

theorem isTilde_bare (w : List Char) : isTilde (bare w) = false ↔ w.head? ≠ some '~' := by
  cases w <;> simp [isTilde, bare]

/-- The words of a command and what separates them take up no more than the text, and take up all
of it only if each word is inert. -/
theorem argv_size {text : List Char} {as : List (List Char)} (h : argv text = .ok as) :
    (as.map (·.length + 1)).sum ≤ text.length + 1
      ∧ ((as.map (·.length + 1)).sum = text.length + 1 → ∀ v ∈ as, Inert v) := by
  obtain ⟨u, us, hlex, -, hexp, rfl⟩ := argv_eq_ok h
  have hsize := lex_size hlex
  rw [size_eq_map_fst] at hsize
  refine ⟨hsize.1, fun heq v hv => ?_⟩
  obtain ⟨x, hx, rfl⟩ := List.mem_map.1 hv
  obtain ⟨ht, hpat⟩ := hexp x hx
  obtain ⟨y, hy, rfl⟩ := hsize.2 heq x hx
  rw [bare_fst]
  exact ⟨hy.1, hy.2.1, ⟨hy.2.2, (isTilde_bare y).1 ht⟩, hpat⟩

theorem isName_of_plain {w : List Char} {ws : List (List Char)} {text : List Char}
    (h : argv text = .ok (w :: ws)) (hsize : ((w :: ws).map (·.length + 1)).sum = text.length + 1) :
    isName (bare w) = true := by
  obtain ⟨u, us, hlex, hname, -, hws⟩ := argv_eq_ok h
  rw [hws, ← size_eq_map_fst] at hsize
  obtain ⟨x, -, rfl⟩ := (lex_size hlex).2 hsize u List.mem_cons_self
  simp only [List.map_cons, List.cons.injEq, bare_fst] at hws
  rwa [hws.1]

/-- The shell reads words joined by single blanks back as they were exactly when each is inert
and the first can be a command's name. -/
theorem argv_intercalate {w : List Char} {ws : List (List Char)} :
    argv ([' '].intercalate (w :: ws)) = .ok (w :: ws)
      ↔ (∀ v ∈ w :: ws, Inert v) ∧ isName (bare w) = true := by
  constructor
  · intro h
    have hsize := (length_intercalate (w :: ws) (by simp)).symm
    exact ⟨(argv_size h).2 hsize, isName_of_plain h hsize⟩
  · rintro ⟨hall, hname⟩
    have hlex : lex ([' '].intercalate (w :: ws)) = .ok ((w :: ws).map bare) :=
      lex_intercalate (by simp) fun v hv => (hall v hv).plainWord
    have hexp : ((w :: ws).map bare).any (fun w => isTilde w || isPattern w) = false := by
      rw [List.any_eq_false]
      intro x hx
      obtain ⟨v, hv, rfl⟩ := List.mem_map.1 hx
      simp [(isTilde_bare v).2 (hall v hv).first.2, (hall v hv).pattern]
    rw [List.map_cons] at hlex hexp
    simp [argv, hlex, hname, hexp, bare_fst, Function.comp_def]

/-! ## Ordinary words -/

/-- A letter, a digit, or one of `-`, `.`, `/` and `_`. -/
def Ordinary (c : Char) : Prop :=
  (45 ≤ c.toNat ∧ c.toNat ≤ 57) ∨ (65 ≤ c.toNat ∧ c.toNat ≤ 90) ∨ c.toNat = 95
    ∨ (97 ≤ c.toNat ∧ c.toNat ≤ 122)

theorem Ordinary.ne {c d : Char} (h : Ordinary c) (hd : ¬ Ordinary d) : c ≠ d :=
  fun heq => hd (heq ▸ h)

theorem Ordinary.classOf_eq {c : Char} (h : Ordinary c) : classOf c = .other := by
  have hrange := h
  unfold Ordinary at hrange
  have hne : ∀ d ∈ [' ', '\t', '\n', '$', '|', '&', ';', '<', '>', '(', ')', '#'], c ≠ d := by
    intro d hd heq
    subst heq
    simp only [List.mem_cons, List.not_mem_nil, or_false] at hd
    rcases hd with rfl | rfl | rfl | rfl | rfl | rfl | rfl | rfl | rfl | rfl | rfl | rfl <;>
      exact absurd hrange (by decide)
  simp only [List.mem_cons, List.not_mem_nil, or_false, forall_eq_or_imp, forall_eq] at hne
  unfold classOf
  rw [if_neg (by omega), if_neg (by tauto), if_neg (by tauto), if_neg (by omega),
    if_neg (by omega), if_neg (by omega), if_neg, if_neg, if_neg (by tauto)]
  · simp only [List.mem_cons, List.not_mem_nil, or_false]
    tauto
  · rintro (h | h)
    · tauto
    · omega

theorem inert_of_ordinary {w : List Char} (hne : w ≠ []) (h : ∀ c ∈ w, Ordinary c) : Inert w := by
  have hpat : ∀ v : List Char, (∀ c ∈ v, Ordinary c) → isPattern (bare v) = false := by
    intro v hv
    induction v with
    | nil => rfl
    | cons c v ih =>
      have hc := hv c List.mem_cons_self
      have h1 : c ≠ '*' := hc.ne (by simp [Ordinary])
      have h2 : c ≠ '?' := hc.ne (by simp [Ordinary])
      have h3 : c ≠ '[' := hc.ne (by simp [Ordinary])
      have ih := ih fun d hd => hv d (List.mem_cons_of_mem _ hd)
      unfold bare at ih
      simp [bare, isPattern, h1, h2, h3, ih]
  refine ⟨hne, fun c hc => .inr (h c hc).classOf_eq, ⟨fun hw => ?_, fun hw => ?_⟩, hpat w h⟩
  · exact (h _ (List.mem_of_mem_head? hw)).ne (by simp [Ordinary]) rfl
  · exact (h _ (List.mem_of_mem_head? hw)).ne (by simp [Ordinary]) rfl

/-! ## Where the characters of the words come from -/

/-- The characters kept so far. -/
def State.chars (s : State) : List Char := (s.closed.map fun w => w.map Prod.fst).flatten

end Shell

end Xrash
