import Mathlib

/-!
# File trees

A tree gives each path, the list of the names on the way, a directory or a file or nothing.
`mkdirs` makes a directory and those above it, `put` writes a file into a directory; both fail
where a file stands in the way of a directory or a directory in that of a file.

In a tree whose directories all lie above one level and whose files all lie just below it nothing
stands in the way (`Levelled`). Such a tree is what depositing files at one depth leaves, and
there deposits at different paths commute (`deposited_perm`).
-/

namespace Xrash

inductive Node (β : Type) where
  | dir
  | file (content : β)
  deriving DecidableEq

abbrev FileTree (κ β : Type) := List κ → Option (Node β)

/-- A file to be written, with the directory it goes to. -/
structure Deposit (κ β : Type) where
  dir : List κ
  leaf : κ
  content : β

def Deposit.path {κ β : Type} (d : Deposit κ β) : List κ := d.dir ++ [d.leaf]

namespace FileTree

variable {κ β : Type} [DecidableEq κ]

def empty : FileTree κ β := fun _ => none

/-- A file in place of a tree. -/
def ofFile (content : β) : FileTree κ β
  | [] => some (.file content)
  | _ => none

/-- Each of the paths made a directory, up to the first that is a file. -/
def makeDirs : List (List κ) → FileTree κ β → Bool × FileTree κ β
  | [], T => (true, T)
  | p :: ps, T =>
    match T p with
    | some (.file _) => (false, T)
    | _ => makeDirs ps (Function.update T p (some .dir))

/-- `mkdir -p q`. -/
def mkdirs (T : FileTree κ β) (q : List κ) : Bool × FileTree κ β := makeDirs q.inits T

/-- A file of this content copied to the directory `q`, as `s`. -/
def put (T : FileTree κ β) (q : List κ) (s : κ) (content : β) : Bool × FileTree κ β :=
  match T q, T (q ++ [s]) with
  | some .dir, some .dir => (false, T)
  | some .dir, _ => (true, Function.update T (q ++ [s]) (some (.file content)))
  | _, _ => (false, T)

/-- The tree with `q` and the directories above it. -/
def withDirs (T : FileTree κ β) (q : List κ) : FileTree κ β := fun p =>
  if p <+: q then some .dir else T p

/-- The tree with the file in its directory. -/
def withFile (T : FileTree κ β) (d : Deposit κ β) : FileTree κ β :=
  Function.update (T.withDirs d.dir) d.path (some (.file d.content))

/-- The tree with all the files in their directories. -/
def deposited (T : FileTree κ β) (ds : List (Deposit κ β)) : FileTree κ β := ds.foldl withFile T

/-- The directories are at level `n` or above, the files right below it. -/
def Levelled (n : ℕ) (T : FileTree κ β) : Prop :=
  ∀ p, (T p = some .dir → p.length ≤ n) ∧ ∀ c, T p = some (.file c) → p.length = n + 1

/-! ## Making directories -/

theorem makeDirs_ok : ∀ (ps : List (List κ)) (T : FileTree κ β),
    (∀ p ∈ ps, ∀ c, T p ≠ some (.file c)) →
    makeDirs ps T = (true, fun p => if p ∈ ps then some .dir else T p)
  | [], T, _ => by simp [makeDirs]
  | p :: ps, T, h => by
    have hp : ∀ c, T p ≠ some (.file c) := h p List.mem_cons_self
    have ih := makeDirs_ok ps (Function.update T p (some .dir)) fun q hq c => by
      by_cases hqp : q = p
      · subst hqp
        simp
      · rw [Function.update_of_ne hqp]
        exact h q (List.mem_cons_of_mem _ hq) c
    have hstep : makeDirs (p :: ps) T = makeDirs ps (Function.update T p (some .dir)) := by
      rw [makeDirs]
      split
      · rename_i c hc
        exact absurd hc (hp c)
      · rfl
    rw [hstep, ih]
    refine Prod.ext rfl (funext fun q => ?_)
    by_cases hqp : q = p
    · subst hqp
      simp
    · simp [hqp]

theorem mkdirs_ok {T : FileTree κ β} {q : List κ} (h : ∀ p, p <+: q → ∀ c, T p ≠ some (.file c)) :
    T.mkdirs q = (true, T.withDirs q) := by
  rw [mkdirs, makeDirs_ok _ _ fun p hp => h p ((List.mem_inits p q).1 hp)]
  simp only [List.mem_inits]
  rfl

theorem makeDirs_sound : ∀ (ps : List (List κ)) (T : FileTree κ β) {p : List κ} {n : Node β},
    (makeDirs ps T).2 p = some n → T p = some n ∨ (p ∈ ps ∧ n = .dir)
  | [], T, p, n, h => .inl h
  | q :: ps, T, p, n, h => by
    rw [makeDirs] at h
    split at h
    · exact .inl h
    · rcases makeDirs_sound ps _ h with h | ⟨hp, hn⟩
      · by_cases hpq : p = q
        · subst hpq
          rw [Function.update_self, Option.some.injEq] at h
          exact .inr ⟨List.mem_cons_self, h.symm⟩
        · rw [Function.update_of_ne hpq] at h
          exact .inl h
      · exact .inr ⟨List.mem_cons_of_mem _ hp, hn⟩

/-- Whether it succeeds or not, `mkdirs` makes nothing but directories on the way to `q`. -/
theorem mkdirs_sound {T : FileTree κ β} {p q : List κ} {n : Node β}
    (h : (T.mkdirs q).2 p = some n) : T p = some n ∨ (p <+: q ∧ n = .dir) := by
  rcases makeDirs_sound _ _ h with h | ⟨hp, hn⟩
  · exact .inl h
  · exact .inr ⟨(List.mem_inits p q).1 hp, hn⟩

/-! ## Writing a file -/

theorem put_ok {T : FileTree κ β} {q : List κ} {s : κ} (hq : T q = some .dir)
    (hs : T (q ++ [s]) ≠ some .dir) (c : β) :
    T.put q s c = (true, Function.update T (q ++ [s]) (some (.file c))) := by
  unfold put
  rw [hq]
  rcases h : T (q ++ [s]) with _ | _ | _
  · rfl
  · exact absurd h hs
  · rfl

/-- `put` writes its file, and only into a directory. -/
theorem put_sound {T : FileTree κ β} {p q : List κ} {s : κ} {c : β} {n : Node β}
    (h : (T.put q s c).2 p = some n) :
    T p = some n ∨ (T q = some .dir ∧ p = q ++ [s] ∧ n = .file c) := by
  unfold put at h
  split at h
  · exact .inl h
  · simp only at h
    by_cases hp : p = q ++ [s]
    · subst hp
      rw [Function.update_self, Option.some.injEq] at h
      exact .inr ⟨by assumption, rfl, h.symm⟩
    · rw [Function.update_of_ne hp] at h
      exact .inl h
  · exact .inl h

/-! ## A file in place of a tree -/

theorem mkdirs_ofFile (content : β) (q : List κ) :
    (ofFile content).mkdirs q = (false, ofFile content) := by
  cases q <;> rfl

theorem put_ofFile (content : β) (q : List κ) (s : κ) (c : β) :
    (ofFile content).put q s c = (false, ofFile content) := by
  cases q <;> rfl

/-! ## Deposits -/

section Lengths

omit [DecidableEq κ]

variable {n : ℕ} {d : Deposit κ β}

theorem levelled_empty : Levelled n (empty : FileTree κ β) := fun p =>
  ⟨by simp [empty], by simp [empty]⟩

theorem length_path (hd : d.dir.length = n) : d.path.length = n + 1 := by
  simp [Deposit.path, hd]

theorem not_prefix_of_length {p q : List κ} (hq : q.length = n) (hp : p.length = n + 1) :
    ¬ p <+: q := fun h => by
  have := h.length_le
  omega

end Lengths

section Levelled

variable {n : ℕ} {T : FileTree κ β} {d : Deposit κ β} {ds : List (Deposit κ β)}

/-- Nothing stands in the way of a deposit at the level of the tree. -/
theorem Levelled.mkdirs_eq (h : Levelled n T) {q : List κ} (hq : q.length = n) :
    T.mkdirs q = (true, T.withDirs q) :=
  mkdirs_ok fun _ hp c hc => not_prefix_of_length hq ((h _).2 c hc) hp

theorem Levelled.put_eq (h : Levelled n T) (hd : d.dir.length = n) :
    (T.withDirs d.dir).put d.dir d.leaf d.content = (true, T.withFile d) := by
  refine put_ok (by simp [withDirs]) (fun hs => ?_) d.content
  have hnot : ¬ d.dir ++ [d.leaf] <+: d.dir := not_prefix_of_length hd (length_path hd)
  unfold withDirs at hs
  rw [if_neg hnot] at hs
  have := (h _).1 hs
  simp [hd] at this

theorem withFile_apply (T : FileTree κ β) (d : Deposit κ β) (p : List κ) :
    T.withFile d p = if p = d.path then some (.file d.content)
      else if p <+: d.dir then some .dir else T p := by
  unfold withFile
  rw [Function.update_apply]
  rfl

theorem Levelled.withFile (h : Levelled n T) (hd : d.dir.length = n) :
    Levelled n (T.withFile d) := by
  intro p
  rw [withFile_apply]
  split_ifs with hp hpre
  · subst hp
    exact ⟨by simp, fun _ _ => length_path hd⟩
  · exact ⟨fun _ => hd ▸ hpre.length_le, by simp⟩
  · exact h p

theorem Levelled.deposited (h : Levelled n T) (hds : ∀ d ∈ ds, d.dir.length = n) :
    Levelled n (T.deposited ds) := by
  induction ds generalizing T with
  | nil => exact h
  | cons d ds ih =>
    exact ih (h.withFile (hds d List.mem_cons_self)) fun d hd => hds d (List.mem_cons_of_mem _ hd)

/-- What is at a path after deposits at different paths: the file deposited there, a directory on
the way to one, or what was there. -/
theorem deposited_apply (hds : ∀ d ∈ ds, d.dir.length = n) (hp : (ds.map (·.path)).Nodup)
    (T : FileTree κ β) (p : List κ) :
    (∀ d ∈ ds, d.path = p → T.deposited ds p = some (.file d.content))
      ∧ ((∀ d ∈ ds, d.path ≠ p) → (∃ d ∈ ds, p <+: d.dir) → T.deposited ds p = some .dir)
      ∧ ((∀ d ∈ ds, d.path ≠ p) → (∀ d ∈ ds, ¬ p <+: d.dir) → T.deposited ds p = T p) := by
  induction ds generalizing T with
  | nil => simp [deposited]
  | cons d ds ih =>
    rw [List.map_cons, List.nodup_cons] at hp
    obtain ⟨ih1, ih2, ih3⟩ := ih (fun d hd => hds d (List.mem_cons_of_mem _ hd)) hp.2 (T.withFile d)
    have hlen := hds d List.mem_cons_self
    have hrest : ∀ e ∈ ds, e.dir.length = n := fun e he => hds e (List.mem_cons_of_mem _ he)
    have hfold : T.deposited (d :: ds) = (T.withFile d).deposited ds := rfl
    rw [hfold]
    refine ⟨fun e he hep => ?_, fun hno hex => ?_, fun hno hnot => ?_⟩
    · rcases List.mem_cons.1 he with rfl | he
      · -- the later deposits are elsewhere, and their directories are too short
        rw [ih3, withFile_apply, if_pos hep.symm]
        · intro f hf hfp
          exact hp.1 (List.mem_map.2 ⟨f, hf, hfp.trans hep.symm⟩)
        · intro f hf
          exact not_prefix_of_length (hrest f hf) (hep ▸ length_path hlen)
      · exact ih1 e he hep
    · have hno' : ∀ e ∈ ds, e.path ≠ p := fun e he => hno e (List.mem_cons_of_mem _ he)
      by_cases hex' : ∃ e ∈ ds, p <+: e.dir
      · exact ih2 hno' hex'
      · push Not at hex'
        have hpre : p <+: d.dir := by
          obtain ⟨e, he, hpre⟩ := hex
          rcases List.mem_cons.1 he with rfl | he
          · exact hpre
          · exact absurd hpre (hex' e he)
        rw [ih3 hno' hex', withFile_apply, if_neg (Ne.symm (hno d List.mem_cons_self)), if_pos hpre]
    · rw [ih3 (fun e he => hno e (List.mem_cons_of_mem _ he))
        (fun e he => hnot e (List.mem_cons_of_mem _ he)), withFile_apply,
        if_neg (Ne.symm (hno d List.mem_cons_self)), if_neg (hnot d List.mem_cons_self)]

/-- Two trees agree where the same deposits were made, if they agreed elsewhere before. -/
theorem deposited_congr {es : List (Deposit κ β)} {T T' : FileTree κ β}
    (hds : ∀ d ∈ ds, d.dir.length = n) (hp : (ds.map (·.path)).Nodup)
    (hes : (es.map (·.path)).Nodup) (hmem : ∀ d, d ∈ ds ↔ d ∈ es)
    (hT : ∀ p, (∀ d ∈ ds, d.path ≠ p) → (∀ d ∈ ds, ¬ p <+: d.dir) → T p = T' p) :
    T.deposited ds = T'.deposited es := by
  funext p
  obtain ⟨h1, h2, h3⟩ := deposited_apply hds hp T p
  obtain ⟨k1, k2, k3⟩ := deposited_apply (fun d hd => hds d ((hmem d).2 hd)) hes T' p
  by_cases hfile : ∃ d ∈ ds, d.path = p
  · obtain ⟨d, hd, hdp⟩ := hfile
    rw [h1 d hd hdp, k1 d ((hmem d).1 hd) hdp]
  · push Not at hfile
    have hfile' : ∀ d ∈ es, d.path ≠ p := fun d hd => hfile d ((hmem d).2 hd)
    by_cases hdir : ∃ d ∈ ds, p <+: d.dir
    · obtain ⟨d, hd, hpre⟩ := hdir
      rw [h2 hfile ⟨d, hd, hpre⟩, k2 hfile' ⟨d, (hmem d).1 hd, hpre⟩]
    · push Not at hdir
      rw [h3 hfile hdir, k3 hfile' fun d hd => hdir d ((hmem d).2 hd), hT p hfile hdir]

/-- The order of deposits at different paths does not matter. -/
theorem deposited_perm {es : List (Deposit κ β)} (hds : ∀ d ∈ ds, d.dir.length = n)
    (hp : (ds.map (·.path)).Nodup) (h : ds.Perm es) (T : FileTree κ β) :
    T.deposited ds = T.deposited es :=
  deposited_congr hds hp ((h.map _).nodup_iff.1 hp) (fun _ => h.mem_iff) fun _ _ _ => rfl

/-- Depositing the same files again changes nothing. -/
theorem deposited_again (hds : ∀ d ∈ ds, d.dir.length = n) (hp : (ds.map (·.path)).Nodup)
    (T : FileTree κ β) : (T.deposited ds).deposited ds = T.deposited ds := by
  refine deposited_congr hds hp hp (fun _ => Iff.rfl) fun p hno hnot => ?_
  exact (deposited_apply hds hp T p).2.2 hno hnot

end Levelled

end FileTree

end Xrash
