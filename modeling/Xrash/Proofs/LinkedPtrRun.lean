import Xrash.Proofs.LinkedPtr

/-!
# What linked pointers delete

Each object that is captured is deleted once, when no pointer has it any more, unless it was
released. A pointer that releases an object it shares can not be destroyed: its loop never ends.
-/

namespace Xrash

/-! ## What the owners keep -/

namespace Owners

open Pointers

variable {α V : Type} [DecidableEq α] {s : Owners α V} {p q : α} {v : V} {ptr : Option V}

/-- Nothing is deleted twice, and nothing that is owned is deleted. -/
structure Safe (s : Owners α V) : Prop where
  nodup : s.deleted.Nodup
  owned : ∀ p v, s.refs p = some (some v) → v ∉ s.deleted

theorem Safe.enter (h : s.Safe) (p : α) (hptr : ∀ v ∈ ptr, v ∉ s.deleted) :
    (s.enter p ptr).Safe := by
  refine ⟨h.nodup, fun q v hq => ?_⟩
  by_cases hqp : q = p
  · rw [hqp, refs_enter_self] at hq
    exact hptr v (Option.some.inj hq)
  · rw [refs_enter_ne s hqp] at hq
    exact h.owned q v hq

theorem mem_deleted_leave (h : v ∈ (s.leave p).deleted) :
    v ∈ s.deleted ∨ ¬ s.Shared p ∧ s.refs p = some (some v) := by
  rw [leave] at h
  dsimp only at h
  split_ifs at h with hshared
  · exact Or.inl h
  · rcases hp : s.refs p with _ | _ | w <;> simp [hp] at h
    · exact Or.inl h
    · exact Or.inl h
    · exact h.symm.imp id fun hvw => ⟨hshared, by rw [hvw]⟩

theorem Safe.leave (h : s.Safe) (p : α) : (s.leave p).Safe := by
  constructor
  · rw [Owners.leave]
    dsimp only
    split_ifs with hshared
    · exact h.nodup
    · rcases hp : s.refs p with _ | _ | v
      · exact h.nodup
      · exact h.nodup
      · exact List.nodup_cons.2 ⟨h.owned p v hp, h.nodup⟩
  · intro q v hq hdel
    by_cases hqp : q = p
    · rw [hqp, refs_leave_self] at hq
      cases hq
    · rw [refs_leave_ne s hqp] at hq
      rcases mem_deleted_leave hdel with hdel | ⟨hshared, hp⟩
      · exact h.owned q v hq hdel
      · exact hshared ⟨q, v, hqp, hp, hq⟩

theorem Safe.step (h : s.Safe) {op : Op α V} (hop : s.Allows op) : (s.step op).Safe := by
  cases op with
  | construct p ptr => exact h.enter p fun v hv => (hop.2 v hv).2
  | copy p q =>
    refine h.enter p fun v hv => ?_
    obtain ⟨r, hr⟩ := Option.ne_none_iff_exists'.1 hop.2
    rw [hr] at hv
    exact h.owned q v (hr.trans (congrArg some hv))
  | destroy p => exact h.leave p
  | assign p q =>
    rw [Owners.step]
    split_ifs with hqp
    · exact h
    refine (h.leave p).enter p fun v hv => ?_
    obtain ⟨r, hr⟩ := Option.ne_none_iff_exists'.1 hop.2
    rw [hr] at hv
    exact (h.leave p).owned q v ((refs_leave_ne s hqp).trans (hr.trans (congrArg some hv)))
  | reset p ptr =>
    refine (h.leave p).enter p fun v hv hdel => ?_
    rcases mem_deleted_leave hdel with hdel | ⟨-, hp⟩
    · exact (hop.2 v hv).2 hdel
    · exact (hop.2 v hv).1 p hp
  | release p =>
    have hsafe : (s.enter p none).Safe := h.enter p fun v hv => absurd hv (by simp)
    exact ⟨hsafe.nodup, hsafe.owned⟩

/-- An object is somewhere: deleted, released or owned. -/
def Knows (s : Owners α V) (v : V) : Prop :=
  v ∈ s.deleted ∨ v ∈ s.released ∨ ∃ p, s.refs p = some (some v)

theorem Knows.enter (h : s.Knows v) (hp : s.refs p = none) : (s.enter p ptr).Knows v := by
  refine h.imp id (Or.imp id fun ⟨q, hq⟩ => ⟨q, ?_⟩)
  rw [refs_enter_ne s (by rintro rfl; rw [hp] at hq; cases hq), hq]

theorem Knows.leave (h : s.Knows v) (p : α) : (s.leave p).Knows v := by
  rcases h with hdel | hrel | ⟨q, hq⟩
  · refine Or.inl ?_
    rw [Owners.leave]
    dsimp only
    split_ifs
    · exact hdel
    · exact List.mem_append_right _ hdel
  · exact Or.inr (Or.inl hrel)
  by_cases hqp : q = p
  · subst hqp
    by_cases hshared : s.Shared q
    · obtain ⟨x, w, hx, hqw, hxw⟩ := hshared
      obtain rfl : v = w := Option.some.inj (Option.some.inj (hq.symm.trans hqw))
      exact Or.inr (Or.inr ⟨x, (refs_leave_ne s hx).trans hxw⟩)
    · refine Or.inl ?_
      simp [Owners.leave, hshared, hq]
  · exact Or.inr (Or.inr ⟨q, (refs_leave_ne s hqp).trans hq⟩)

theorem Knows.step (h : s.Knows v) {op : Op α V} (hop : s.Allows op) : (s.step op).Knows v := by
  cases op with
  | construct p ptr => exact h.enter hop.1
  | copy p q => exact h.enter hop.1
  | destroy p => exact h.leave p
  | assign p q =>
    rw [Owners.step]
    split_ifs
    · exact h
    · exact (h.leave p).enter (refs_leave_self s p)
  | reset p ptr => exact (h.leave p).enter (refs_leave_self s p)
  | release p =>
    rcases h with hdel | hrel | ⟨q, hq⟩
    · exact Or.inl hdel
    · exact Or.inr (Or.inl (List.mem_append_right _ hrel))
    by_cases hqp : q = p
    · refine Or.inr (Or.inl ?_)
      simp [Owners.step, ← hqp, hq]
    · exact Or.inr (Or.inr ⟨q, (refs_enter_ne s hqp none).trans hq⟩)

end Owners

namespace Pointers

open Links Owners

variable {α V : Type} [DecidableEq α] {m m' : Pointers α V} {s : Owners α V} {p q : α} {v : V}
  {bound : ℕ}

/-- What an operation captures. -/
def Op.captured : Op α V → Option V
  | .construct _ ptr => ptr
  | .reset _ ptr => ptr
  | _ => none

theorem knows_captured {op : Op α V} (hv : v ∈ op.captured) : (s.step op).Knows v := by
  cases op with
  | construct p ptr => exact Or.inr (Or.inr ⟨p, (refs_enter_self s p ptr).trans (congrArg some hv)⟩)
  | reset p ptr =>
    exact Or.inr (Or.inr ⟨p, (refs_enter_self (s.leave p) p ptr).trans (congrArg some hv)⟩)
  | copy p q => cases hv
  | destroy p => cases hv
  | assign p q => cases hv
  | release p => cases hv

theorem run_safe {ops : List (Op α V)} (h : s.Safe) (hops : s.AllowsAll ops) :
    (s.run ops).Safe := by
  induction ops generalizing s with
  | nil => exact h
  | cons op ops ih => exact ih (h.step hops.1) hops.2

theorem run_knows {ops : List (Op α V)} (hops : s.AllowsAll ops)
    (h : s.Knows v ∨ ∃ op ∈ ops, v ∈ op.captured) : (s.run ops).Knows v := by
  induction ops generalizing s with
  | nil => exact h.resolve_right fun ⟨op, hop, _⟩ => List.not_mem_nil hop
  | cons op ops ih =>
    refine ih hops.2 ?_
    rcases h with h | ⟨op', hop', hv⟩
    · exact Or.inl (h.step hops.1)
    rcases List.mem_cons.1 hop' with rfl | hop'
    · exact Or.inl (knows_captured hv)
    · exact Or.inr ⟨op', hop', hv⟩

/-- No object is deleted twice or while a pointer has it, and none is lost: what was captured is
deleted, released or still pointed to. -/
theorem run_deletes {ops : List (Op α V)} (hbound : ops.length ≤ bound)
    (hops : (Owners.empty : Owners α V).AllowsAll ops) (hrun : empty.run bound ops = some m) :
    m.deleted.Nodup ∧
      (∀ p v, (Owners.empty.run ops).refs p = some (some v) → m.value p = some v ∧ v ∉ m.deleted) ∧
      ∀ op ∈ ops, ∀ v ∈ op.captured, v ∈ m.deleted ∨ v ∈ m.released ∨
        ∃ p, (Owners.empty.run ops).refs p = some (some v) ∧ m.value p = some v := by
  obtain ⟨m', hm', hsim, -⟩ := sim_run hbound hops
  obtain rfl : m = m' := Option.some.inj (hrun.symm.trans hm')
  have hempty : (Owners.empty : Owners α V).Safe :=
    ⟨List.nodup_nil, fun _ _ h => absurd h (by simp [Owners.empty])⟩
  have hsafe := run_safe hempty hops
  rw [hsim.deleted, hsim.released]
  refine ⟨hsafe.nodup, fun p v hp => ⟨hsim.value p _ hp, hsafe.owned p v hp⟩, fun op hop v hv => ?_⟩
  rcases run_knows hops (Or.inr ⟨op, hop, hv⟩) with hdel | hrel | ⟨p, hp⟩
  · exact Or.inl hdel
  · exact Or.inr (Or.inl hrel)
  · exact Or.inr (Or.inr ⟨p, hp, hsim.value p _ hp⟩)

theorem run_deletes_three : ∃ m, (empty : Pointers ℕ ℕ).run 8 three = some m ∧ m.deleted.Nodup ∧
    (∀ p v, (Owners.empty.run three).refs p = some (some v) →
      m.value p = some v ∧ v ∉ m.deleted) ∧
    ∀ op ∈ three, ∀ v ∈ op.captured, v ∈ m.deleted ∨ v ∈ m.released ∨
      ∃ p, (Owners.empty.run three).refs p = some (some v) ∧ m.value p = some v := by
  obtain ⟨m, hm, -⟩ := sim_run (Nat.le_refl 8) three_allows
  exact ⟨m, hm, run_deletes (Nat.le_refl 8) three_allows hm⟩

/-! ## Releasing -/

/-- The loop along a circle that `target` is not on. -/
theorem walk_none {next : α → α} {target : α} {l : List α} (hl : ∀ x ∈ l, next x ∈ l) (hp : p ∈ l)
    (htarget : target ∉ l) : walk next target bound p = none := by
  induction bound generalizing p with
  | zero => rfl
  | succ bound ih =>
    rw [walk, if_neg (ne_of_mem_of_not_mem (hl p hp) htarget)]
    exact ih (hl p hp)

/-- A pointer that has released its object can be destroyed just if the object was its own. -/
theorem release_destroy_iff {ops : List (Op α V)} (hbound : ops.length ≤ bound)
    (hops : (Owners.empty : Owners α V).AllowsAll ops) (hrun : empty.run bound ops = some m)
    (hp : (Owners.empty.run ops).refs p ≠ none) : ∃ m', m.step bound (.release p) = some m' ∧
      ((∃ b m'', m'.step b (.destroy p) = some m'') ↔ ¬ (Owners.empty.run ops).Shared p) := by
  obtain ⟨m₁, hm₁, hsim, hn⟩ := sim_run hbound hops
  obtain rfl : m = m₁ := Option.some.inj (hrun.symm.trans hm₁)
  rcases hsim.linkDepart hn hp with ⟨hshared, hlink, -⟩ | ⟨hshared, hnext, z, -, hlink, hcircles⟩
  · refine ⟨_, by rw [Pointers.step, hlink]; rfl, iff_of_true ⟨0, ?_⟩ hshared⟩
    have hself := hsim.circles.next_self hp (not_same_of_not_shared hshared)
    simp [Pointers.step, Pointers.depart, linkDepart, hself]
  · refine ⟨_, by rw [Pointers.step, hlink]; rfl, iff_of_false ?_ (not_not.2 hshared)⟩
    rintro ⟨b, m'', hm''⟩
    obtain ⟨l, hl, hmem⟩ := hsim.circles p hp
    have hsame := (hmem _).1 (hl.next_mem hl.mem)
    have hlive : Function.update (Owners.empty.run ops).refs p none (m.next p) ≠ none := by
      rw [Function.update_of_ne hnext]
      exact hsame.ne_none hp
    obtain ⟨l', hl', hmem'⟩ := hcircles _ hlive
    have hpl' : p ∉ l' := by
      rw [hmem', same_update_none hnext]
      exact fun h => h.1 rfl
    -- The pointer still leads to the circle it has left.
    have hstale : Function.update m.next z (m.next p) p = m.next p := by
      by_cases hpz : p = z
      · rw [hpz, Function.update_self]
      · rw [Function.update_of_ne hpz]
    have hwalk : walk (Function.update m.next z (m.next p)) p b (m.next p) = none :=
      walk_none (fun x hx => hl'.next_mem hx) hl'.mem hpl'
    simp [Pointers.step, Pointers.depart, linkDepart, hstale, hnext, hwalk] at hm''

/-- Two pointers to one object. -/
def two : List (Op ℕ ℕ) := [.construct 0 (some 7), .copy 1 0]

theorem two_allows : (Owners.empty : Owners ℕ ℕ).AllowsAll two := by
  simp [two, AllowsAll, Allows, Owners.step, Owners.empty, enter, Fresh]

theorem release_destroy_iff_two : ∃ m m', (empty : Pointers ℕ ℕ).run 2 two = some m ∧
    m.step 2 (.release 0) = some m' ∧ ¬ ∃ b m'', m'.step b (.destroy 0) = some m'' := by
  obtain ⟨m, hm, -⟩ := sim_run (Nat.le_refl 2) two_allows
  obtain ⟨m', hm', hiff⟩ := release_destroy_iff (p := 0) (Nat.le_refl 2) two_allows hm
    (by simp [two, Owners.run, Owners.step, enter])
  refine ⟨m, m', hm, hm', hiff.not.2 (not_not.2 ⟨1, 7, by decide, ?_⟩)⟩
  simp [two, Owners.run, Owners.step, enter]

end Pointers

end Xrash
