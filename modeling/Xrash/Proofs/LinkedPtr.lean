import Xrash.LinkedPtr
import Xrash.Lib.Links
import Mathlib.Data.Finset.Card

/-!
# Linked pointers count references

While nothing is captured that is owned or deleted already, and `release` is called by the only
owner, the pointers delete what their references being counted would: an object when its last
pointer leaves it. The circle of a pointer then has just the owners of its object.
-/

namespace Xrash

/-! ## Owners -/

/-- What each pointer there is refers to, if to anything; what was deleted and what released. -/
structure Owners (α V : Type) where
  refs : α → Option (Option V)
  deleted : List V
  released : List V

namespace Owners

variable {α V : Type} [DecidableEq α]

def empty : Owners α V := ⟨fun _ => none, [], []⟩

def enter (s : Owners α V) (p : α) (ptr : Option V) : Owners α V :=
  { s with refs := Function.update s.refs p (some ptr) }

/-- Some other pointer refers to the object of this one. -/
def Shared (s : Owners α V) (p : α) : Prop :=
  ∃ q v, q ≠ p ∧ s.refs p = some (some v) ∧ s.refs q = some (some v)

open scoped Classical in
/-- A pointer goes, and its object with the last. -/
noncomputable def leave (s : Owners α V) (p : α) : Owners α V :=
  { s with
    refs := Function.update s.refs p none
    deleted := if s.Shared p then s.deleted else ((s.refs p).getD none).toList ++ s.deleted }

theorem refs_enter_self (s : Owners α V) (p : α) (ptr : Option V) :
    (s.enter p ptr).refs p = some ptr := Function.update_self ..

theorem refs_enter_ne (s : Owners α V) {p q : α} (h : q ≠ p) (ptr : Option V) :
    (s.enter p ptr).refs q = s.refs q := Function.update_of_ne h ..

theorem refs_leave_self (s : Owners α V) (p : α) : (s.leave p).refs p = none :=
  Function.update_self ..

theorem refs_leave_ne (s : Owners α V) {p q : α} (h : q ≠ p) :
    (s.leave p).refs q = s.refs q := Function.update_of_ne h ..

open Pointers in
noncomputable def step (s : Owners α V) : Op α V → Owners α V
  | .construct p ptr => s.enter p ptr
  | .copy p ptr => s.enter p ((s.refs ptr).getD none)
  | .destroy p => s.leave p
  | .assign p ptr => if ptr = p then s else (s.leave p).enter p ((s.refs ptr).getD none)
  | .reset p ptr => (s.leave p).enter p ptr
  | .release p => { s.enter p none with
      released := ((s.refs p).getD none).toList ++ s.released }

noncomputable def run (ops : List (Pointers.Op α V)) (s : Owners α V) : Owners α V :=
  ops.foldl step s

/-- An object that no pointer refers to and that is not deleted. -/
def Fresh (s : Owners α V) (v : V) : Prop := (∀ p, s.refs p ≠ some (some v)) ∧ v ∉ s.deleted

open Pointers in
/-- The pointers of the operation are there, or not yet; what is captured is fresh; what is
released has no other owner. -/
def Allows (s : Owners α V) : Op α V → Prop
  | .construct p ptr => s.refs p = none ∧ ∀ v ∈ ptr, s.Fresh v
  | .copy p ptr => s.refs p = none ∧ s.refs ptr ≠ none
  | .destroy p => s.refs p ≠ none
  | .assign p ptr => s.refs p ≠ none ∧ s.refs ptr ≠ none
  | .reset p ptr => s.refs p ≠ none ∧ ∀ v ∈ ptr, s.Fresh v
  | .release p => s.refs p ≠ none ∧ ¬ s.Shared p

def AllowsAll (s : Owners α V) : List (Pointers.Op α V) → Prop
  | [] => True
  | op :: ops => s.Allows op ∧ (s.step op).AllowsAll ops

end Owners

namespace Pointers

open Links Owners

variable {α V : Type} [DecidableEq α] {m m' : Pointers α V} {s : Owners α V} {p q : α} {v : V}
  {bound : ℕ}

/-! ## Walking a circle -/

theorem walk_seg {next : α → α} {target z : α} {l : List α} (h : Seg next p l z)
    (hz : next z = target) (hl : ∀ x ∈ l, next x ≠ target) (hbound : l.length < bound) :
    walk next target bound p = some z := by
  induction l generalizing p bound with
  | nil =>
    obtain ⟨bound, rfl⟩ := Nat.exists_eq_succ_of_ne_zero (Nat.ne_of_gt hbound)
    obtain rfl : p = z := h
    rw [walk, if_pos hz]
  | cons x l ih =>
    obtain ⟨bound, rfl⟩ := Nat.exists_eq_succ_of_ne_zero (Nat.ne_of_gt (Nat.zero_lt_of_lt hbound))
    obtain ⟨rfl, h⟩ := h
    rw [List.forall_mem_cons] at hl
    rw [walk, if_neg hl.1]
    exact ih h hl.2 (Nat.lt_of_succ_lt_succ hbound)

theorem walk_join {next : α → α} {t : List α} {z : α} (h : Circle next q (t ++ [z]))
    (hbound : (t ++ [z]).length ≤ bound) : walk next q bound q = some z := by
  obtain ⟨c, hc, rfl, hz⟩ := seg_append.1 h.seg
  refine walk_seg hc hz (fun x hx hq => ?_) (by simpa [Nat.succ_le_iff] using hbound)
  have hmem := hc.next_mem x hx
  rcases t with _ | ⟨y, t⟩
  · exact List.not_mem_nil hx
  · obtain rfl := hc.1
    rw [hq] at hmem
    exact (List.nodup_cons.1 h.nodup).1 hmem

theorem walk_depart {next : α → α} {t : List α} {z : α} (h : Circle next p (p :: (t ++ [z])))
    (hbound : (t ++ [z]).length ≤ bound) : walk next p bound (next p) = some z := by
  obtain ⟨-, hseg⟩ := h.seg
  obtain ⟨c, hc, rfl, hz⟩ := seg_append.1 hseg
  refine walk_seg hc hz (fun x hx hp => ?_) (by simpa [Nat.succ_le_iff] using hbound)
  have hmem := List.mem_of_mem_tail (hc.next_mem x hx)
  rw [hp] at hmem
  exact (List.nodup_cons.1 h.nodup).1 hmem

/-! ## The circles of the owners -/

/-- The same pointer, or one that refers to the same object. -/
def Same (refs : α → Option (Option V)) (p q : α) : Prop :=
  q = p ∨ ∃ v, refs p = some (some v) ∧ refs q = some (some v)

def Circles (next : α → α) (refs : α → Option (Option V)) : Prop :=
  ∀ p, refs p ≠ none → ∃ l, Circle next p l ∧ ∀ q, q ∈ l ↔ Same refs p q

/-- There are at most `n` pointers. -/
def AtMost (refs : α → Option (Option V)) (n : ℕ) : Prop :=
  ∃ L : Finset α, L.card ≤ n ∧ ∀ p, refs p ≠ none → p ∈ L

variable {next : α → α} {refs : α → Option (Option V)} {ptr : Option V} {n : ℕ}

omit [DecidableEq α] in
theorem Same.ne_none (h : Same refs p q) (hp : refs p ≠ none) : refs q ≠ none := by
  rcases h with rfl | ⟨v, -, hq⟩
  · exact hp
  · simp [hq]

omit [DecidableEq α] in
theorem same_iff (hp : refs p = some (some v)) : Same refs p q ↔ refs q = some (some v) := by
  constructor
  · rintro (rfl | ⟨w, hw, hq⟩)
    · exact hp
    · rw [hq, ← hw, hp]
  · exact fun hq => Or.inr ⟨v, hp, hq⟩

theorem AtMost.length_le (h : AtMost refs n) {l : List α} (hnodup : l.Nodup)
    (hl : ∀ q ∈ l, refs q ≠ none) : l.length ≤ n := by
  obtain ⟨L, hcard, hL⟩ := h
  rw [← List.toFinset_card_of_nodup hnodup]
  exact (Finset.card_le_card fun q hq => hL q (hl q (List.mem_toFinset.1 hq))).trans hcard

/-- A pointer on its own. -/
theorem Circles.alone (h : Circles next refs) (hp : ∀ q, q ≠ p → ¬ Same refs q p)
    (hptr : ∀ v ∈ ptr, ∀ q, q ≠ p → refs q ≠ some (some v)) :
    Circles (Function.update next p p) (Function.update refs p (some ptr)) := by
  intro q hq
  by_cases hqp : q = p
  · subst hqp
    refine ⟨[q], .self (Function.update_self ..), fun x => ?_⟩
    rw [List.mem_singleton]
    refine ⟨Or.inl, ?_⟩
    rintro (rfl | ⟨v, hv, hx⟩)
    · rfl
    · by_contra hxq
      rw [Function.update_self] at hv
      rw [Function.update_of_ne hxq] at hx
      exact hptr v (Option.some.inj hv) x hxq hx
  · rw [Function.update_of_ne hqp] at hq
    obtain ⟨l, hl, hmem⟩ := h q hq
    have hpl : p ∉ l := fun hpl => hp q hqp ((hmem p).1 hpl)
    refine ⟨l, hl.congr fun x hx => ?_, fun x => ?_⟩
    · rw [Function.update_of_ne (ne_of_mem_of_not_mem hx hpl)]
    · by_cases hxp : x = p
      · subst hxp
        simp only [hpl, false_iff, Same, Function.update_self, Function.update_of_ne hqp, not_or,
          not_exists, not_and]
        exact ⟨fun hxq => hqp hxq.symm, fun v hv hv' => hptr v (Option.some.inj hv') q hqp hv⟩
      · rw [hmem, Same, Same, Function.update_of_ne hqp, Function.update_of_ne hxp]

/-- A pointer that joins the owners of an object. -/
theorem Circles.join (h : Circles next refs) (hn : AtMost refs bound) (hp : refs p = none)
    (hq : refs q = some (some v)) : ∃ z, walk next q bound q = some z ∧
      Circles (Function.update (Function.update next z p) p q)
        (Function.update refs p (some (some v))) := by
  obtain ⟨l, hl, hmem⟩ := h q (by simp [hq])
  have hlen := hn.length_le hl.nodup fun x hx => ((hmem x).1 hx).ne_none (by simp [hq])
  obtain ⟨t, z, rfl, -, hz⟩ := hl.exists_concat
  have hpl : p ∉ t ++ [z] := by
    rw [hmem, same_iff hq, hp]
    simp
  have hjoin := hl.join hz hpl
  refine ⟨z, walk_join hl hlen, fun y hy => ?_⟩
  by_cases hyq : Function.update refs p (some (some v)) y = some (some v)
  · have hall : ∀ x, x ∈ t ++ [z] ++ [p] ↔
        Function.update refs p (some (some v)) x = some (some v) := by
      intro x
      by_cases hxp : x = p
      · simp [hxp]
      · rw [List.mem_append, List.mem_singleton, or_iff_left hxp, hmem, same_iff hq,
          Function.update_of_ne hxp]
    obtain ⟨l', hl', hperm⟩ := hjoin.rotate ((hall y).2 hyq)
    exact ⟨l', hl', fun x => by rw [hperm.mem_iff, hall, same_iff hyq]⟩
  · have hyp : y ≠ p := fun hyp => hyq (by rw [hyp, Function.update_self])
    rw [Function.update_of_ne hyp] at hyq hy
    obtain ⟨l', hl', hmem'⟩ := h y hy
    have hzl' : z ∉ l' := by
      have hzq : refs z = some (some v) := (same_iff hq).1 ((hmem z).1 (by simp))
      rw [hmem']
      rintro (rfl | ⟨w, hw, hw'⟩)
      · exact hyq hzq
      · exact hyq (hw.trans (hw'.symm.trans hzq))
    have hpl' : p ∉ l' := by
      rw [hmem']
      exact fun hsame => hsame.ne_none hy hp
    refine ⟨l', hl'.congr fun x hx => ?_, fun x => ?_⟩
    · rw [Function.update_of_ne (ne_of_mem_of_not_mem hx hpl'),
        Function.update_of_ne (ne_of_mem_of_not_mem hx hzl')]
    · by_cases hxp : x = p
      · subst hxp
        simp only [hpl', false_iff, Same, Function.update_self, Function.update_of_ne hyp, not_or,
          not_exists, not_and]
        exact ⟨fun hxy => hyp hxy.symm, fun w hw hw' => hyq (hw.trans hw'.symm)⟩
      · rw [hmem', Same, Same, Function.update_of_ne hyp, Function.update_of_ne hxp]

omit [DecidableEq α] in
theorem Same.symm (h : Same refs p q) : Same refs q p := by
  rcases h with rfl | ⟨v, hp, hq⟩
  · exact Or.inl rfl
  · exact Or.inr ⟨v, hq, hp⟩

omit [DecidableEq α] in
theorem Same.trans {r : α} (h : Same refs p q) (h' : Same refs q r) : Same refs p r := by
  rcases h with rfl | ⟨v, hp, hq⟩
  · exact h'
  · exact (same_iff hp).2 ((same_iff hq).1 h')

theorem same_update_none (hq : q ≠ p) {x : α} :
    Same (Function.update refs p none) q x ↔ x ≠ p ∧ Same refs q x := by
  by_cases hx : x = p
  · subst hx
    simp [Same, Function.update_self, Ne.symm hq]
  · simp [Same, Function.update_of_ne hq, hx]

omit [DecidableEq α] in
theorem Circles.next_self (h : Circles next refs) (hp : refs p ≠ none)
    (halone : ∀ q, q ≠ p → ¬ Same refs p q) : next p = p := by
  obtain ⟨l, hl, hmem⟩ := h p hp
  obtain ⟨t, rfl, -⟩ := hl.exists_cons
  rcases t with _ | ⟨x, t⟩
  · exact hl.next_eq_iff.2 rfl
  · refine absurd ((hmem x).1 (by simp)) (halone x fun hxp => ?_)
    exact (List.nodup_cons.1 hl.nodup).1 (hxp ▸ List.mem_cons_self)

/-- A pointer that goes from a circle of its own. -/
theorem Circles.depart_alone (h : Circles next refs) (hp : ∀ q, q ≠ p → ¬ Same refs p q) :
    Circles next (Function.update refs p none) := by
  intro q hq
  have hqp : q ≠ p := by
    rintro rfl
    exact hq (Function.update_self ..)
  rw [Function.update_of_ne hqp] at hq
  obtain ⟨l, hl, hmem⟩ := h q hq
  refine ⟨l, hl, fun x => ?_⟩
  rw [same_update_none hqp, hmem]
  refine ⟨fun hx => ⟨?_, hx⟩, And.right⟩
  rintro rfl
  exact hp q hqp hx.symm

/-- A pointer that goes from the circle of others. -/
theorem Circles.depart (h : Circles next refs) (hn : AtMost refs bound) (hp : refs p ≠ none)
    (hq : Same refs p q) (hqp : q ≠ p) : next p ≠ p ∧ ∃ z, walk next p bound (next p) = some z ∧
      Circles (Function.update next z (next p)) (Function.update refs p none) := by
  obtain ⟨l, hl, hmem⟩ := h p hp
  have hlen := hn.length_le hl.nodup fun x hx => ((hmem x).1 hx).ne_none hp
  obtain ⟨t, rfl, -⟩ := hl.exists_cons
  have hqt : q ∈ t := (List.mem_cons.1 ((hmem q).2 hq)).resolve_left hqp
  obtain ⟨t, z, rfl⟩ := (List.eq_nil_or_concat' t).resolve_left (List.ne_nil_of_mem hqt)
  obtain ⟨hz, hrest⟩ := hl.depart
  have hnext : next p ≠ p := by
    rw [Ne, hl.next_eq_iff]
    simp
  refine ⟨hnext, z, walk_depart hl (Nat.le_of_succ_le hlen), fun y hy => ?_⟩
  have hyp : y ≠ p := by
    rintro rfl
    exact hy (Function.update_self ..)
  rw [Function.update_of_ne hyp] at hy
  by_cases hpy : Same refs p y
  · have hyt : y ∈ t ++ [z] := (List.mem_cons.1 ((hmem y).2 hpy)).resolve_left hyp
    obtain ⟨l', hl', hperm⟩ := hrest.rotate hyt
    refine ⟨l', hl', fun x => ?_⟩
    rw [same_update_none hyp, hperm.mem_iff]
    constructor
    · intro hx
      exact ⟨ne_of_mem_of_not_mem hx (List.nodup_cons.1 hl.nodup).1,
        hpy.symm.trans ((hmem x).1 (List.mem_cons_of_mem p hx))⟩
    · rintro ⟨hxp, hx⟩
      exact (List.mem_cons.1 ((hmem x).2 (hpy.trans hx))).resolve_left hxp
  · obtain ⟨l', hl', hmem'⟩ := h y hy
    have hzl' : z ∉ l' := fun hzl' =>
      hpy (((hmem z).1 (by simp)).trans ((hmem' z).1 hzl').symm)
    refine ⟨l', hl'.congr fun x hx => ?_, fun x => ?_⟩
    · rw [Function.update_of_ne (ne_of_mem_of_not_mem hx hzl')]
    · rw [same_update_none hyp, hmem']
      refine ⟨fun hx => ⟨?_, hx⟩, And.right⟩
      rintro rfl
      exact hpy hx.symm

/-! ## Steps -/

structure Sim (m : Pointers α V) (s : Owners α V) : Prop where
  value : ∀ p r, s.refs p = some r → m.value p = r
  circles : Circles m.next s.refs
  deleted : m.deleted = s.deleted
  released : m.released = s.released

omit [DecidableEq α] in
theorem sim_empty : Sim (empty : Pointers α V) Owners.empty :=
  ⟨fun _ _ h => absurd h (by simp [Owners.empty]), fun _ h => absurd rfl h, rfl, rfl⟩

theorem value_update {value : α → Option V} (h : ∀ q r, refs q = some r → value q = r)
    (p : α) (ptr : Option V) : ∀ q r, Function.update refs p (some ptr) q = some r →
      Function.update value p ptr q = r := by
  intro q r hq
  by_cases hqp : q = p
  · subst hqp
    rw [Function.update_self] at hq ⊢
    exact Option.some.inj hq
  · rw [Function.update_of_ne hqp] at hq ⊢
    exact h q r hq

omit [DecidableEq α] in
theorem not_same_of_none (hp : refs p = none) (hqp : q ≠ p) : ¬ Same refs q p := by
  rintro (rfl | ⟨v, -, hv⟩)
  · exact hqp rfl
  · rw [hp] at hv
    cases hv

theorem Sim.capture (h : Sim m s) (hp : s.refs p = none)
    (hptr : ∀ v ∈ ptr, ∀ q, s.refs q ≠ some (some v)) : Sim (m.capture p ptr) (s.enter p ptr) :=
  ⟨value_update h.value p ptr,
    h.circles.alone (fun _ hqp => not_same_of_none hp hqp) fun v hv q _ => hptr v hv q,
    h.deleted, h.released⟩

theorem Sim.copy (h : Sim m s) (hn : AtMost s.refs bound) (hp : s.refs p = none)
    (hq : s.refs q = some ptr) :
    ∃ m', m.copy bound p q = some m' ∧ Sim m' (s.enter p ptr) := by
  have hvalue := h.value q ptr hq
  rcases ptr with _ | v
  · refine ⟨m.capture p none, ?_, h.capture hp fun v hv => absurd hv (by simp)⟩
    simp only [Pointers.copy, hvalue, Function.update_self, Option.isSome_none, Bool.false_eq_true,
      if_false]
    rfl
  · obtain ⟨z, hz, hcircles⟩ := h.circles.join hn hp hq
    refine ⟨{ m with
      value := Function.update m.value p (some v)
      next := Function.update (Function.update m.next z p) p q }, ?_,
      value_update h.value p (some v), hcircles, h.deleted, h.released⟩
    simp only [Pointers.copy, hvalue, Function.update_self, Option.isSome_some, if_true, join, hz]
    rfl

omit [DecidableEq α] in
theorem not_same_of_not_shared (h : ¬ s.Shared p) : ∀ q, q ≠ p → ¬ Same s.refs p q := by
  rintro q hqp (hqp' | ⟨v, hp, hq⟩)
  · exact hqp hqp'
  · exact h ⟨q, v, hqp, hp, hq⟩

/-- What leaving a circle does: nothing where the pointer is alone on it. -/
theorem Sim.linkDepart (h : Sim m s) (hn : AtMost s.refs bound) (hp : s.refs p ≠ none) :
    (¬ s.Shared p ∧ m.linkDepart bound p = some (true, m) ∧
      Circles m.next (Function.update s.refs p none)) ∨
    s.Shared p ∧ m.next p ≠ p ∧ ∃ z, walk m.next p bound (m.next p) = some z ∧
      m.linkDepart bound p =
        some (false, { m with next := Function.update m.next z (m.next p) }) ∧
      Circles (Function.update m.next z (m.next p)) (Function.update s.refs p none) := by
  by_cases hshared : s.Shared p
  · obtain ⟨q, v, hqp, hpv, hqv⟩ := hshared
    obtain ⟨hnext, z, hz, hcircles⟩ := h.circles.depart hn hp (Or.inr ⟨v, hpv, hqv⟩) hqp
    refine Or.inr ⟨⟨q, v, hqp, hpv, hqv⟩, hnext, z, hz, ?_, hcircles⟩
    rw [Pointers.linkDepart, if_neg hnext, hz, Option.map_some]
  · have halone := not_same_of_not_shared hshared
    refine Or.inl ⟨hshared, ?_, h.circles.depart_alone halone⟩
    rw [Pointers.linkDepart, if_pos (h.circles.next_self hp halone)]

theorem value_leave {value : α → Option V} (h : ∀ q r, refs q = some r → value q = r) (p : α) :
    ∀ q r, Function.update refs p none q = some r → value q = r := by
  intro q r hq
  by_cases hqp : q = p
  · rw [hqp, Function.update_self] at hq
    cases hq
  · rw [Function.update_of_ne hqp] at hq
    exact h q r hq

theorem Sim.depart (h : Sim m s) (hn : AtMost s.refs bound) (hp : s.refs p ≠ none) :
    ∃ m', m.depart bound p = some m' ∧ Sim m' (s.leave p) := by
  obtain ⟨r, hr⟩ := Option.ne_none_iff_exists'.1 hp
  rcases h.linkDepart hn hp with ⟨hshared, hlink, hcircles⟩ | ⟨hshared, -, z, -, hlink, hcircles⟩
  · refine ⟨{ m with deleted := (m.value p).toList ++ m.deleted }, ?_, value_leave h.value p,
      hcircles, ?_, h.released⟩
    · rw [Pointers.depart, hlink]
      rfl
    · simp [leave, hshared, h.value p r hr, hr, h.deleted]
  · refine ⟨{ m with next := Function.update m.next z (m.next p) }, ?_, value_leave h.value p,
      hcircles, ?_, h.released⟩
    · rw [Pointers.depart, hlink]
      rfl
    · simp [leave, hshared, h.deleted]

theorem Sim.release (h : Sim m s) (hn : AtMost s.refs bound) (hp : s.refs p ≠ none)
    (hshared : ¬ s.Shared p) :
    ∃ m', m.step bound (.release p) = some m' ∧ Sim m' (s.step (.release p)) := by
  obtain ⟨r, hr⟩ := Option.ne_none_iff_exists'.1 hp
  rcases h.linkDepart hn hp with ⟨-, hlink, -⟩ | ⟨hshared', -⟩
  · refine ⟨{ m with
      value := Function.update m.value p none
      released := (m.value p).toList ++ m.released }, ?_, value_update h.value p none, ?_,
      h.deleted, ?_⟩
    · rw [Pointers.step, hlink]
      rfl
    · have halone := not_same_of_not_shared hshared
      have hcircles : Circles (Function.update m.next p p) (Function.update s.refs p (some none)) :=
        h.circles.alone (fun q hqp hsame => halone q hqp hsame.symm)
          fun v hv => absurd hv (by simp)
      rwa [Function.update_eq_self_iff.2 (h.circles.next_self hp halone).symm] at hcircles
    · simp [Owners.step, hr, h.value p r hr, h.released]
  · exact absurd hshared' hshared

theorem AtMost.enter (h : AtMost refs n) (p : α) (r : Option V) :
    AtMost (Function.update refs p (some r)) (n + 1) := by
  obtain ⟨L, hcard, hL⟩ := h
  refine ⟨insert p L, (Finset.card_insert_le p L).trans (Nat.succ_le_succ hcard), fun q hq => ?_⟩
  by_cases hqp : q = p
  · exact hqp ▸ Finset.mem_insert_self q L
  · rw [Function.update_of_ne hqp] at hq
    exact Finset.mem_insert_of_mem (hL q hq)

theorem AtMost.leave (h : AtMost refs n) (p : α) : AtMost (Function.update refs p none) n := by
  obtain ⟨L, hcard, hL⟩ := h
  refine ⟨L, hcard, fun q hq => ?_⟩
  by_cases hqp : q = p
  · rw [hqp, Function.update_self] at hq
    exact absurd rfl hq
  · rw [Function.update_of_ne hqp] at hq
    exact hL q hq

omit [DecidableEq α] in
theorem AtMost.mono {k : ℕ} (h : AtMost refs n) (hle : n ≤ k) : AtMost refs k := by
  obtain ⟨L, hcard, hL⟩ := h
  exact ⟨L, hcard.trans hle, hL⟩

theorem Sim.step (h : Sim m s) (hn : AtMost s.refs n) (hbound : n ≤ bound) {op : Op α V}
    (hop : s.Allows op) : ∃ m', m.step bound op = some m' ∧ Sim m' (s.step op) ∧
      AtMost (s.step op).refs (n + 1) := by
  have hn' := hn.mono hbound
  cases op with
  | construct p ptr =>
    exact ⟨_, rfl, h.capture hop.1 fun v hv => (hop.2 v hv).1, hn.enter p ptr⟩
  | copy p q =>
    obtain ⟨r, hr⟩ := Option.ne_none_iff_exists'.1 hop.2
    obtain ⟨m', hm', hsim⟩ := h.copy hn' hop.1 hr
    rw [Owners.step, hr]
    exact ⟨m', hm', hsim, hn.enter p r⟩
  | destroy p =>
    obtain ⟨m', hm', hsim⟩ := h.depart hn' hop
    exact ⟨m', hm', hsim, (hn.leave p).mono (Nat.le_succ n)⟩
  | assign p q =>
    by_cases hqp : q = p
    · rw [Pointers.step, Owners.step, if_pos hqp, if_pos hqp]
      exact ⟨m, rfl, h, hn.mono (Nat.le_succ n)⟩
    obtain ⟨m', hm', hsim⟩ := h.depart hn' hop.1
    obtain ⟨r, hr⟩ := Option.ne_none_iff_exists'.1 hop.2
    obtain ⟨m'', hm'', hsim'⟩ := hsim.copy (hn'.leave p) (refs_leave_self s p)
      ((refs_leave_ne s hqp).trans hr)
    rw [Pointers.step, Owners.step, if_neg hqp, if_neg hqp, hm', hr]
    exact ⟨m'', hm'', hsim', (hn.leave p).enter p r⟩
  | reset p ptr =>
    obtain ⟨m', hm', hsim⟩ := h.depart hn' hop.1
    refine ⟨m'.capture p ptr, by rw [Pointers.step, hm']; rfl,
      hsim.capture (refs_leave_self s p) fun v hv q hq => ?_, (hn.leave p).enter p ptr⟩
    by_cases hqp : q = p
    · rw [hqp, refs_leave_self] at hq
      cases hq
    · rw [refs_leave_ne s hqp] at hq
      exact (hop.2 v hv).1 q hq
  | release p =>
    obtain ⟨m', hm', hsim⟩ := h.release hn' hop.1 hop.2
    exact ⟨m', hm', hsim, hn.enter p none⟩

theorem Sim.run {ops : List (Op α V)} (h : Sim m s) (hn : AtMost s.refs n)
    (hbound : n + ops.length ≤ bound) (hops : s.AllowsAll ops) :
    ∃ m', m.run bound ops = some m' ∧ Sim m' (s.run ops) ∧
      AtMost (s.run ops).refs (n + ops.length) := by
  induction ops generalizing m s n with
  | nil => exact ⟨m, rfl, h, hn⟩
  | cons op ops ih =>
    rw [List.length_cons] at hbound
    obtain ⟨m₁, hm₁, hsim, hn₁⟩ := h.step hn (show n ≤ bound by omega) hops.1
    obtain ⟨m₂, hm₂, hsim₂, hn₂⟩ := ih hsim hn₁ (by omega) hops.2
    refine ⟨m₂, ?_, hsim₂, hn₂.mono (by rw [List.length_cons]; omega)⟩
    rw [Pointers.run, List.foldlM_cons, hm₁]
    exact hm₂

theorem sim_run {ops : List (Op α V)} (hbound : ops.length ≤ bound)
    (hops : (Owners.empty : Owners α V).AllowsAll ops) :
    ∃ m, empty.run bound ops = some m ∧ Sim m (Owners.empty.run ops) ∧
      AtMost (Owners.empty.run ops).refs bound := by
  have hn : AtMost (Owners.empty : Owners α V).refs 0 := ⟨∅, Nat.le_refl 0, fun _ h => absurd rfl h⟩
  obtain ⟨m, hm, hsim, hn'⟩ := sim_empty.run hn (show 0 + ops.length ≤ bound by omega) hops
  exact ⟨m, hm, hsim, hn'.mono (by omega)⟩

/-- The loops end, and what is deleted and released is what counting references deletes. -/
theorem run_owners {ops : List (Op α V)} (hbound : ops.length ≤ bound)
    (hops : (Owners.empty : Owners α V).AllowsAll ops) :
    ∃ m, empty.run bound ops = some m ∧ m.deleted = (Owners.empty.run ops).deleted ∧
      m.released = (Owners.empty.run ops).released ∧
      ∀ p r, (Owners.empty.run ops).refs p = some r → m.value p = r := by
  obtain ⟨m, hm, hsim, -⟩ := sim_run hbound hops
  exact ⟨m, hm, hsim.deleted, hsim.released, hsim.value⟩

/-- Three pointers and three objects: 8 goes by an assignment, 7 with the last of its pointers, and
9 is released. -/
def three : List (Op ℕ ℕ) := [.construct 0 (some 7), .copy 1 0, .construct 2 (some 8), .assign 2 1,
  .reset 0 (some 9), .destroy 2, .destroy 1, .release 0]

theorem three_allows : (Owners.empty : Owners ℕ ℕ).AllowsAll three := by
  simp [three, AllowsAll, Allows, Owners.step, Owners.empty, enter, leave, Fresh, Shared,
    Function.update_apply]
  refine ⟨fun p => by split_ifs <;> simp, fun p => by split_ifs <;> simp, fun h => ?_⟩
  classical
  exact absurd (List.mem_ite_nil_left.1 h).2 (by decide)

theorem run_owners_three : ∃ m, (empty : Pointers ℕ ℕ).run 8 three = some m ∧
    m.deleted = (Owners.empty.run three).deleted ∧
    m.released = (Owners.empty.run three).released ∧
    ∀ p r, (Owners.empty.run three).refs p = some r → m.value p = r :=
  run_owners (Nat.le_refl 8) three_allows

example : (((empty : Pointers ℕ ℕ).run 8 three).map fun m => (m.deleted, m.released))
    = some ([7, 8], [9]) := by decide

end Pointers

end Xrash
