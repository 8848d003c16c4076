import Mathlib.Logic.Function.Basic
import Mathlib.Data.List.Nodup

/-!
# Circles of links

A link leads from each node to the next. A circle is a list of nodes, each once, whose links lead
from one to the next and from the last to the first.
-/

namespace Links

variable {α : Type*} {next : α → α} {a b c p q x y : α} {l l' : List α}

/-- The links from `a` lead through `l` to `b`. -/
def Seg (next : α → α) (a : α) : List α → α → Prop
  | [], b => a = b
  | x :: l, b => a = x ∧ Seg next (next x) l b

theorem seg_append : Seg next a (l ++ l') b ↔ ∃ c, Seg next a l c ∧ Seg next c l' b := by
  induction l generalizing a with
  | nil => exact ⟨fun h => ⟨a, rfl, h⟩, fun ⟨c, hc, h⟩ => hc ▸ h⟩
  | cons x l ih =>
    simp only [List.cons_append, Seg, ih]
    exact ⟨fun ⟨ha, c, hc⟩ => ⟨c, ⟨ha, hc.1⟩, hc.2⟩, fun ⟨c, ⟨ha, hc⟩, h⟩ => ⟨ha, c, hc, h⟩⟩

theorem Seg.congr {next' : α → α} (h : Seg next a l b) (heq : ∀ x ∈ l, next' x = next x) :
    Seg next' a l b := by
  induction l generalizing a with
  | nil => exact h
  | cons x l ih =>
    rw [List.forall_mem_cons] at heq
    refine ⟨h.1, ?_⟩
    rw [heq.1]
    exact ih h.2 heq.2

theorem Seg.next_mem (h : Seg next a l b) : ∀ x ∈ l, next x ∈ (l ++ [b]).tail := by
  induction l generalizing a with
  | nil => exact fun x hx => absurd hx List.not_mem_nil
  | cons y l ih =>
    obtain ⟨-, h⟩ := h
    refine List.forall_mem_cons.2 ⟨?_, fun x hx => List.mem_of_mem_tail (ih h x hx)⟩
    rcases l with _ | ⟨z, l⟩
    · exact List.mem_singleton.2 h
    · rw [h.1]
      exact List.mem_cons_self

/-- The circle of `p`, from `p` on. -/
structure Circle (next : α → α) (p : α) (l : List α) : Prop where
  seg : Seg next p l p
  nodup : l.Nodup
  mem : p ∈ l

theorem Circle.exists_cons (h : Circle next p l) : ∃ t, l = p :: t ∧ Seg next (next p) t p := by
  obtain ⟨hseg, -, hmem⟩ := h
  rcases l with _ | ⟨x, t⟩
  · exact absurd hmem List.not_mem_nil
  · obtain ⟨rfl, hseg⟩ := hseg
    exact ⟨t, rfl, hseg⟩

/-- The last node of a circle leads back to the first. -/
theorem Circle.exists_concat (h : Circle next p l) :
    ∃ s z, l = s ++ [z] ∧ Seg next p s z ∧ next z = p := by
  obtain ⟨hseg, -, hmem⟩ := h
  obtain ⟨s, z, rfl⟩ := (List.eq_nil_or_concat' l).resolve_left (List.ne_nil_of_mem hmem)
  obtain ⟨c, hc, rfl, hz⟩ := seg_append.1 hseg
  exact ⟨s, c, rfl, hc, hz⟩

theorem Circle.next_mem (h : Circle next p l) (hx : x ∈ l) : next x ∈ l := by
  obtain ⟨t, rfl, -⟩ := h.exists_cons
  have hmem := h.seg.next_mem x hx
  rw [List.cons_append, List.tail_cons, List.mem_append, List.mem_singleton] at hmem
  exact List.mem_cons.2 hmem.symm

theorem Circle.self (h : next p = p) : Circle next p [p] :=
  ⟨⟨rfl, h⟩, List.nodup_singleton p, List.mem_singleton_self p⟩

/-- A node alone on its circle leads to itself. -/
theorem Circle.next_eq_iff (h : Circle next p l) : next p = p ↔ l = [p] := by
  obtain ⟨t, rfl, hseg⟩ := h.exists_cons
  rcases t with _ | ⟨x, t⟩
  · exact ⟨fun _ => rfl, fun _ => hseg⟩
  · have hne : p ≠ x := fun hpx => (List.nodup_cons.1 h.nodup).1 (hpx ▸ List.mem_cons_self)
    exact ⟨fun hp => absurd (hp.symm.trans hseg.1) hne, fun h => absurd h (by simp)⟩

/-- The circle from another of its nodes on. -/
theorem Circle.rotate (h : Circle next p l) (hq : q ∈ l) :
    ∃ l', Circle next q l' ∧ l'.Perm l := by
  obtain ⟨l₁, l₂, rfl⟩ := List.append_of_mem hq
  obtain ⟨c, hc, rfl, hseg⟩ := seg_append.1 h.seg
  refine ⟨c :: l₂ ++ l₁, ⟨seg_append.2 ⟨p, ⟨rfl, hseg⟩, hc⟩, ?_, by simp⟩, List.perm_append_comm⟩
  exact List.perm_append_comm.nodup_iff.1 h.nodup

theorem Circle.congr {next' : α → α} (h : Circle next p l) (heq : ∀ x ∈ l, next' x = next x) :
    Circle next' p l :=
  ⟨h.seg.congr heq, h.nodup, h.mem⟩

variable [DecidableEq α]

/-- A node that joins at the end. -/
theorem Circle.join {s : List α} {z : α} (h : Circle next p (s ++ [z])) (hz : next z = p)
    (hx : x ∉ s ++ [z]) :
    Circle (Function.update (Function.update next z x) x p) p (s ++ [z] ++ [x]) := by
  obtain ⟨c, hc, rfl, -⟩ := seg_append.1 h.seg
  have hnodup := List.nodup_append.1 h.nodup
  have hcx : c ≠ x := fun hcx => hx (by simp [hcx])
  refine ⟨seg_append.2 ⟨x, seg_append.2 ⟨c, hc.congr fun y hy => ?_, rfl, ?_⟩, rfl, ?_⟩, ?_, ?_⟩
  · have hyx : y ≠ x := fun hyx => hx (by simp [← hyx, hy])
    have hyc : y ≠ c := hnodup.2.2 y hy c (List.mem_singleton_self c)
    rw [Function.update_of_ne hyx, Function.update_of_ne hyc]
  · rw [Function.update_of_ne hcx, Function.update_self]
    rfl
  · rw [Function.update_self]
    rfl
  · exact List.nodup_append.2 ⟨h.nodup, List.nodup_singleton x, fun y hy w hw hyw => by
      rw [List.mem_singleton.1 hw] at hyw
      exact hx (hyw ▸ hy)⟩
  · exact List.mem_append_left _ h.mem

/-- The circle that a node leaves. -/
theorem Circle.depart {s : List α} {z : α} (h : Circle next p (p :: (s ++ [z]))) :
    next z = p ∧ Circle (Function.update next z (next p)) (next p) (s ++ [z]) := by
  obtain ⟨-, hseg⟩ := h.seg
  obtain ⟨c, hc, rfl, hz⟩ := seg_append.1 hseg
  have hnodup := (List.nodup_cons.1 h.nodup).2
  refine ⟨hz, seg_append.2 ⟨c, hc.congr fun y hy => ?_, rfl, ?_⟩, hnodup, ?_⟩
  · rw [Function.update_of_ne ((List.nodup_append.1 hnodup).2.2 y hy c (List.mem_singleton_self c))]
  · rw [Function.update_self]
    rfl
  · rcases s with _ | ⟨y, s⟩
    · rw [show next p = c from hc]
      exact List.mem_singleton_self c
    · rw [hc.1]
      exact List.mem_cons_self

end Links
