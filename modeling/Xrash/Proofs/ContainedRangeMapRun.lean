import Xrash.Proofs.ContainedRangeMap
import Xrash.Lib.Runs

/-!
# Contained range maps over whole runs

After any calls a map is a set of ranges of which any two are apart or one strictly within the
other. A call stores its range exactly when the set stays so, a look-up finds the smallest range,
and ranges that may all be stored make the same tree in every order.
-/

namespace Xrash.ContainedRangeMap

open Extent

variable {w : ℕ} {ε : Type*} {default : ε} {calls : List (Call w ε)} {m : ContainedRangeMap w ε}
  {base size : BitVec w} {entry : ε}

theorem storeRange_unfit (h : ¬ Fits base size) : m.storeRange base size entry = (false, m) := by
  obtain ⟨b, x, l⟩ := m
  unfold Fits at h
  rw [not_and_or, not_not, not_le] at h
  rw [storeRange, if_pos h]

/-- One call on a valid map. -/
theorem storeRange_cases (hv : Valid m.map) (base size : BitVec w) (entry : ε) :
    (Fits base size ∧ (∀ r ∈ m.ranges, Nests r ⟨base, base + size - 1, entry⟩) →
      ∃ m', m.storeRange base size entry = (true, m') ∧ Valid m'.map ∧ m'.base = m.base
        ∧ m'.entry = m.entry ∧ m'.ranges = insert ⟨base, base + size - 1, entry⟩ m.ranges)
    ∧ (¬ (Fits base size ∧ ∀ r ∈ m.ranges, Nests r ⟨base, base + size - 1, entry⟩) →
      m.storeRange base size entry = (false, m)) := by
  obtain ⟨b, x, l⟩ := m
  constructor
  · rintro ⟨⟨hsize, hle⟩, hn⟩
    obtain ⟨l', hstore, hv', hiff⟩ := (storeRange_spec hv hsize hle b x).1 hn
    exact ⟨mk b x l', hstore, hv', rfl, rfl, Set.ext hiff⟩
  · intro h
    by_cases hfit : Fits base size
    · exact (storeRange_spec hv hfit.1 hfit.2 b x).2 fun hn => h ⟨hfit, hn⟩
    · exact storeRange_unfit hfit

/-- The map is valid, and the root as it was made. -/
def Ok (default : ε) (m : ContainedRangeMap w ε) : Prop :=
  Valid m.map ∧ m.base = 0 ∧ m.entry = default

theorem call_ok (m : ContainedRangeMap w ε) (c : Call w ε) (h : Ok default m) :
    Ok default (m.call c) := by
  cases c with
  | storeRange base size entry =>
    obtain ⟨hyes, hno⟩ := storeRange_cases h.1 base size entry
    show Ok default (m.storeRange base size entry).2
    by_cases hc : Fits base size ∧ ∀ r ∈ m.ranges, Nests r ⟨base, base + size - 1, entry⟩
    · obtain ⟨m', hstore, hv', hb, hx, -⟩ := hyes hc
      rw [hstore]
      exact ⟨hv', hb.trans h.2.1, hx.trans h.2.2⟩
    · rw [hno hc]
      exact h
  | clear =>
    obtain ⟨b, x, l⟩ := m
    exact ⟨.nil, h.2⟩

theorem run_ok (default : ε) (calls : List (Call w ε)) : Ok default (run default calls) :=
  Runs.of_foldl call_ok calls _ ⟨.nil, rfl, rfl⟩

/-- After any calls the ranges nest. A range is stored when it nests with each of them, which adds
it to them, and otherwise the map stays as it is. -/
theorem run_storeRange (default : ε) (calls : List (Call w ε)) (base size : BitVec w) (entry : ε) :
    (run default calls).ranges.Pairwise Nests
    ∧ (Fits base size ∧ (∀ r ∈ (run default calls).ranges, Nests r ⟨base, base + size - 1, entry⟩) →
      ∃ m', (run default calls).storeRange base size entry = (true, m')
        ∧ m'.ranges = insert ⟨base, base + size - 1, entry⟩ (run default calls).ranges)
    ∧ (¬ (Fits base size ∧
        ∀ r ∈ (run default calls).ranges, Nests r ⟨base, base + size - 1, entry⟩) →
      (run default calls).storeRange base size entry = (false, run default calls)) := by
  have hv := (run_ok default calls).1
  obtain ⟨hyes, hno⟩ := storeRange_cases hv base size entry
  refine ⟨hv.nests, fun h => ?_, hno⟩
  obtain ⟨m', hstore, -, -, -, hranges⟩ := hyes h
  exact ⟨m', hstore, hranges⟩

/-- After any calls, an address is looked up to the entry of the smallest range with it, and to
nothing exactly where no range has it. -/
theorem run_smallest (default : ε) (calls : List (Call w ε)) (a : BitVec w) :
    (∀ y, (run default calls).retrieveRange a = some y
      ↔ ∃ r, Smallest (run default calls).ranges a r ∧ r.label = y)
    ∧ ((run default calls).retrieveRange a = none
      ↔ ∀ r ∈ (run default calls).ranges, ¬ r.Has a) := by
  have hv := (run_ok default calls).1
  rcases hm : run default calls with ⟨b, x, l⟩
  rw [hm] at hv
  obtain ⟨hsome, hnone⟩ := retrieveRange_spec hv b x (a := a)
  refine ⟨fun y => ⟨hsome y, ?_⟩, hnone, fun hno => ?_⟩
  · rintro ⟨r, hr, rfl⟩
    rcases hc : (mk b x l).retrieveRange a with _ | z
    · exact absurd hr.2.1 (hnone hc r hr.1)
    · obtain ⟨s, hs, rfl⟩ := hsome z hc
      rw [hs.unique hv.nests hr]
  · refine Option.eq_none_iff_forall_ne_some.2 fun y hy => ?_
    obtain ⟨r, hr, -⟩ := hsome y hy
    exact hno r hr.1 hr.2.1

/-! ## The order of the calls -/

/-- Ranges that nest are all stored. -/
theorem ranges_foldl : ∀ (cs : List (BitVec w × BitVec w × ε)) {m : ContainedRangeMap w ε},
    Ok default m → (∀ c ∈ cs, Fits c.1 c.2.1) →
    cs.Pairwise (fun c d => Nests (stored c) (stored d)) →
    (∀ c ∈ cs, ∀ r ∈ m.ranges, Nests r (stored c)) →
    ∀ r, r ∈ ((cs.map storeCall).foldl call m).ranges ↔ r ∈ m.ranges ∨ ∃ c ∈ cs, r = stored c
  | [], m, _, _, _, _, r => by simp
  | c :: cs, m, hok, hfit, hpair, hnest, r => by
    obtain ⟨m', hstore, -, -, -, hranges⟩ := (storeRange_cases hok.1 c.1 c.2.1 c.2.2).1
      ⟨hfit c List.mem_cons_self, hnest c List.mem_cons_self⟩
    have hcall : m.call (storeCall c) = m' := congrArg Prod.snd hstore
    have hm' : ∀ r, r ∈ m'.ranges ↔ r = stored c ∨ r ∈ m.ranges := fun r => by
      rw [hranges]
      exact Iff.rfl
    rw [List.map_cons, List.foldl_cons, hcall,
      ranges_foldl cs (hcall ▸ call_ok m (storeCall c) hok)
        (fun d hd => hfit d (List.mem_cons_of_mem _ hd)) (List.pairwise_cons.1 hpair).2
        fun d hd r hr => ?_]
    · rw [hm', List.exists_mem_cons_iff]
      tauto
    · rcases (hm' r).1 hr with rfl | hr
      · exact (List.pairwise_cons.1 hpair).1 d hd
      · exact hnest d (List.mem_cons_of_mem _ hd) r hr

/-- Ranges of which any two nest make the same tree in every order. -/
theorem run_perm (default : ε) {cs cs' : List (BitVec w × BitVec w × ε)} (hperm : cs.Perm cs')
    (hfit : ∀ c ∈ cs, Fits c.1 c.2.1)
    (hnest : cs.Pairwise fun c d => Nests (stored c) (stored d)) :
    run default (cs.map storeCall) = run default (cs'.map storeCall)
      ∧ ∀ r, r ∈ (run default (cs.map storeCall)).ranges ↔ ∃ c ∈ cs, r = stored c := by
  have hnew : Ok default (new default : ContainedRangeMap w ε) := ⟨.nil, rfl, rfl⟩
  have hempty : ∀ r, r ∉ (new default : ContainedRangeMap w ε).ranges := fun r hr => by
    obtain ⟨e, he, -⟩ := stores_iff.1 hr
    exact List.not_mem_nil he
  have hset : ∀ {ds : List (BitVec w × BitVec w × ε)}, (∀ c ∈ ds, Fits c.1 c.2.1) →
      ds.Pairwise (fun c d => Nests (stored c) (stored d)) →
      ∀ r, r ∈ (run default (ds.map storeCall)).ranges ↔ ∃ c ∈ ds, r = stored c := by
    intro ds hfit hpair r
    have := ranges_foldl ds hnew hfit hpair (fun c _ r hr => absurd hr (hempty r)) r
    exact this.trans (or_iff_right (hempty r))
  have hfit' : ∀ c ∈ cs', Fits c.1 c.2.1 := fun c hc => hfit c (hperm.mem_iff.2 hc)
  have hnest' : cs'.Pairwise fun c d => Nests (stored c) (stored d) :=
    hperm.pairwise hnest fun h => h.symm
  refine ⟨?_, hset hfit hnest⟩
  obtain ⟨hv, hb, hx⟩ := run_ok default (cs.map storeCall)
  obtain ⟨hv', hb', hx'⟩ := run_ok default (cs'.map storeCall)
  have hsame : ∀ r, r ∈ (run default (cs.map storeCall)).ranges
      ↔ r ∈ (run default (cs'.map storeCall)).ranges := fun r => by
    rw [hset hfit hnest, hset hfit' hnest']
    exact exists_congr fun c => and_congr_left fun _ => hperm.mem_iff
  exact ext (hb.trans hb'.symm) (hx.trans hx'.symm) (eq_of_stores hv hv' hsame)

theorem run_perm_nested :
    run 'r' ([(10, 20, 'a'), (12, 4, 'b'), (40, 8, 'c')].map storeCall)
        = (run 'r' ([(12, 4, 'b'), (10, 20, 'a'), (40, 8, 'c')].map storeCall) :
          ContainedRangeMap 8 Char)
      ∧ ∀ r : Extent (BitVec 8) Char,
        r ∈ (run 'r' ([(10, 20, 'a'), (12, 4, 'b'), (40, 8, 'c')].map storeCall)).ranges
          ↔ ∃ c ∈ ([(10, 20, 'a'), (12, 4, 'b'), (40, 8, 'c')] : List (BitVec 8 × BitVec 8 × Char)),
            r = stored c :=
  run_perm 'r' (List.Perm.swap _ _ _) (by decide) (by decide)

end Xrash.ContainedRangeMap
