import Xrash.Proofs.RangeMap
import Xrash.Lib.Runs
import Mathlib.Data.List.Forall2

/-!
# Range maps over whole runs

Whatever calls are made on a new map, each returns, the ranges stay apart, and every call of
`StoreRange` that returned true has a part of its range in the map until the map is cleared. So a
range that is found was stored, under the base that its own base less its delta is, and no entry is
lost or stored twice.
-/

namespace Xrash.RangeMap

variable {w : ℕ} {ε : Type*} {calls : List (Call w ε)} {s : Session w ε} {m : RangeMap w ε}

/-! ## The invariant -/

/-- The ranges are apart, and are parts of the stored ones, one each. -/
structure Session.Ok (s : Session w ε) : Prop where
  valid : s.map.Valid
  parts : ∃ es, es.Perm s.map.map.entries ∧ List.Forall₂ PartOf es s.stored

theorem valid_empty (strat : MergeRangeStrategy) :
    (⟨strat, .empty⟩ : RangeMap w ε).Valid where
  ordered _ he := absurd he List.not_mem_nil
  disjoint _ he := absurd he List.not_mem_nil

/-- A range map changed entry by entry has as many entries. -/
theorem Adds.perm {m' : RangeMap w ε} {x : BitVec w × Range w ε}
    {g : BitVec w × Range w ε → BitVec w × Range w ε} (h : Adds m m' x g)
    (hg : Set.InjOn g m.ranges) : (x :: m.map.entries.map g).Perm m'.map.entries := by
  have hnodup : (x :: m.map.entries.map g).Nodup := by
    refine List.nodup_cons.2 ⟨fun hx => ?_, List.Nodup.map_on (fun e he f hf => hg he hf)
      m.map.sorted.nodup⟩
    obtain ⟨e, he, hx⟩ := List.mem_map.1 hx
    exact h.key_ne e he (congrArg Prod.fst hx)
  refine (List.perm_ext_iff_of_nodup hnodup m'.map.sorted.nodup).2 fun e => ?_
  have hranges : e ∈ m'.map.entries ↔ e ∈ insert x (g '' m.ranges) := h.ranges ▸ Iff.rfl
  rw [hranges, List.mem_cons, List.mem_map]
  exact Iff.rfl

theorem forall₂_map_of_mem {α β : Type*} {R : α → β → Prop} {g : α → α} :
    ∀ {l : List α} {l' : List β}, (∀ x ∈ l, ∀ y, R x y → R (g x) y) → List.Forall₂ R l l' →
      List.Forall₂ R (l.map g) l'
  | _, _, _, .nil => .nil
  | x :: _, y :: _, hg, .cons hxy h =>
    .cons (hg x List.mem_cons_self y hxy)
      (forall₂_map_of_mem (fun x hx => hg x (List.mem_cons_of_mem _ hx)) h)

theorem call_storeRange (s : Session w ε) (base size : BitVec w) (entry : ε) :
    s.call (.storeRange base size entry) = (s.map.storeRange base size entry).map fun r =>
      ⟨r.2, if r.1 then ⟨base, size, entry⟩ :: s.stored else s.stored⟩ := rfl

theorem call_ok (s : Session w ε) (c : Call w ε) (h : s.Ok) : ∃ s', s.call c = some s' ∧ s'.Ok := by
  cases c with
  | storeRange base size entry =>
    rcases storeRange_cases h.valid base size entry with
      hfalse | ⟨m', x, g, hstore, hadds, hx, hinj, hg⟩
    · exact ⟨s, by rw [call_storeRange, hfalse]; rfl, h⟩
    · obtain ⟨es, hperm, hparts⟩ := h.parts
      refine ⟨⟨m', ⟨base, size, entry⟩ :: s.stored⟩, by rw [call_storeRange, hstore]; rfl,
        hadds.valid, x :: es.map g, ?_, .cons hx ?_⟩
      · exact ((hperm.map g).cons x).trans (hadds.perm hinj)
      · exact forall₂_map_of_mem (fun e he c hc => hg e (hperm.mem_iff.1 he) c hc) hparts
  | setMergeStrategy strat => exact ⟨_, rfl, ⟨h.valid.ordered, h.valid.disjoint⟩, h.parts⟩
  | clear => exact ⟨_, rfl, valid_empty _, [], .nil, .nil⟩

theorem new_ok : (⟨new, []⟩ : Session w ε).Ok := ⟨valid_empty _, [], .nil, .nil⟩

theorem run_ok (h : run calls = some s) : s.Ok := Runs.of_foldlM call_ok new_ok h

/-! ## Retrieval -/

/-- Every run returns, leaves ranges that are apart, and finds the range that has an address. -/
theorem run_retrieveRange (calls : List (Call w ε)) : ∃ s, run calls = some s
    ∧ (∀ e ∈ s.map.ranges, e.2.base ≤ e.1)
    ∧ (∀ e ∈ s.map.ranges, ∀ f ∈ s.map.ranges, e ≠ f → e.1 < f.2.base ∨ f.1 < e.2.base)
    ∧ ∀ a r, s.map.retrieveRange a = some r ↔
      ∃ e ∈ s.map.ranges, (e.2.base ≤ a ∧ a ≤ e.1) ∧ retrieved e = r := by
  obtain ⟨s, hrun, hs⟩ := Runs.foldlM_some call_ok calls _ (new_ok (w := w) (ε := ε))
  refine ⟨s, hrun, hs.valid.ordered, fun e he f hf hne => ?_, fun a r =>
    retrieveRange_eq_some hs.valid⟩
  rcases lt_trichotomy e.1 f.1 with hlt | heq | hgt
  · exact .inl (hs.valid.disjoint e he f hf hlt)
  · exact absurd (eq_of_key he hf heq) hne
  · exact .inr (hs.valid.disjoint f hf e he hgt)

/-- In the order of the keys, the bases increase too. -/
theorem base_le_of_key_le (hv : m.Valid) {e f : BitVec w × Range w ε} (he : e ∈ m.ranges)
    (hf : f ∈ m.ranges) (h : e.1 ≤ f.1) : e.2.base ≤ f.2.base := by
  rcases h.eq_or_lt with heq | hlt
  · rw [eq_of_key he hf heq]
  · exact (hv.ordered e he).trans (hv.disjoint e he f hf hlt).le

theorem eq_of_base (hv : m.Valid) {e f : BitVec w × Range w ε} (he : e ∈ m.ranges)
    (hf : f ∈ m.ranges) (h : e.2.base = f.2.base) : e = f :=
  have hcontains := hv.ordered f hf
  hv.eq_of_contains he hf ⟨le_rfl, hv.ordered e he⟩ ⟨h.ge, h ▸ hcontains⟩

/-- What `RetrieveNearestRange` returns, by whether a range has the address. -/
theorem retrieveNearestRange_cases (hv : m.Valid) (a : BitVec w) :
    (m.retrieveNearestRange a = none ∧ ∀ e ∈ m.ranges, a < e.2.base)
      ∨ ∃ e ∈ m.ranges, m.retrieveNearestRange a = some (retrieved e) ∧ e.2.base ≤ a
        ∧ ∀ f ∈ m.ranges, f.2.base ≤ a → f.2.base ≤ e.2.base := by
  unfold retrieveNearestRange
  rcases hr : m.retrieveRange a with _ | r
  · have hout : ∀ f ∈ m.ranges, f.2.base ≤ a → f.1 ≤ a := fun f hf hfa => by
      by_contra hlt
      have := (retrieveRange_eq_some hv).2 ⟨f, hf, ⟨hfa, (not_le.1 hlt).le⟩, rfl⟩
      rw [hr] at this
      cases this
    simp only []
    by_cases hub : m.map.upperBound a = 0
    · left
      rw [if_pos hub]
      refine ⟨rfl, fun e he => not_le.1 fun hea => ?_⟩
      have hlt := (KeyList.upperBound_eq_zero m.map.sorted).1 hub e he
      exact absurd (hout e he hea) (not_le.2 hlt)
    · right
      rw [if_neg hub]
      have hlen : m.map.upperBound a ≤ m.map.entries.length := KeyList.upperBound_le_length
      have hi : m.map.upperBound a - 1 < m.map.entries.length := by omega
      obtain ⟨hg, hga, hmax⟩ := (KeyList.getElem?_upperBound_pred m.map.sorted hub).1
        (List.getElem?_eq_getElem hi)
      refine ⟨_, hg, ?_, (hv.ordered _ hg).trans hga, fun f hf hfa => ?_⟩
      · rw [List.getElem?_eq_getElem hi]
        rfl
      · exact base_le_of_key_le hv hf hg (hmax f hf (hout f hf hfa))
  · right
    obtain ⟨e, he, hea, rfl⟩ := (retrieveRange_eq_some hv).1 hr
    refine ⟨e, he, rfl, hea.1, fun f hf hfa => ?_⟩
    by_contra hlt
    have hkey : e.1 < f.1 := not_le.1 fun hle => hlt (base_le_of_key_le hv hf he hle)
    exact absurd ((hv.disjoint e he f hf hkey).trans_le hfa) (not_lt.2 hea.2)

/-- The nearest range is the one with the greatest base that is not above the address. -/
theorem run_retrieveNearestRange (hrun : run calls = some s) (a : BitVec w) (r : Retrieved w ε) :
    s.map.retrieveNearestRange a = some r ↔ ∃ e ∈ s.map.ranges,
      (e.2.base ≤ a ∧ ∀ f ∈ s.map.ranges, f.2.base ≤ a → f.2.base ≤ e.2.base)
        ∧ retrieved e = r := by
  have hv := (run_ok hrun).valid
  rcases retrieveNearestRange_cases hv a with ⟨hnone, hall⟩ | ⟨e, he, hsome, hea, hmax⟩
  · rw [hnone]
    refine ⟨nofun, ?_⟩
    rintro ⟨e, he, hea, -⟩
    exact absurd (hall e he) (not_lt.2 hea.1)
  · rw [hsome, Option.some_inj]
    constructor
    · intro h
      exact ⟨e, he, ⟨hea, hmax⟩, h⟩
    · rintro ⟨f, hf, ⟨hfa, hfmax⟩, rfl⟩
      rw [eq_of_base hv he hf (le_antisymm (hfmax e he hea) (hmax f hf hfa))]

theorem run_retrieveNearestRange_gap :
    ∃ s : Session 8 Char, run [.storeRange 10 10 'a'] = some s ∧
      (s.map.retrieveNearestRange 25 = some ⟨'a', 10, 0, 10⟩ ↔ ∃ e ∈ s.map.ranges,
        (e.2.base ≤ 25 ∧ ∀ f ∈ s.map.ranges, f.2.base ≤ 25 → f.2.base ≤ e.2.base)
          ∧ retrieved e = ⟨'a', 10, 0, 10⟩) :=
  ⟨_, rfl, run_retrieveNearestRange
    (show run [.storeRange 10 10 'a'] = some _ from rfl) 25 ⟨'a', 10, 0, 10⟩⟩

/-! ## Storing -/

/-- Ranges that overlap are turned away. -/
theorem storeRange_exclusiveRanges (hrun : run calls = some s) (base size : BitVec w)
    (entry : ε) (hs : s.map.mergeStrategy = .exclusiveRanges) :
    (Fits base size ∧ (∀ e ∈ s.map.ranges, e.1 < base ∨ base + (size - 1) < e.2.base) →
      ∃ m', s.map.storeRange base size entry = some (true, m')
        ∧ m'.mergeStrategy = s.map.mergeStrategy
        ∧ m'.ranges = insert (base + (size - 1), ⟨base, 0, entry⟩) s.map.ranges)
    ∧ (¬ (Fits base size ∧ ∀ e ∈ s.map.ranges, e.1 < base ∨ base + (size - 1) < e.2.base) →
      s.map.storeRange base size entry = some (false, s.map)) := by
  have hv := (run_ok hrun).valid
  constructor
  · rintro ⟨⟨hsize, hle⟩, hfree⟩
    obtain ⟨m', hstore, hadds⟩ := (exclusive_spec _ 0 entry hv hs hsize rfl hle).1 hfree
    exact ⟨m', hstore, hadds.mergeStrategy, by rw [hadds.ranges, Set.image_id]⟩
  · intro h
    by_cases hfit : Fits base size
    · exact (exclusive_spec _ 0 entry hv hs hfit.1 rfl hfit.2).2 fun hfree => h ⟨hfit, hfree⟩
    · exact storeRange_unfit hfit

theorem storeRange_exclusiveRanges_next :
    ∃ s : Session 8 Char, run [.storeRange 10 10 'a'] = some s ∧
      ∃ m', s.map.storeRange 20 10 'b' = some (true, m')
        ∧ m'.mergeStrategy = s.map.mergeStrategy
        ∧ m'.ranges = insert (20 + (10 - 1), ⟨20, 0, 'b'⟩) s.map.ranges := by
  have hfree : ∀ e ∈ [((19 : BitVec 8), (⟨10, 0, 'a'⟩ : Range 8 Char))],
      e.1 < 20 ∨ 20 + (10 - 1) < e.2.base := by decide
  exact ⟨_, rfl, (storeRange_exclusiveRanges
    (show run [.storeRange 10 10 'a'] = some _ from rfl) 20 10 'b' rfl).1 ⟨by decide, hfree⟩⟩

/-- The new range ends before the next stored one begins, and the range it begins in ends before it.
It is turned away only where a stored range has its base. -/
theorem storeRange_truncateLower (hrun : run calls = some s) (base size : BitVec w)
    (entry : ε) (hs : s.map.mergeStrategy = .truncateLower) :
    (Fits base size ∧ (∀ e ∈ s.map.ranges, e.2.base ≠ base) →
      ∃ m' cut, s.map.storeRange base size entry = some (true, m')
        ∧ IsGreatest (s.map.ends base (base + (size - 1))) cut
        ∧ m'.mergeStrategy = s.map.mergeStrategy
        ∧ m'.ranges = insert (cut, ⟨base, 0, entry⟩) (cutBelow base '' s.map.ranges))
    ∧ (¬ (Fits base size ∧ ∀ e ∈ s.map.ranges, e.2.base ≠ base) →
      s.map.storeRange base size entry = some (false, s.map)) := by
  have hv := (run_ok hrun).valid
  constructor
  · rintro ⟨⟨hsize, hle⟩, hbase⟩
    obtain ⟨m', cut, hstore, hcut, hadds⟩ :=
      lower_spec s.map.getCount 0 entry hv hs hsize rfl hle hbase
    exact ⟨m', cut, hstore, hcut, hadds.mergeStrategy, hadds.ranges⟩
  · intro h
    by_cases hfit : Fits base size
    · refine lower_at _ _ _ hv hs hfit.1 hfit.2 ?_
      by_contra hno
      exact h ⟨hfit, fun e he hb => hno ⟨e, he, hb⟩⟩
    · exact storeRange_unfit hfit

theorem storeRange_truncateLower_within :
    ∃ s : Session 8 Char, run [.setMergeStrategy .truncateLower, .storeRange 10 10 'a'] = some s ∧
      ∃ m' cut, s.map.storeRange 15 10 'b' = some (true, m')
        ∧ IsGreatest (s.map.ends 15 (15 + (10 - 1))) cut
        ∧ m'.mergeStrategy = s.map.mergeStrategy
        ∧ m'.ranges = insert (cut, ⟨15, 0, 'b'⟩) (cutBelow 15 '' s.map.ranges) := by
  have hbase : ∀ e ∈ [((19 : BitVec 8), (⟨10, 0, 'a'⟩ : Range 8 Char))], e.2.base ≠ 15 := by decide
  exact ⟨_, rfl, (storeRange_truncateLower
    (show run [.setMergeStrategy .truncateLower, .storeRange 10 10 'a'] = some _ from rfl)
    15 10 'b' rfl).1 ⟨by decide, hbase⟩⟩

/-- The new range begins above the stored ones that end within it, and the range it ends in begins
above it; their deltas tell how much is missing below. It is turned away only where a stored range
has its end. -/
theorem storeRange_truncateUpper (hrun : run calls = some s) (base size : BitVec w)
    (entry : ε) (hs : s.map.mergeStrategy = .truncateUpper) :
    (Fits base size ∧ (∀ e ∈ s.map.ranges, e.1 ≠ base + (size - 1)) →
      ∃ m' start, s.map.storeRange base size entry = some (true, m')
        ∧ IsLeast (s.map.starts base (base + (size - 1))) start
        ∧ m'.mergeStrategy = s.map.mergeStrategy
        ∧ m'.ranges = insert (base + (size - 1), ⟨start, start - base, entry⟩)
          (cutAbove (base + (size - 1)) '' s.map.ranges))
    ∧ (¬ (Fits base size ∧ ∀ e ∈ s.map.ranges, e.1 ≠ base + (size - 1)) →
      s.map.storeRange base size entry = some (false, s.map)) := by
  have hv := (run_ok hrun).valid
  have hfuel : s.map.getCount + 2 ≤ s.map.getCount + 3 + s.map.map.lowerBound base := by omega
  constructor
  · rintro ⟨⟨hsize, hle⟩, hkey⟩
    obtain ⟨m', start, hstore, hstart, hadds⟩ :=
      upper_spec entry hs hv hkey _ 0 hfuel hsize rfl hle
    refine ⟨m', start, hstore, hstart, hadds.mergeStrategy, ?_⟩
    rw [hadds.ranges, zero_add]
  · intro h
    by_cases hfit : Fits base size
    · by_cases hat : ∃ e ∈ s.map.ranges, e.1 = base + (size - 1)
      · obtain ⟨e, he, hkey⟩ := hat
        exact upper_at entry hs hv he hkey _ 0 hfuel hfit.1 rfl hfit.2
      · exact absurd ⟨hfit, fun e he hb => hat ⟨e, he, hb⟩⟩ h
    · exact storeRange_unfit hfit

theorem storeRange_truncateUpper_within :
    ∃ s : Session 8 Char, run [.setMergeStrategy .truncateUpper, .storeRange 10 10 'a'] = some s ∧
      ∃ m' start, s.map.storeRange 15 10 'b' = some (true, m')
        ∧ IsLeast (s.map.starts 15 (15 + (10 - 1))) start
        ∧ m'.mergeStrategy = s.map.mergeStrategy
        ∧ m'.ranges = insert (15 + (10 - 1), ⟨start, start - 15, 'b'⟩)
          (cutAbove (15 + (10 - 1)) '' s.map.ranges) := by
  have hkey : ∀ e ∈ [((19 : BitVec 8), (⟨10, 0, 'a'⟩ : Range 8 Char))], e.1 ≠ 15 + (10 - 1) := by
    decide
  exact ⟨_, rfl, (storeRange_truncateUpper
    (show run [.setMergeStrategy .truncateUpper, .storeRange 10 10 'a'] = some _ from rfl)
    15 10 'b' rfl).1 ⟨by decide, hkey⟩⟩

/-! ## What is stored -/

theorem exists_of_forall₂_mem {α β : Type*} {R : α → β → Prop} {x : α} :
    ∀ {l : List α} {l' : List β}, List.Forall₂ R l l' → x ∈ l → ∃ y ∈ l', R x y
  | _, _, .nil, hx => absurd hx List.not_mem_nil
  | _, y :: _, .cons hxy h, hx => by
    rcases List.mem_cons.1 hx with rfl | hx
    · exact ⟨y, List.mem_cons_self, hxy⟩
    · obtain ⟨z, hz, hxz⟩ := exists_of_forall₂_mem h hx
      exact ⟨z, List.mem_cons_of_mem _ hz, hxz⟩

/-- The stored ranges are parts of those of the calls that returned true, one each, and a range that
is found tells the base it was stored with. -/
theorem run_parts (hrun : run calls = some s) :
    (∃ es, es.Perm s.map.map.entries ∧ List.Forall₂ PartOf es s.stored)
    ∧ ∀ a r, s.map.retrieveRange a = some r → ∃ c ∈ s.stored, r.entry = c.entry
      ∧ r.base - r.delta = c.base ∧ c.base ≤ r.base ∧ r.base ≤ a ∧ a ≤ r.base + (r.size - 1)
      ∧ r.base + (r.size - 1) ≤ c.base + (c.size - 1) := by
  have hok := run_ok hrun
  refine ⟨hok.parts, fun a r hr => ?_⟩
  obtain ⟨e, he, hea, rfl⟩ := (retrieveRange_eq_some hok.valid).1 hr
  obtain ⟨es, hperm, hparts⟩ := hok.parts
  obtain ⟨c, hc, hpart⟩ := exists_of_forall₂_mem hparts (hperm.mem_iff.2 he)
  have hend : (retrieved e).base + ((retrieved e).size - 1) = e.1 := by
    unfold retrieved
    ring
  refine ⟨c, hc, hpart.entry, ?_, hpart.above, hea.1, hend ▸ hea.2, hend ▸ hpart.below⟩
  exact sub_eq_iff_eq_add.2 hpart.base

end Xrash.RangeMap
