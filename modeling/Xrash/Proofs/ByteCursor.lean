import Xrash.ByteCursor

/-!
# What a cursor reads

The calls of a run that is complete get what the bytes of the buffer stand for, in the byte order
that is set. So a run is complete exactly if the buffer holds what it asks for.
-/

namespace Xrash.ByteCursor

open LittleEndian

/-- The number that the bytes of a buffer stand for. -/
def number (bigEndian isSigned : Bool) (l : List UInt8) : ℤ :=
  let l := if bigEndian then l.reverse else l
  if isSigned then signed l else unsigned l

/-- What a call gets, by what is in the buffer from `pos` on, and where it leaves the cursor. -/
inductive Gets (buffer : List UInt8) (big : Bool) (pos : ℕ) : Op → Value → Bool → ℕ → Prop
  | read {n : ℕ} {isSigned : Bool} {l : List UInt8} (h : At buffer pos l) :
    Gets buffer big pos (.read n l.length isSigned)
      (.int n (BitVec.ofInt _ (number big isSigned l))) big (pos + l.length)
  | readBlock {l : List UInt8} (h : At buffer pos l) :
    Gets buffer big pos (.readBlock l.length) (.bytes l) big (pos + l.length)
  | cString {s : List UInt8} (h : At buffer pos (s ++ [0])) (hs : 0 ∉ s) :
    Gets buffer big pos .cString (.bytes s) big (pos + (s.length + 1))
  | full {s : List UInt8} (h : At buffer pos s) (hs : 0 ∉ s) :
    Gets buffer big pos (.cStringWithin s.length) (.bytes s) big (pos + s.length)
  | padded {s rest : List UInt8} (h : At buffer pos (s ++ 0 :: rest)) (hs : 0 ∉ s) :
    Gets buffer big pos (.cStringWithin (s ++ 0 :: rest).length) (.bytes s) big
      (pos + (s ++ 0 :: rest).length)
  | pointTo {size : ℕ} (h : pos + size ≤ buffer.length) :
    Gets buffer big pos (.pointTo size) (.pointer (some pos)) big (pos + size)
  | skip {size : ℕ} (h : pos + size ≤ buffer.length) :
    Gets buffer big pos (.skip size) .nothing big (pos + size)
  | setBigEndian {big' : Bool} : Gets buffer big pos (.setBigEndian big') .nothing big' pos
  | setHere {here : ℕ} (h : here ≤ buffer.length) :
    Gets buffer big pos (.setHere here) .nothing big here

/-- The calls of a run one after the other. -/
inductive GetsAll (buffer : List UInt8) : Bool → ℕ → List Op → List Value → Bool → ℕ → Prop
  | nil {big : Bool} {pos : ℕ} : GetsAll buffer big pos [] [] big pos
  | cons {big big' big'' : Bool} {pos pos' pos'' : ℕ} {op : Op} {ops : List Op} {v : Value}
    {vs : List Value} (h : Gets buffer big pos op v big' pos')
    (hs : GetsAll buffer big' pos' ops vs big'' pos'') :
    GetsAll buffer big pos (op :: ops) (v :: vs) big'' pos''

/-- A signed number has a byte, and where it is extended its sign is a bit of a `size_t`. -/
def Op.Defined (sizeT : ℕ) : Op → Prop
  | .read n size isSigned => isSigned → 0 < size ∧ (size < n → 8 * size ≤ sizeT)
  | _ => True

variable {sizeT : ℕ} {c c' : ByteCursor}

/-! ## Numbers -/

theorem shiftIn_reverse (w : ℕ) : ∀ l : List UInt8,
    shiftIn w l.reverse = BitVec.ofNat w (unsigned l)
  | [] => rfl
  | b :: l => by
    have ih := shiftIn_reverse w l
    have hcons : unsigned (b :: l) = b.toNat + 256 * unsigned l := Nat.ofDigits_cons ..
    unfold shiftIn at ih ⊢
    rw [List.reverse_cons, List.foldl_append, ih, hcons]
    refine BitVec.eq_of_toNat_eq ?_
    simp only [List.foldl_cons, List.foldl_nil, BitVec.toNat_add, BitVec.toNat_shiftLeft,
      BitVec.toNat_ofNat, Nat.shiftLeft_eq, Nat.add_mod_mod, Nat.mod_add_mod]
    rw [Nat.add_mod, Nat.mod_mul_mod, ← Nat.add_mod, Nat.add_comm, Nat.mul_comm]

theorem shiftIn_eq (w : ℕ) (big : Bool) (l : List UInt8) :
    shiftIn w (if big then l else l.reverse)
      = BitVec.ofNat w (unsigned (if big then l.reverse else l)) := by
  cases big
  · exact shiftIn_reverse w l
  · exact (congrArg (shiftIn w) (List.reverse_reverse l).symm).trans (shiftIn_reverse w l.reverse)

theorem length_inOrder (big : Bool) (l : List UInt8) :
    (if big then l.reverse else l).length = l.length := by
  split_ifs
  · exact List.length_reverse ..
  · rfl

theorem signBit_toNat {w size : ℕ} (hw : size * 8 - 1 < w) :
    signBit sizeT w size = BitVec.ofNat w (2 ^ (size * 8 - 1) % 2 ^ sizeT) := by
  have hone : (1 : BitVec w).toNat = 1 := by
    show 1 % 2 ^ w = 1
    exact Nat.mod_eq_of_lt (Nat.one_lt_two_pow (by omega))
  refine BitVec.eq_of_toNat_eq ?_
  unfold signBit
  rw [BitVec.toNat_setWidth, BitVec.toNat_setWidth, BitVec.toNat_shiftLeft, hone, Nat.one_shiftLeft,
    Nat.mod_eq_of_lt (Nat.pow_lt_pow_right (by decide) hw), BitVec.toNat_ofNat]

theorem signBit_eq {w size : ℕ} (hpos : 0 < size) (hw : 8 * size ≤ w) (hsize : 8 * size ≤ sizeT) :
    signBit sizeT w size = BitVec.ofNat w (2 ^ (size * 8 - 1)) := by
  rw [signBit_toNat (by omega), Nat.mod_eq_of_lt (Nat.pow_lt_pow_right (by decide) (by omega))]

theorem signBit_zero {w size : ℕ} (hw : 8 * size ≤ w) (hsize : sizeT < 8 * size) :
    signBit sizeT w size = 0#w := by
  rw [signBit_toNat (by omega), Nat.mod_eq_zero_of_dvd (Nat.pow_dvd_pow 2 (by omega))]

theorem pow_256 (k : ℕ) : 256 ^ k = 2 ^ (8 * k) := by
  rw [Nat.pow_mul]

/-- The bits of a number that do not fit are the same for both signs. -/
theorem ofInt_signed {n : ℕ} {l : List UInt8} (h : n ≤ l.length) :
    BitVec.ofInt (8 * n) (signed l) = BitVec.ofNat (8 * n) (unsigned l) := by
  unfold signed
  split_ifs
  · exact BitVec.ofInt_natCast ..
  · have hdvd : 2 ^ (8 * n) ∣ 256 ^ l.length := by
      rw [pow_256]
      exact Nat.pow_dvd_pow 2 (by omega)
    have hzero : BitVec.ofNat (8 * n) (256 ^ l.length) = 0#(8 * n) := by
      refine BitVec.eq_of_toNat_eq ?_
      rw [BitVec.toNat_ofNat, Nat.mod_eq_zero_of_dvd hdvd]
      rfl
    have hcast : ((256 : ℤ) ^ l.length) = ((256 ^ l.length : ℕ) : ℤ) := by
      push_cast
      rfl
    rw [hcast, Int.sub_eq_add_neg, BitVec.ofInt_add, BitVec.ofInt_neg, BitVec.ofInt_natCast,
      BitVec.ofInt_natCast, hzero, BitVec.neg_zero, BitVec.add_zero]

/-- Without its sign, a negative number is another one in more bits. -/
theorem ofInt_unsigned_iff {n : ℕ} {l : List UInt8} (h : l.length < n) :
    BitVec.ofNat (8 * n) (unsigned l) = BitVec.ofInt _ (signed l) ↔ 0 ≤ signed l := by
  have hlt := unsigned_lt l
  have hcast : ((256 : ℤ) ^ l.length) = ((256 ^ l.length : ℕ) : ℤ) := by
    push_cast
    rfl
  unfold signed
  split_ifs
  · exact iff_of_true (BitVec.ofInt_natCast ..).symm (Int.natCast_nonneg _)
  · refine iff_of_false (fun heq => ?_) (by rw [hcast]; omega)
    have hpow : 256 ^ l.length < 2 ^ (8 * n) := by
      rw [pow_256]
      exact Nat.pow_lt_pow_right (by decide) (by omega)
    rw [hcast, Int.sub_eq_add_neg, BitVec.ofInt_add, BitVec.ofInt_neg, BitVec.ofInt_natCast,
      BitVec.ofInt_natCast, ← BitVec.sub_eq_add_neg] at heq
    have hzero := congrArg BitVec.toNat (sub_eq_self.1 heq.symm)
    rw [BitVec.toNat_ofNat, Nat.mod_eq_of_lt hpow] at hzero
    exact absurd hzero (Nat.pow_pos (by decide)).ne'

/-- The sign of a number that fits is extended. -/
theorem ofInt_extended {w : ℕ} {l : List UInt8} (hpos : 0 < l.length) :
    (BitVec.ofNat w (unsigned l) ^^^ BitVec.ofNat w (2 ^ (l.length * 8 - 1)))
      - BitVec.ofNat w (2 ^ (l.length * 8 - 1)) = BitVec.ofInt w (signed l) := by
  have hpow : 256 ^ l.length = 2 ^ (l.length * 8 - 1 + 1) := by
    rw [pow_256]
    congr 1
    omega
  have hlt := unsigned_lt l
  rw [hpow] at hlt
  rw [xor_sub hlt]
  unfold signed
  have hiff : unsigned l < 2 ^ (l.length * 8 - 1) ↔ 2 * unsigned l < 256 ^ l.length := by
    rw [hpow, Nat.pow_succ]
    omega
  have hcast : ((256 : ℤ) ^ l.length) = 2 ^ (l.length * 8 - 1 + 1) := by
    exact_mod_cast hpow
  rw [hcast]
  simp only [hiff]

theorem read_advance {n size : ℕ} {isSigned : Bool} (h : size ≤ c.available)
    (hd : (Op.read n size isSigned).Defined sizeT) : c.read sizeT n size isSigned
      = (BitVec.ofInt _ (number c.bigEndian isSigned (c.ahead.take size)), c.advance size h) := by
  have hlen : (c.ahead.take size).length = size :=
    List.length_take_of_le (h.trans_eq (length_ahead c).symm)
  unfold read number
  rw [dif_pos h]
  simp only [shiftIn_eq]
  generalize hl : (if c.bigEndian then (c.ahead.take size).reverse else c.ahead.take size) = l
  have hlen' : l.length = size := by
    rw [← hl, length_inOrder, hlen]
  subst hlen'
  rcases isSigned with _ | _
  · rfl
  · obtain ⟨hpos, hsize⟩ := hd rfl
    by_cases hn : l.length < n
    · rw [if_pos ⟨rfl, hn⟩, signBit_eq hpos (by omega) (hsize hn), ofInt_extended hpos]
      rfl
    · rw [if_neg fun h => hn h.2, if_pos rfl, ofInt_signed (Nat.not_lt.1 hn)]

/-! ## Calls -/

/-- A call either gets what it asks for, or runs off the end. -/
def Leads (c : ByteCursor) (op : Op) (v : Value) (c' : ByteCursor) : Prop :=
  c'.buffer = c.buffer ∧ (c'.complete = false
    ∨ c'.complete = c.complete ∧ Gets c.buffer c.bigEndian c.here op v c'.bigEndian c'.here)

theorem leads_fail {op : Op} {v : Value} : Leads c op v c.fail := ⟨rfl, .inl rfl⟩

theorem at_ahead (c : ByteCursor) (n : ℕ) : At c.buffer c.here (c.ahead.take n) :=
  At.of_take c.here_le n

theorem length_take_ahead {n : ℕ} (h : n ≤ c.available) : (c.ahead.take n).length = n :=
  List.length_take_of_le (h.trans_eq (length_ahead c).symm)

theorem idxOf_append_zero {s rest : List UInt8} (h : 0 ∉ s) :
    (s ++ 0 :: rest).idxOf 0 = s.length := by
  rw [List.idxOf_append_of_notMem h, List.idxOf_cons_self]
  rfl

/-- The string up to the next NUL. -/
theorem gets_cString (c : ByteCursor) (hn : 0 ∈ c.ahead) : Gets c.buffer c.bigEndian c.here .cString
    (.bytes (c.ahead.take (c.ahead.idxOf 0))) c.bigEndian (c.here + (c.ahead.idxOf 0 + 1)) := by
  obtain ⟨s, rest, hs, hmem⟩ := List.eq_append_cons_of_mem hn
  have hat := at_ahead c (s.length + 1)
  rw [hs, List.append_cons, List.take_left' (by simp)] at hat
  rw [hs, idxOf_append_zero hmem, List.take_left]
  exact .cString hat hmem

/-- The string within a limit, which ends at a NUL if there is one. -/
theorem gets_cStringWithin {limit : ℕ} (hn : limit ≤ c.available) :
    Gets c.buffer c.bigEndian c.here (.cStringWithin limit)
      (.bytes (if 0 ∈ c.ahead.take limit
        then (c.ahead.take limit).take ((c.ahead.take limit).idxOf 0) else c.ahead.take limit))
      c.bigEndian (c.here + limit) := by
  have hat := at_ahead c limit
  have hlen := length_take_ahead hn
  generalize c.ahead.take limit = l at hat hlen
  subst hlen
  split_ifs with hmem
  · obtain ⟨s, rest, rfl, hs⟩ := List.eq_append_cons_of_mem hmem
    rw [idxOf_append_zero hs, List.take_left]
    exact .padded hat hs
  · exact .full hat hmem

theorem leads_call {op : Op} {v : Value} (hd : op.Defined sizeT)
    (h : c.call sizeT op = some (v, c')) : Leads c op v c' := by
  rcases op with ⟨n, size, isSigned⟩ | size | _ | limit | size | size | big | here
  · change some (Value.int n (c.read sizeT n size isSigned).1, (c.read sizeT n size isSigned).2) = _
      at h
    by_cases hn : size ≤ c.available
    · rw [read_advance hn hd] at h
      cases h
      have hget : Gets c.buffer c.bigEndian c.here
          (.read n (c.ahead.take size).length isSigned) _ _ _ := .read (at_ahead c size)
      rw [length_take_ahead hn] at hget
      exact ⟨rfl, .inr ⟨rfl, hget⟩⟩
    · unfold read at h
      rw [dif_neg hn] at h
      cases h
      exact leads_fail
  · rw [call, readBlock] at h
    by_cases hn : size ≤ c.available
    · rw [dif_pos hn] at h
      cases h
      have hget : Gets c.buffer c.bigEndian c.here
          (.readBlock (c.ahead.take size).length) _ _ _ := .readBlock (at_ahead c size)
      rw [length_take_ahead hn] at hget
      exact ⟨rfl, .inr ⟨rfl, hget⟩⟩
    · rw [dif_neg hn] at h
      cases h
      exact leads_fail
  · rw [call, cString] at h
    by_cases hn : 0 ∈ c.ahead
    · rw [dif_pos hn] at h
      cases h
      exact ⟨rfl, .inr ⟨rfl, gets_cString c hn⟩⟩
    · rw [dif_neg hn] at h
      cases h
      exact leads_fail
  · rw [call, cStringWithin] at h
    by_cases hn : limit ≤ c.available
    · rw [dif_pos hn] at h
      cases h
      exact ⟨rfl, .inr ⟨rfl, gets_cStringWithin hn⟩⟩
    · rw [dif_neg hn] at h
      cases h
      exact leads_fail
  · rw [call, pointTo] at h
    by_cases hn : size ≤ c.available
    · rw [dif_pos hn] at h
      cases h
      exact ⟨rfl, .inr ⟨rfl, .pointTo (c.advance size hn).here_le⟩⟩
    · rw [dif_neg hn] at h
      cases h
      exact leads_fail
  · rw [call, skip] at h
    by_cases hn : size ≤ c.available
    · rw [dif_pos hn] at h
      cases h
      exact ⟨rfl, .inr ⟨rfl, .skip (c.advance size hn).here_le⟩⟩
    · rw [dif_neg hn] at h
      cases h
      exact leads_fail
  · cases h
    exact ⟨rfl, .inr ⟨rfl, .setBigEndian⟩⟩
  · rw [call, setHere] at h
    by_cases hn : here ≤ c.buffer.length
    · rw [dif_pos hn] at h
      cases h
      exact ⟨rfl, .inr ⟨rfl, .setHere hn⟩⟩
    · rw [dif_neg hn] at h
      cases h

/-- Bytes that are there are available. -/
theorem ahead_of_at {l : List UInt8} (h : At c.buffer c.here l) :
    l.length ≤ c.available ∧ c.ahead.take l.length = l := by
  obtain ⟨post, hpost⟩ := h.drop_eq
  have hle := h.length_le
  unfold available ahead
  rw [hpost, List.take_left]
  exact ⟨by omega, rfl⟩

theorem available_of_le {size : ℕ} (h : c.here + size ≤ c.buffer.length) : size ≤ c.available := by
  unfold available
  omega

/-- What is in the buffer is got. -/
theorem call_of_gets {op : Op} {v : Value} {big : Bool} {pos : ℕ} (hd : op.Defined sizeT)
    (h : Gets c.buffer c.bigEndian c.here op v big pos) :
    ∃ hle, c.call sizeT op = some (v, ⟨c.buffer, pos, big, c.complete, hle⟩) := by
  cases h with
  | @read n isSigned l hat =>
    obtain ⟨hn, htake⟩ := ahead_of_at hat
    refine ⟨(c.advance l.length hn).here_le, ?_⟩
    show some (Value.int n (c.read sizeT n l.length isSigned).1,
      (c.read sizeT n l.length isSigned).2) = _
    rw [read_advance hn hd, htake]
    rfl
  | @readBlock l hat =>
    obtain ⟨hn, htake⟩ := ahead_of_at hat
    refine ⟨(c.advance l.length hn).here_le, ?_⟩
    rw [call, readBlock, dif_pos hn, htake]
    rfl
  | @cString s hat hs =>
    obtain ⟨post, hpost⟩ := hat.drop_eq
    rw [← List.append_cons] at hpost
    have hmem : 0 ∈ c.ahead := by
      unfold ahead
      rw [hpost]
      simp
    refine ⟨hat.length_le.trans' (by simp), ?_⟩
    rw [call, cString, dif_pos hmem]
    have hidx : c.ahead.idxOf 0 = s.length := by
      unfold ahead
      rw [hpost, idxOf_append_zero hs]
    have htake : c.ahead.take s.length = s := by
      unfold ahead
      rw [hpost, List.take_left]
    simp only [hidx, htake]
    rfl
  | @full l hat hs =>
    obtain ⟨hn, htake⟩ := ahead_of_at hat
    refine ⟨(c.advance l.length hn).here_le, ?_⟩
    rw [call, cStringWithin, dif_pos hn]
    simp only [htake, if_neg hs]
    rfl
  | @padded s rest hat hs =>
    obtain ⟨hn, htake⟩ := ahead_of_at hat
    have hmem : 0 ∈ s ++ 0 :: rest := List.mem_append_right s List.mem_cons_self
    refine ⟨(c.advance _ hn).here_le, ?_⟩
    rw [call, cStringWithin, dif_pos hn]
    simp only [htake, if_pos hmem, idxOf_append_zero hs, List.take_left]
    rfl
  | pointTo hat =>
    refine ⟨hat, ?_⟩
    rw [call, pointTo, dif_pos (available_of_le hat)]
    rfl
  | skip hat =>
    refine ⟨hat, ?_⟩
    rw [call, skip, dif_pos (available_of_le hat)]
    rfl
  | setBigEndian => exact ⟨c.here_le, rfl⟩
  | setHere hle =>
    refine ⟨hle, ?_⟩
    rw [call, setHere, dif_pos hle]
    rfl

/-! ## Runs -/

theorem run_cons {op : Op} {ops : List Op} {vs : List Value}
    (h : run sizeT (op :: ops) c = some (vs, c')) : ∃ v vs' c₁, vs = v :: vs'
      ∧ c.call sizeT op = some (v, c₁) ∧ run sizeT ops c₁ = some (vs', c') := by
  rw [run] at h
  obtain ⟨⟨v, c₁⟩, hcall, h⟩ := Option.bind_eq_some_iff.1 h
  obtain ⟨⟨vs', c₂⟩, hrun, h⟩ := Option.bind_eq_some_iff.1 h
  cases h
  exact ⟨v, vs', c₁, rfl, hcall, hrun⟩

/-- A cursor that is complete after a run has got all that the run asks for. -/
theorem gets_of_run : ∀ {ops : List Op} {vs : List Value} {c : ByteCursor},
    (∀ op ∈ ops, op.Defined sizeT) → run sizeT ops c = some (vs, c') → c'.complete →
      c.complete ∧ c'.buffer = c.buffer
        ∧ GetsAll c.buffer c.bigEndian c.here ops vs c'.bigEndian c'.here
  | [], vs, c, _, h, hc => by
    cases h
    exact ⟨hc, rfl, .nil⟩
  | op :: ops, vs, c, hd, h, hc => by
    obtain ⟨v, vs, c₁, rfl, hcall, hrun⟩ := run_cons h
    obtain ⟨hc₁, hbuf', hgets⟩ :=
      gets_of_run (fun op hop => hd op (List.mem_cons_of_mem _ hop)) hrun hc
    obtain ⟨hbuf, hno | ⟨hcomplete, hget⟩⟩ := leads_call (hd op List.mem_cons_self) hcall
    · rw [hno] at hc₁
      cases hc₁
    · rw [hbuf] at hgets hbuf'
      exact ⟨hcomplete ▸ hc₁, hbuf', .cons hget hgets⟩

theorem run_of_gets {buffer : List UInt8} {big big' : Bool} {pos pos' : ℕ} {ops : List Op}
    {vs : List Value} (h : GetsAll buffer big pos ops vs big' pos') :
    (∀ op ∈ ops, op.Defined sizeT) → ∀ hle, ∃ hle', run sizeT ops ⟨buffer, pos, big, true, hle⟩
      = some (vs, ⟨buffer, pos', big', true, hle'⟩) := by
  induction h with
  | nil => exact fun _ hle => ⟨hle, rfl⟩
  | @cons big big₁ big' pos pos₁ pos' op ops v vs hget hgets ih =>
    intro hd hle
    obtain ⟨hle₁, hcall⟩ := call_of_gets (c := ⟨buffer, pos, big, true, hle⟩)
      (hd op List.mem_cons_self) hget
    obtain ⟨hle', hrun⟩ := ih (fun op hop => hd op (List.mem_cons_of_mem _ hop)) hle₁
    refine ⟨hle', ?_⟩
    rw [run, hcall]
    show (run sizeT ops _ >>= _) = _
    rw [hrun]
    rfl

/-- A run is complete exactly if the buffer holds what its calls ask for, which is then what they
get: numbers with the sign and in the byte order that are asked for, strings up to their NUL, and
blocks. -/
theorem run_complete_iff {buffer : List UInt8} {big big' : Bool} {pos : ℕ} {ops : List Op}
    {vs : List Value} (hd : ∀ op ∈ ops, op.Defined sizeT) :
    (∃ c, run sizeT ops (new buffer big) = some (vs, c) ∧ c.complete ∧ c.bigEndian = big'
        ∧ c.here = pos)
      ↔ GetsAll buffer big 0 ops vs big' pos := by
  constructor
  · rintro ⟨c, hrun, hc, rfl, rfl⟩
    exact (gets_of_run hd hrun hc).2.2
  · intro h
    obtain ⟨hle, hrun⟩ := run_of_gets h hd (Nat.zero_le _)
    exact ⟨_, hrun, rfl, rfl, rfl⟩

/-- A buffer with a number of one byte, one of two bytes in the other byte order, and a string. -/
theorem run_complete_iff_three : GetsAll [1, 255, 254, 97, 0] false 0
    [.read 4 1 false, .setBigEndian true, .read 4 2 true, .cString]
    [.int 4 1, .nothing, .int 4 (-2), .bytes [97]] true 5 :=
  (run_complete_iff (show ∀ op ∈ [Op.read 4 1 false, .setBigEndian true, .read 4 2 true, .cString],
    op.Defined 64 by simp [Op.Defined])).1 ⟨_, rfl, rfl, rfl, rfl⟩

/-- Where the sign of a number is to be extended but its bits do not fit a `size_t`, what is read is
the number without a sign, so that a negative one comes out wrong. -/
theorem read_signed_iff {n size : ℕ} (hpos : 0 < size) (hn : size < n) (h : size ≤ c.available) :
    (c.read sizeT n size true).1
        = BitVec.ofInt _ (number c.bigEndian true (c.ahead.take size))
      ↔ 8 * size ≤ sizeT ∨ 0 ≤ number c.bigEndian true (c.ahead.take size) := by
  by_cases hsize : 8 * size ≤ sizeT
  · rw [read_advance h fun _ => ⟨hpos, fun _ => hsize⟩]
    exact ⟨fun _ => .inl hsize, fun _ => rfl⟩
  · have hlen := length_take_ahead h
    unfold read number
    rw [dif_pos h]
    rw [signBit_zero (show 8 * size ≤ 8 * n by omega) (Nat.not_le.1 hsize)]
    simp only [shiftIn_eq, if_true, if_pos (And.intro trivial hn)]
    generalize hl : (if c.bigEndian then (c.ahead.take size).reverse else c.ahead.take size) = l
    have hlen' : l.length = size := by
      rw [← hl, length_inOrder, hlen]
    rw [BitVec.xor_zero, BitVec.sub_zero, ofInt_unsigned_iff (hlen'.trans_lt hn)]
    exact ⟨.inr, fun h => h.resolve_left hsize⟩

example : ((new [255, 255, 255, 255, 255] false).read 32 8 5 true).1 = 0xffffffffff := by decide

end Xrash.ByteCursor
