import Xrash.Lib.Bytes

/-!
# The byte cursor

`ByteCursor` reads numbers, strings and blocks off a buffer one after the other. Where it would run
off the end of the buffer it stays there, and is not complete any more. `sizeT` is the number of
bits of a `size_t`, and an integer type is given by its `sizeof`.
-/

namespace Xrash

/-- A cursor that has not left its buffer. -/
structure ByteCursor where
  buffer : List UInt8
  here : ℕ
  bigEndian : Bool
  complete : Bool
  here_le : here ≤ buffer.length

namespace ByteCursor

def new (buffer : List UInt8) (bigEndian : Bool) : ByteCursor :=
  ⟨buffer, 0, bigEndian, true, Nat.zero_le _⟩

def available (c : ByteCursor) : ℕ := c.buffer.length - c.here

/-- The bytes at the cursor. -/
def ahead (c : ByteCursor) : List UInt8 := c.buffer.drop c.here

theorem length_ahead (c : ByteCursor) : c.ahead.length = c.available := List.length_drop

def advance (c : ByteCursor) (size : ℕ) (h : size ≤ c.available) : ByteCursor where
  buffer := c.buffer
  here := c.here + size
  bigEndian := c.bigEndian
  complete := c.complete
  here_le := by
    have := c.here_le
    unfold available at h
    omega

/-- What `CheckAvailable` leaves where there are too few bytes. -/
def fail (c : ByteCursor) : ByteCursor where
  buffer := c.buffer
  here := c.buffer.length
  bigEndian := c.bigEndian
  complete := false
  here_le := Nat.le_refl _

/-- The loops of `Read`, which shift one byte after the other into the number. -/
def shiftIn (w : ℕ) (bytes : List UInt8) : BitVec w :=
  bytes.foldl (fun v b => (v <<< 8) + BitVec.ofNat w b.toNat) 0

/-- `sign_bit`, which is a `size_t`. -/
def signBit (sizeT w size : ℕ) : BitVec w :=
  (((1 : BitVec w) <<< (size * 8 - 1)).setWidth sizeT).setWidth w

/-- `Read`, which is `operator>>` where `size` is the `n` bytes of the type. -/
def read (sizeT n size : ℕ) (isSigned : Bool) (c : ByteCursor) : BitVec (8 * n) × ByteCursor :=
  if h : size ≤ c.available then
    let bytes := c.ahead.take size
    let v := shiftIn (8 * n) (if c.bigEndian then bytes else bytes.reverse)
    let s := signBit sizeT (8 * n) size
    (if isSigned ∧ size < n then (v ^^^ s) - s else v, c.advance size h)
  else (BitVec.ofNat _ 0xdeadbeef, c.fail)

/-- The `Read` of a block, which leaves the caller's buffer as it is where it fails. -/
def readBlock (size : ℕ) (c : ByteCursor) : Option (List UInt8) × ByteCursor :=
  if h : size ≤ c.available then (some (c.ahead.take size), c.advance size h) else (none, c.fail)

def cString (c : ByteCursor) : List UInt8 × ByteCursor :=
  if h : 0 ∈ c.ahead then
    (c.ahead.take (c.ahead.idxOf 0), c.advance (c.ahead.idxOf 0 + 1) (by
      rw [← length_ahead]
      exact List.idxOf_lt_length_of_mem h))
  else ([], c.fail)

/-- `CString` with a limit. -/
def cStringWithin (limit : ℕ) (c : ByteCursor) : List UInt8 × ByteCursor :=
  if h : limit ≤ c.available then
    let bytes := c.ahead.take limit
    (if 0 ∈ bytes then bytes.take (bytes.idxOf 0) else bytes, c.advance limit h)
  else ([], c.fail)

def pointTo (size : ℕ) (c : ByteCursor) : Option ℕ × ByteCursor :=
  if h : size ≤ c.available then (some c.here, c.advance size h) else (none, c.fail)

def skip (size : ℕ) (c : ByteCursor) : ByteCursor :=
  if h : size ≤ c.available then c.advance size h else c.fail

/-- `set_here`, if its assertion holds. -/
def setHere (here : ℕ) (c : ByteCursor) : Option ByteCursor :=
  if h : here ≤ c.buffer.length then some ⟨c.buffer, here, c.bigEndian, c.complete, h⟩ else none

/-! ## Runs -/

/-- A call. The first `read` is of an integer type of `n` bytes. -/
inductive Op
  | read (n size : ℕ) (isSigned : Bool)
  | readBlock (size : ℕ)
  | cString
  | cStringWithin (limit : ℕ)
  | pointTo (size : ℕ)
  | skip (size : ℕ)
  | setBigEndian (bigEndian : Bool)
  | setHere (here : ℕ)

/-- What a call stores for its caller. -/
inductive Value
  | int (n : ℕ) (v : BitVec (8 * n))
  | bytes (l : List UInt8)
  | pointer (p : Option ℕ)
  | nothing
  deriving DecidableEq

def call (sizeT : ℕ) (c : ByteCursor) : Op → Option (Value × ByteCursor)
  | .read n size isSigned =>
    let (v, c) := c.read sizeT n size isSigned
    some (.int n v, c)
  | .readBlock size =>
    match c.readBlock size with
    | (some l, c) => some (.bytes l, c)
    | (none, c) => some (.nothing, c)
  | .cString =>
    let (s, c) := c.cString
    some (.bytes s, c)
  | .cStringWithin limit =>
    let (s, c) := c.cStringWithin limit
    some (.bytes s, c)
  | .pointTo size =>
    let (p, c) := c.pointTo size
    some (.pointer p, c)
  | .skip size => some (.nothing, c.skip size)
  | .setBigEndian bigEndian => some (.nothing, ⟨c.buffer, c.here, bigEndian, c.complete, c.here_le⟩)
  | .setHere here => (c.setHere here).map fun c => (.nothing, c)

/-- The calls one after the other, until an assertion fails. -/
def run (sizeT : ℕ) : List Op → ByteCursor → Option (List Value × ByteCursor)
  | [], c => some ([], c)
  | op :: ops, c => do
    let (v, c) ← c.call sizeT op
    let (vs, c) ← run sizeT ops c
    return (v :: vs, c)

end ByteCursor

end Xrash
