import QdayNode.Types.Transaction

/-!
# Work and targets

`consensus.Work` is a 256-bit big-endian number handled as four 64-bit words; the
targets of the v1 rules are `big.Int` quotients.  Both panic where Go does.
-/
namespace QdayNode
open ByteString Word64 Outcome

/-- The array `[32]byte` of a `Work`, as the four big-endian words its arithmetic reads. -/
structure Work where
  w0 : UInt64
  w1 : UInt64
  w2 : UInt64
  w3 : UInt64
  deriving DecidableEq, Repr

namespace Work

def toNat (w : Work) : ℕ :=
  ((w.w0.toNat * 2^64 + w.w1.toNat) * 2^64 + w.w2.toNat) * 2^64 + w.w3.toNat

def ofNat (x : ℕ) : Work where
  w0 := UInt64.ofNat (x / 2^192)
  w1 := UInt64.ofNat (x / 2^128)
  w2 := UInt64.ofNat (x / 2^64)
  w3 := UInt64.ofNat x

def encode (w : Work) : Bytes :=
  bigEndian 8 w.w0.toNat ++ bigEndian 8 w.w1.toNat ++ bigEndian 8 w.w2.toNat ++ bigEndian 8 w.w3.toNat

def lt (w v : Work) : Bool := w.toNat < v.toNat

def oneWork : Work := ⟨0, 0, 0, 1⟩

def add (w v : Work) : Outcome Work := do
  let (r3, carry) := add64 w.w3 v.w3 0
  let (r2, carry) := add64 w.w2 v.w2 carry
  let (r1, carry) := add64 w.w1 v.w1 carry
  let (r0, carry) := add64 w.w0 v.w0 carry
  crashIf (carry > 0) "Work.add: overflow"
  return ⟨r0, r1, r2, r3⟩

def sub (w v : Work) : Outcome Work := do
  let (r3, borrow) := sub64 w.w3 v.w3 0
  let (r2, borrow) := sub64 w.w2 v.w2 borrow
  let (r1, borrow) := sub64 w.w1 v.w1 borrow
  let (r0, borrow) := sub64 w.w0 v.w0 borrow
  crashIf (borrow > 0) "Work.sub: underflow"
  return ⟨r0, r1, r2, r3⟩

/-- One word of `mul64`: the product word and the carry into the next. -/
def mulWord (w v carry : UInt64) : UInt64 × UInt64 :=
  let (hi, prod) := Word64.mul64 w v
  let (prod, cc) := add64 prod carry 0
  (prod, hi + cc)

def mul64 (w : Work) (v : UInt64) : Outcome Work := do
  let (r3, carry) := mulWord w.w3 v 0
  let (r2, carry) := mulWord w.w2 v carry
  let (r1, carry) := mulWord w.w1 v carry
  let (r0, carry) := mulWord w.w0 v carry
  crashIf (carry > 0) "Work.mul64: overflow"
  return ⟨r0, r1, r2, r3⟩

def div64 (w : Work) (v : UInt64) : Outcome Work := do
  crashIf (v = 0) "Work.div64: division by zero"
  let (r0, rem) ← Word64.div64 0 w.w0 v
  let (r1, rem) ← Word64.div64 rem w.w1 v
  let (r2, rem) ← Word64.div64 rem w.w2 v
  let (r3, _) ← Word64.div64 rem w.w3 v
  return ⟨r0, r1, r2, r3⟩

def min (w v : Work) : Work := if w.lt v then w else v

def max (w v : Work) : Work := if v.lt w then w else v

end Work

section Targets

def maxTarget : ℕ := 2^256 - 1

def invTarget (n : ℕ) : Outcome ℕ := do
  crashIf (n = 0) "division by zero"
  return maxTarget / n

def intToTarget (i : ℕ) : BlockID := FixedBytes.ofNat 32 (if i ≥ 2^255 then maxTarget else i)

def addTarget (x y : BlockID) : Outcome BlockID := do
  crashIf (x.toNat + y.toNat = 0) "division by zero"
  return intToTarget (x.toNat * y.toNat / (x.toNat + y.toNat))

def mulTargetFrac (x : BlockID) (n d : ℕ) : Outcome BlockID := do
  crashIf (d = 0) "division by zero"
  return intToTarget (x.toNat * n / d)

def lessWork (id t : BlockID) : Bool := t.toNat < id.toNat

end Targets

end QdayNode
