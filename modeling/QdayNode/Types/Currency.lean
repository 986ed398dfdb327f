import QdayNode.Library.ByteString
import QdayNode.Library.Word64

/-!
# Currency

A quantity of hastings: two 64-bit words, added and multiplied word by word as in
`types/currency.go`.  The specifications read a currency as the natural number it
denotes; an operation panics exactly when that number does not fit.
-/
namespace QdayNode
open ByteString Word64 Outcome

/-- An unsigned 128-bit number of hastings. -/
structure Currency where
  lo : UInt64
  hi : UInt64
  deriving DecidableEq, Repr, Inhabited

namespace Currency

def toNat (c : Currency) : ℕ := join c.hi c.lo

def zeroCurrency : Currency := ⟨0, 0⟩

def hastingsPerSiacoin : Currency := ⟨2003764205206896640, 54210⟩

def newCurrency64 (c : UInt64) : Currency := ⟨c, 0⟩

def isZero (c : Currency) : Bool := c = zeroCurrency

def lt (c v : Currency) : Bool := decide (c.hi < v.hi) || (decide (c.hi = v.hi) && decide (c.lo < v.lo))

def addWithOverflow (c v : Currency) : Currency × Bool :=
  let (lo, carry) := add64 c.lo v.lo 0
  let (hi, carry) := add64 c.hi v.hi carry
  (⟨lo, hi⟩, carry ≠ 0)

def add (c v : Currency) : Outcome Currency :=
  let (s, overflow) := c.addWithOverflow v
  if overflow then crash "overflow" else .ok s

def subWithUnderflow (c v : Currency) : Currency × Bool :=
  let (lo, borrow) := sub64 c.lo v.lo 0
  let (hi, borrow) := sub64 c.hi v.hi borrow
  (⟨lo, hi⟩, borrow ≠ 0)

def sub (c v : Currency) : Outcome Currency :=
  let (s, underflow) := c.subWithUnderflow v
  if underflow then crash "underflow" else .ok s

def mul64WithOverflow (c : Currency) (v : UInt64) : Currency × Bool :=
  let (hi0, lo0) := mul64 c.lo v
  let (hi1, lo1) := mul64 c.hi v
  let (hi2, c0) := add64 hi0 lo1 0
  (⟨lo0, hi2⟩, hi1 ≠ 0 || c0 ≠ 0)

def mul64 (c : Currency) (v : UInt64) : Outcome Currency :=
  let (s, overflow) := c.mul64WithOverflow v
  if overflow then crash "overflow" else .ok s

def quoRem64 (c : Currency) (v : UInt64) : Outcome (Currency × UInt64) :=
  if c.hi < v then do
    let (lo, r) ← div64 c.hi c.lo v
    return (⟨lo, 0⟩, r)
  else do
    let (hi, r) ← div64 0 c.hi v
    let (lo, r) ← div64 r c.lo v
    return (⟨lo, hi⟩, r)

def div64 (c : Currency) (v : UInt64) : Outcome Currency := do
  let (q, _) ← c.quoRem64 v
  return q

def siacoins (n : UInt32) : Outcome Currency := hastingsPerSiacoin.mul64 n.toUInt64

def encodeV2 (c : Currency) : Bytes := encodeUint64 c.lo ++ encodeUint64 c.hi

/-- `V1Currency.EncodeTo`: big-endian without leading zeros, behind its length. -/
def encodeV1 (c : Currency) : Bytes :=
  encodeBytes ((bigEndian 8 c.hi.toNat ++ bigEndian 8 c.lo.toNat).dropWhile (· = 0))

theorem toNat_lt (c : Currency) : c.toNat < 2^128 := join_lt c.hi c.lo

variable {c v w : Currency}

theorem toNat_inj (h : c.toNat = v.toNat) : c = v := by
  obtain ⟨hhi,hlo⟩ := join_inj h
  cases c
  cases v
  simp_all

theorem exists_toNat {n : ℕ} (h : n < 2^128) : ∃ c : Currency, c.toNat = n := by
  refine ⟨⟨UInt64.ofNat n,UInt64.ofNat (n / 2^64)⟩,?_⟩
  rw [toNat,join,toNat_ofNat_of_lt (by omega),UInt64.toNat_ofNat']
  omega

@[simp] theorem toNat_zeroCurrency : zeroCurrency.toNat = 0 := by decide

theorem isZero_iff (c : Currency) : c.isZero = true ↔ c.toNat = 0 := by
  rw [isZero,decide_eq_true_iff]
  exact ⟨fun h => by rw [h,toNat_zeroCurrency],fun h => toNat_inj (by rw [h,toNat_zeroCurrency])⟩

theorem lt_iff (c v : Currency) : c.lt v = true ↔ c.toNat < v.toNat := by
  have := c.lo.toNat_lt
  have := v.lo.toNat_lt
  simp only [lt,toNat,join,Bool.or_eq_true,Bool.and_eq_true,decide_eq_true_iff,UInt64.lt_iff_toNat_lt,
    ← UInt64.toNat_inj]
  omega

theorem addWithOverflow_spec (c v : Currency) :
    (c.addWithOverflow v).1.toNat = (c.toNat + v.toNat) % 2^128 ∧
      ((c.addWithOverflow v).2 = true ↔ 2^128 ≤ c.toNat + v.toNat) := by
  obtain ⟨hlo,hcarry⟩ := add64_spec c.lo v.lo 0 (by decide)
  obtain ⟨hhi,hcarry'⟩ := add64_spec c.hi v.hi (add64 c.lo v.lo 0).2 hcarry
  have hzero := UInt64.toNat_inj (a := (add64 c.hi v.hi (add64 c.lo v.lo 0).2).2) (b := 0)
  have := (add64 c.lo v.lo 0).1.toNat_lt
  have := (add64 c.hi v.hi (add64 c.lo v.lo 0).2).1.toNat_lt
  simp only [addWithOverflow,toNat,join,ne_eq,decide_not,Bool.not_eq_true',decide_eq_false_iff_not,
    ← hzero,UInt64.toNat_zero] at *
  omega

theorem add_eq_ok : c.add v = .ok w ↔ c.toNat + v.toNat = w.toNat := by
  obtain ⟨hval,hover⟩ := addWithOverflow_spec c v
  have := w.toNat_lt
  unfold add
  cases h : (c.addWithOverflow v).2 with
  | true =>
    have := hover.mp h
    simp only [h,if_true,crash_ne_ok,false_iff]
    omega
  | false =>
    have hlt : ¬ 2^128 ≤ c.toNat + v.toNat := fun hge => by simp [hover.mpr hge] at h
    rw [Nat.mod_eq_of_lt (by omega)] at hval
    simp only [h,Bool.false_eq_true,if_false,Except.ok.injEq,← hval]
    exact ⟨fun hw => by rw [hw],toNat_inj⟩

theorem subWithUnderflow_spec (c v : Currency) :
    ((c.subWithUnderflow v).2 = true ↔ c.toNat < v.toNat) ∧
      (v.toNat ≤ c.toNat → (c.subWithUnderflow v).1.toNat + v.toNat = c.toNat) := by
  obtain ⟨hlo,hborrow⟩ := sub64_spec c.lo v.lo 0 (by decide)
  obtain ⟨hhi,hborrow'⟩ := sub64_spec c.hi v.hi (sub64 c.lo v.lo 0).2 hborrow
  have hzero := UInt64.toNat_inj (a := (sub64 c.hi v.hi (sub64 c.lo v.lo 0).2).2) (b := 0)
  have := (sub64 c.lo v.lo 0).1.toNat_lt
  have := (sub64 c.hi v.hi (sub64 c.lo v.lo 0).2).1.toNat_lt
  have := c.lo.toNat_lt
  have := v.lo.toNat_lt
  have := c.hi.toNat_lt
  have := v.hi.toNat_lt
  simp only [subWithUnderflow,toNat,join,ne_eq,decide_not,Bool.not_eq_true',decide_eq_false_iff_not,
    ← hzero,UInt64.toNat_zero] at *
  omega

theorem sub_eq_ok : c.sub v = .ok w ↔ w.toNat + v.toNat = c.toNat := by
  obtain ⟨hunder,hval⟩ := subWithUnderflow_spec c v
  unfold sub
  cases h : (c.subWithUnderflow v).2 with
  | true =>
    have := hunder.mp h
    simp only [h,if_true,crash_ne_ok,false_iff]
    omega
  | false =>
    have hle : v.toNat ≤ c.toNat := not_lt.mp fun hlt => by simp [hunder.mpr hlt] at h
    simp only [h,Bool.false_eq_true,if_false,Except.ok.injEq,← hval hle]
    exact ⟨fun hw => by rw [hw],fun hw => toNat_inj (by omega)⟩

/-- Multiplication overflows exactly when the product needs more than 128 bits. -/
theorem mul64WithOverflow_spec (c : Currency) (v : UInt64) :
    ((c.mul64WithOverflow v).2 = true ↔ 2^128 ≤ c.toNat * v.toNat) ∧
      (c.toNat * v.toNat < 2^128 → (c.mul64WithOverflow v).1.toNat = c.toNat * v.toNat) := by
  have hlo := mul64_spec c.lo v
  have hhi := mul64_spec c.hi v
  obtain ⟨hsum,hcarry⟩ := add64_spec (Word64.mul64 c.lo v).1 (Word64.mul64 c.hi v).2 0 (by decide)
  have hprod : c.toNat * v.toNat = c.hi.toNat * v.toNat * 2^64 + c.lo.toNat * v.toNat := by
    unfold toNat join
    ring
  have hhi0 := UInt64.toNat_inj (a := (Word64.mul64 c.hi v).1) (b := 0)
  have hc0 := UInt64.toNat_inj (a := (add64 (Word64.mul64 c.lo v).1 (Word64.mul64 c.hi v).2 0).2) (b := 0)
  have := (Word64.mul64 c.lo v).2.toNat_lt
  have := (add64 (Word64.mul64 c.lo v).1 (Word64.mul64 c.hi v).2 0).1.toNat_lt
  rw [hprod]
  generalize c.hi.toNat * v.toNat = p at *
  generalize c.lo.toNat * v.toNat = q at *
  simp only [mul64WithOverflow,toNat,join,ne_eq,Bool.or_eq_true,decide_not,Bool.not_eq_true',
    decide_eq_false_iff_not,← hhi0,← hc0,UInt64.toNat_zero] at *
  omega

theorem mul64_eq_ok {v : UInt64} :
    c.mul64 v = .ok w ↔ c.toNat * v.toNat = w.toNat := by
  obtain ⟨hover,hval⟩ := mul64WithOverflow_spec c v
  have := w.toNat_lt
  unfold mul64
  cases h : (c.mul64WithOverflow v).2 with
  | true =>
    have := hover.mp h
    simp only [h,if_true,crash_ne_ok,false_iff]
    omega
  | false =>
    have hlt : c.toNat * v.toNat < 2^128 := not_le.mp fun hge => by simp [hover.mpr hge] at h
    simp only [h,Bool.false_eq_true,if_false,Except.ok.injEq,← hval hlt]
    exact ⟨fun hw => by rw [hw],toNat_inj⟩

theorem quoRem64_returns (c : Currency) {v : UInt64} (hv : v ≠ 0) :
    ∃ q r, c.quoRem64 v = .ok (q, r) ∧ q.toNat = c.toNat / v.toNat ∧ r.toNat = c.toNat % v.toNat := by
  unfold quoRem64
  split_ifs with hlt
  · obtain ⟨q,r,hdiv,hq,hr⟩ := @div64_spec _ c.lo _ hlt
    refine ⟨⟨q,0⟩,r,by rw [hdiv]; rfl,?_,hr⟩
    simp only [toNat,join,UInt64.toNat_zero,hq]
    omega
  · have hpos : (0 : UInt64) < v := UInt64.pos_iff_ne_zero.mpr hv
    have hpos' : 0 < v.toNat := UInt64.lt_iff_toNat_lt.mp hpos
    obtain ⟨q,r,hdiv,hq,hr⟩ := @div64_spec _ c.hi _ hpos
    have hr' : r < v := UInt64.lt_iff_toNat_lt.mpr (by rw [hr]; exact Nat.mod_lt _ hpos')
    obtain ⟨q',r',hdiv',hq',hr''⟩ := @div64_spec _ c.lo _ hr'
    refine ⟨⟨q',q⟩,r',by simp only [hdiv,hdiv',ok_bind]; rfl,?_⟩
    simp only [toNat,join,UInt64.toNat_zero,Nat.zero_mul,Nat.zero_add] at hq hr hq' hr'' ⊢
    rw [hq',hr'',hr,hq,schoolbook_div _ _ _ hpos']
    exact ⟨rfl,((Nat.mod_modEq _ _).mul_right _).add_right _⟩

theorem div64_eq_ok {v : UInt64} (hv : v ≠ 0) :
    c.div64 v = .ok w ↔ w.toNat = c.toNat / v.toNat := by
  obtain ⟨q,r,hrun,hq,-⟩ := quoRem64_returns c hv
  rw [div64,hrun,ok_bind,pure_eq_ok,← hq]
  exact ⟨fun h => by rw [h],fun h => (toNat_inj h).symm⟩

theorem prefixCode_encodeV2 : PrefixCode encodeV2 := by
  refine prefixCode_of_length (n := 16) (fun c => by simp [encodeV2]) fun c v h => ?_
  obtain ⟨hlo,hhi⟩ := prefixCode_encodeUint64.apply h
  exact toNat_inj (by rw [toNat,toNat,hlo,encodeUint64_injective hhi])

@[simp] theorem length_encodeV2 (c : Currency) : c.encodeV2.length = 16 := by simp [encodeV2]

end Currency

end QdayNode
