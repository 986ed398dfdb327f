import QdayNode.Library.Outcome

/-!
# Double-word arithmetic on 64-bit words

Carrying addition, borrowing subtraction, widening multiplication and the division
of two words by one.  Each specification is an equation between naturals in which
nothing is lost.
-/
namespace Word64

variable {hi lo : UInt64} {x k : ℕ}

/-- The number written with low word `lo` and high word `hi`. -/
def join (hi lo : UInt64) : ℕ := hi.toNat * 2^64 + lo.toNat

theorem join_lt (hi lo : UInt64) : join hi lo < 2^128 := by
  have := hi.toNat_lt
  have := lo.toNat_lt
  unfold join
  omega

theorem join_inj {hi' lo' : UInt64} (h : join hi lo = join hi' lo') : hi = hi' ∧ lo = lo' := by
  have := lo.toNat_lt
  have := lo'.toNat_lt
  unfold join at h
  exact ⟨UInt64.toNat_inj.mp (by omega),UInt64.toNat_inj.mp (by omega)⟩

theorem toNat_ofNat_of_lt (h : x < 2^64) : (UInt64.ofNat x).toNat = x := by
  rw [UInt64.toNat_ofNat',Nat.mod_eq_of_lt h]

def add64 (x y carry : UInt64) : UInt64 × UInt64 :=
  let s := x.toNat + y.toNat + carry.toNat
  (UInt64.ofNat s, UInt64.ofNat (s / 2^64))

def sub64 (x y borrow : UInt64) : UInt64 × UInt64 :=
  (x - y - borrow, if x.toNat < y.toNat + borrow.toNat then 1 else 0)

def mul64 (x y : UInt64) : UInt64 × UInt64 :=
  (UInt64.ofNat (x.toNat * y.toNat / 2^64), UInt64.ofNat (x.toNat * y.toNat))

/-- Quotient and remainder of `(hi, lo)` by `y`; the quotient has to fit one word. -/
def div64 (hi lo y : UInt64) : Outcome (UInt64 × UInt64) :=
  if y = 0 then Outcome.crash "integer divide by zero"
  else if y ≤ hi then Outcome.crash "integer overflow"
  else .ok (UInt64.ofNat (join hi lo / y.toNat), UInt64.ofNat (join hi lo % y.toNat))

theorem add64_spec (x y carry : UInt64) (hc : carry.toNat ≤ 1) :
    join (add64 x y carry).2 (add64 x y carry).1 = x.toNat + y.toNat + carry.toNat ∧
      (add64 x y carry).2.toNat ≤ 1 := by
  have := x.toNat_lt
  have := y.toNat_lt
  simp only [join,add64,UInt64.toNat_ofNat']
  omega

theorem sub64_spec (x y borrow : UInt64) (hb : borrow.toNat ≤ 1) :
    (sub64 x y borrow).1.toNat + y.toNat + borrow.toNat =
        x.toNat + (sub64 x y borrow).2.toNat * 2^64 ∧ (sub64 x y borrow).2.toNat ≤ 1 := by
  have := x.toNat_lt
  have := y.toNat_lt
  unfold sub64
  rw [UInt64.toNat_sub,UInt64.toNat_sub]
  split_ifs with h
  · rw [UInt64.toNat_one]
    omega
  · rw [UInt64.toNat_zero]
    omega

theorem mul64_spec (x y : UInt64) : join (mul64 x y).1 (mul64 x y).2 = x.toNat * y.toNat := by
  have hlt : x.toNat * y.toNat / 2^64 < 2^64 :=
    Nat.div_lt_of_lt_mul (Nat.mul_lt_mul'' x.toNat_lt y.toNat_lt)
  unfold join mul64
  rw [toNat_ofNat_of_lt hlt,UInt64.toNat_ofNat']
  omega

theorem div64_spec {hi lo y : UInt64} (h : hi < y) :
    ∃ q r : UInt64, div64 hi lo y = .ok (q, r) ∧
      q.toNat = join hi lo / y.toNat ∧ r.toNat = join hi lo % y.toNat := by
  have hlt : hi.toNat < y.toNat := UInt64.lt_iff_toNat_lt.mp h
  have hy := y.toNat_lt
  have hlo := lo.toNat_lt
  have hq : join hi lo / y.toNat < 2^64 := by
    refine Nat.div_lt_of_lt_mul ?_
    unfold join
    nlinarith
  have hr : join hi lo % y.toNat < 2^64 := (Nat.mod_lt _ (by omega)).trans hy
  refine ⟨_,_,?_,toNat_ofNat_of_lt hq,toNat_ofNat_of_lt hr⟩
  rw [div64,if_neg,if_neg (UInt64.not_le.mpr h)]
  rintro rfl
  simp at hlt

theorem schoolbook_div (base hi lo : ℕ) {v : ℕ} (hv : 0 < v) :
    hi / v * base + (hi % v * base + lo) / v = (hi * base + lo) / v := by
  calc hi / v * base + (hi % v * base + lo) / v
      = (hi % v * base + lo + v * (hi / v * base)) / v := by
        rw [Nat.add_mul_div_left _ _ hv,Nat.add_comm]
    _ = ((hi % v + v * (hi / v)) * base + lo) / v := by
        congr 1
        ring
    _ = (hi * base + lo) / v := by rw [Nat.mod_add_div]

/-- The number of trailing zero bits; 64 for zero. -/
def trailingZeros64 (x : ℕ) : ℕ := ((List.range 64).find? x.testBit).getD 64

theorem trailingZeros64_eq (hk : k < 64) (hdvd : 2^k ∣ x) (hodd : x / 2^k % 2 = 1) : trailingZeros64 x = k := by
  have hbit : x.testBit k = true := by rw [Nat.testBit_eq_decide_div_mod_eq,decide_eq_true_iff,hodd]
  have hlow : ∀ j, j < k → x.testBit j = false := by
    intro j hj
    obtain ⟨d,rfl⟩ := hdvd
    rw [Nat.testBit_two_pow_mul]
    simp [Nat.not_le.mpr hj]
  have hfind : (List.range 64).find? x.testBit = some k := by
    rw [List.find?_range_eq_some]
    exact ⟨hbit,List.mem_range.mpr hk,fun j hj => by simp [hlow j hj]⟩
  rw [trailingZeros64,hfind,Option.getD_some]

theorem trailingZeros64_spec (hpos : 0 < x) (hlt : x < 2^64) :
    trailingZeros64 x < 64 ∧ x.testBit (trailingZeros64 x) = true ∧ ∀ j, j < trailingZeros64 x → x.testBit j = false := by
  obtain ⟨i,hi⟩ := Nat.exists_testBit_of_ne_zero hpos.ne'
  have hi64 : i < 64 := by
    by_contra hge
    have hbig : x < 2^i := hlt.trans_le (Nat.pow_le_pow_right (by omega) (by omega))
    rw [Nat.testBit_lt_two_pow hbig] at hi
    cases hi
  obtain ⟨k,hk⟩ := Option.isSome_iff_exists.mp (List.find?_isSome.mpr ⟨i,List.mem_range.mpr hi64,hi⟩)
  have htz : trailingZeros64 x = k := by rw [trailingZeros64,hk,Option.getD_some]
  obtain ⟨hbit,hmem,hlow⟩ := List.find?_range_eq_some.mp hk
  rw [htz]
  refine ⟨List.mem_range.mp hmem,hbit,fun j hj => ?_⟩
  simpa using hlow j hj

theorem trailingZeros64_two_pow (hk : k < 64) : trailingZeros64 (2^k) = k :=
  trailingZeros64_eq hk dvd_rfl (by rw [Nat.div_self (Nat.two_pow_pos k)])

end Word64
