import QdayNode.Types.Currency

/-!
# Products and quotients of currencies

`MulWithOverflow` adds the carry of its first sum to the second instead of reporting it.  The
division by a divisor of two words takes a trial quotient from the leading words: it is never
too small and at most one too large.
-/
namespace QdayNode
open Word64 Outcome

variable {x : UInt64} {n : ℕ} {v : Currency}

namespace Currency

section Product

def mulWithOverflow (c v : Currency) : Currency × Bool :=
  let (hi, lo) := Word64.mul64 c.lo v.lo
  let (p0, p1) := Word64.mul64 c.hi v.lo
  let (p2, p3) := Word64.mul64 c.lo v.hi
  let (hi, c0) := add64 hi p1 0
  let (hi, c1) := add64 hi p3 c0
  (⟨lo, hi⟩, (c.hi ≠ 0 && v.hi ≠ 0) || p0 ≠ 0 || p2 ≠ 0 || c1 ≠ 0)

def mul (c v : Currency) : Outcome Currency :=
  let (s, overflow) := c.mulWithOverflow v
  if overflow then crash "overflow" else .ok s

/-- The product modulo `2^128` with the right flag, and a panic where the flag is set. -/
structure MulExact (c v : Currency) : Prop where
  value : (c.mulWithOverflow v).1.toNat = c.toNat * v.toNat % 2^128
  flag : (c.mulWithOverflow v).2 = true ↔ 2^128 ≤ c.toNat * v.toNat
  panics : c.mul v = crash "overflow" ↔ 2^128 ≤ c.toNat * v.toNat

theorem mul_eq_crash (c v : Currency) : c.mul v = crash "overflow" ↔ (c.mulWithOverflow v).2 = true := by
  rw [mul]
  cases h : (c.mulWithOverflow v).2 with
  | true => simp [h]
  | false => simp [h,crash]

/-- The product is right exactly if the upper half of the product of the low words and the lower
half of the first mixed product have no carry. -/
theorem mulExact_iff (c v : Currency) :
    MulExact c v ↔ c.lo.toNat * v.lo.toNat / 2^64 + c.hi.toNat * v.lo.toNat % 2^64 < 2^64 := by
  have hlow := mul64_spec c.lo v.lo
  have hmid := mul64_spec c.hi v.lo
  have hmid' := mul64_spec c.lo v.hi
  have hprod : c.toNat * v.toNat = c.hi.toNat * v.hi.toNat * 2^128 +
      (c.hi.toNat * v.lo.toNat + c.lo.toNat * v.hi.toNat) * 2^64 + c.lo.toNat * v.lo.toNat := by
    unfold toNat join
    ring
  have hboth : (c.hi ≠ 0 ∧ v.hi ≠ 0) ↔ c.hi.toNat * v.hi.toNat ≠ 0 := by
    rw [Nat.mul_ne_zero_iff,ne_eq,ne_eq,ne_eq,ne_eq,← UInt64.toNat_inj,← UInt64.toNat_inj,UInt64.toNat_zero]
  have hvalue : (c.mulWithOverflow v).1 = ⟨(Word64.mul64 c.lo v.lo).2,(add64 (add64 (Word64.mul64 c.lo v.lo).1
      (Word64.mul64 c.hi v.lo).2 0).1 (Word64.mul64 c.lo v.hi).2 (add64 (Word64.mul64 c.lo v.lo).1 (Word64.mul64 c.hi v.lo).2 0).2).1⟩ := rfl
  have hflag : (c.mulWithOverflow v).2 = true ↔ (c.hi ≠ 0 ∧ v.hi ≠ 0) ∨ (Word64.mul64 c.hi v.lo).1 ≠ 0 ∨ (Word64.mul64 c.lo v.hi).1 ≠ 0 ∨
      (add64 (add64 (Word64.mul64 c.lo v.lo).1 (Word64.mul64 c.hi v.lo).2 0).1 (Word64.mul64 c.lo v.hi).2
        (add64 (Word64.mul64 c.lo v.lo).1 (Word64.mul64 c.hi v.lo).2 0).2).2 ≠ 0 := by
    simp [mulWithOverflow,or_assoc]
  have hexact : MulExact c v ↔ (c.mulWithOverflow v).1.toNat = c.toNat * v.toNat % 2^128 ∧
      ((c.mulWithOverflow v).2 = true ↔ 2^128 ≤ c.toNat * v.toNat) :=
    ⟨fun h => ⟨h.value,h.flag⟩,fun h => ⟨h.1,h.2,(mul_eq_crash c v).trans h.2⟩⟩
  rw [hexact,hvalue,hflag,hboth,hprod]
  generalize Word64.mul64 c.lo v.lo = low at *
  generalize Word64.mul64 c.hi v.lo = mid at *
  generalize Word64.mul64 c.lo v.hi = mid' at *
  obtain ⟨hsum,hcarry⟩ := add64_spec low.1 mid.2 0 (by decide)
  generalize add64 low.1 mid.2 0 = first at *
  obtain ⟨hsum',-⟩ := add64_spec first.1 mid'.2 first.2 hcarry
  generalize add64 first.1 mid'.2 first.2 = second at *
  have := low.2.toNat_lt
  have := mid.2.toNat_lt
  have := mid'.2.toNat_lt
  have := first.1.toNat_lt
  have := second.1.toNat_lt
  generalize c.hi.toNat * v.hi.toNat = d at *
  generalize c.hi.toNat * v.lo.toNat = a at *
  generalize c.lo.toNat * v.hi.toNat = b at *
  generalize c.lo.toNat * v.lo.toNat = l at *
  simp only [toNat,join,ne_eq,← UInt64.toNat_inj,UInt64.toNat_zero] at *
  have hlow' : l / 2^64 = low.1.toNat := by omega
  have hmid'' : a % 2^64 = mid.2.toNat := by omega
  rw [hlow',hmid'']
  obtain hnone | hone : first.2.toNat = 0 ∨ first.2.toNat = 1 := by omega
  · have htotal : d * 2^128 + (a + b) * 2^64 + l =
        (second.1.toNat * 2^64 + low.2.toNat) + 2^128 * (d + mid.1.toNat + mid'.1.toNat + second.2.toNat) := by linarith
    rw [htotal,Nat.add_mul_mod_self_left,Nat.mod_eq_of_lt (by omega)]
    omega
  · -- the carry is added where it does not belong, and the upper word is one too large
    have htotal : d * 2^128 + (a + b) * 2^64 + l =
        (first.1.toNat + mid'.2.toNat) * 2^64 + low.2.toNat + 2^128 * (d + mid.1.toNat + mid'.1.toNat + 1) := by linarith
    rw [htotal,Nat.add_mul_mod_self_left]
    omega

/-- A third of the largest number, a bit too large: three times it is `2^128 + 2^65 - 3`. -/
theorem mul_unreported : 2^128 ≤ (Currency.mk (2^64 - 1) 0x5555555555555555).toNat * (newCurrency64 3).toNat ∧
    (Currency.mk (2^64 - 1) 0x5555555555555555).mulWithOverflow (newCurrency64 3) = (⟨2^64 - 3, 2⟩, false) := by decide +kernel

end Product

section Quotient

def leadingZeros64 (x : UInt64) : ℕ := 64 - Nat.size x.toNat

-- a shift by 64 or more gives zero, so the shifts of `UInt64` do not serve
def shl (x : UInt64) (n : ℕ) : UInt64 := .ofNat (x.toNat <<< n)

def shr (x : UInt64) (n : ℕ) : UInt64 := .ofNat (x.toNat >>> n)

def quoRem (c v : Currency) : Outcome (Currency × Currency) :=
  if v.hi = 0 then do
    let (q, r64) ← c.quoRem64 v.lo
    return (q, newCurrency64 r64)
  else do
    let n := leadingZeros64 v.hi
    let v1 : Currency := ⟨shl v.lo n, shl v.hi n ||| shr v.lo (64 - n)⟩
    let u1 : Currency := ⟨shr c.lo 1 ||| shl c.hi 63, shr c.hi 1⟩
    let (tq, _) ← Word64.div64 u1.hi u1.lo v1.hi
    let tq := shr tq (63 - n)
    let tq := if tq ≠ 0 then tq - 1 else tq
    let p ← v.mul64 tq
    let r ← c.sub p
    if r.lt v then return (newCurrency64 tq, r)
    else do
      let r ← r.sub v
      return (⟨tq + 1, if tq + 1 = 0 then 1 else 0⟩, r)

theorem toNat_shr (x : UInt64) (n : ℕ) : (shr x n).toNat = x.toNat / 2^n := by
  rw [shr,Nat.shiftRight_eq_div_pow,toNat_ofNat_of_lt ((Nat.div_le_self _ _).trans_lt x.toNat_lt)]

theorem toNat_shl_or {y : UInt64} (hy : y.toNat < 2^n) (hn : n ≤ 64) :
    (shl x n ||| y).toNat = x.toNat % 2^(64 - n) * 2^n + y.toNat := by
  have hpow : 2^64 = 2^(64 - n) * 2^n := by rw [← pow_add,Nat.sub_add_cancel hn]
  rw [UInt64.toNat_or,shl,UInt64.toNat_ofNat',Nat.shiftLeft_eq,hpow,Nat.mul_mod_mul_right,← Nat.shiftLeft_eq,
    Nat.shiftLeft_add_eq_or_of_lt hy]

/-- The divisor cut to its 64 leading bits: the quotient by it is the right one or one more. -/
theorem trialQuotient {u v k : ℕ} (hk : 1 ≤ k) (hk' : k ≤ 64) (hu : u < 2^128) (hv : 2^63 * 2^k ≤ v) :
    u / v ≤ u / (v / 2^k * 2^k) ∧ u / (v / 2^k * 2^k) ≤ u / v + 1 := by
  have hpos : 0 < 2^k := by positivity
  have hcut : 2^63 * 2^k ≤ v / 2^k * 2^k := Nat.mul_le_mul_right _ ((Nat.le_div_iff_mul_le hpos).mpr hv)
  have hdpos : 0 < v / 2^k * 2^k := (by positivity : 0 < 2^63 * 2^k).trans_le hcut
  have hsplit : v / 2^k * 2^k + v % 2^k = v := Nat.div_add_mod' v _
  have hrest : v % 2^k + 1 ≤ 2^k := Nat.mod_lt v hpos
  have hquot : u / v + 1 ≤ 2^(65 - k) := by
    refine (Nat.div_lt_iff_lt_mul (hdpos.trans_le (by omega))).mpr (hu.trans_le ?_)
    calc 2^128 = 2^(65 - k) * (2^63 * 2^k) := by rw [← pow_add,← pow_add]; congr 1; omega
      _ ≤ 2^(65 - k) * v := Nat.mul_le_mul_left _ hv
  refine ⟨Nat.div_le_div_left (by omega) hdpos,Nat.lt_succ_iff.mp ((Nat.div_lt_iff_lt_mul hdpos).mpr ?_)⟩
  -- the bits cut off, taken as often as the quotient says, are less than the divisor
  have hsmall : (u / v + 1) * (v % 2^k) ≤ v / 2^k * 2^k := by
    refine le_trans ?_ hcut
    obtain rfl | hk2 : k = 1 ∨ 2 ≤ k := by omega
    · calc (u / v + 1) * (v % 2^1) ≤ 2^64 * 1 := Nat.mul_le_mul hquot (by omega)
        _ = 2^63 * 2^1 := by norm_num
    · calc (u / v + 1) * (v % 2^k) ≤ 2^(65 - k) * 2^k := Nat.mul_le_mul hquot (by omega)
        _ = 2^63 * 2^2 := by rw [← pow_add,Nat.sub_add_cancel (by omega)]; norm_num
        _ ≤ 2^63 * 2^k := Nat.mul_le_mul_left _ (Nat.pow_le_pow_right (by norm_num) hk2)
  calc u < (u / v + 1) * v := (Nat.lt_mul_div_succ u (by omega)).trans_eq (Nat.mul_comm _ _)
    _ = (u / v + 1) * (v / 2^k * 2^k) + (u / v + 1) * (v % 2^k) := by rw [← mul_add,hsplit]
    _ ≤ (u / v + 1) * (v / 2^k * 2^k) + v / 2^k * 2^k := Nat.add_le_add_left hsmall _
    _ = (u / v + 1).succ * (v / 2^k * 2^k) := (Nat.succ_mul _ _).symm

theorem toNat_newCurrency64 (x : UInt64) : (newCurrency64 x).toNat = x.toNat := by
  rw [newCurrency64,toNat,join,UInt64.toNat_zero,Nat.zero_mul,Nat.zero_add]

/-- The trial quotient of the code: one below the quotient by the cut divisor. -/
theorem trial_returns (c : Currency) (hv : v.hi ≠ 0) (hn : n = leadingZeros64 v.hi) :
    ∃ tq r, Word64.div64 (shr c.hi 1) (shr c.lo 1 ||| shl c.hi 63) (shl v.hi n ||| shr v.lo (64 - n)) = .ok (tq, r) ∧
      c.toNat / v.toNat ≤ (shr tq (63 - n)).toNat ∧ (shr tq (63 - n)).toNat ≤ c.toNat / v.toNat + 1 := by
  have hhi : 0 < v.hi.toNat := UInt64.lt_iff_toNat_lt.mp (UInt64.pos_iff_ne_zero.mpr hv)
  have hsize : Nat.size v.hi.toNat ≤ 64 := Nat.size_le.mpr v.hi.toNat_lt
  have hsize' : 1 ≤ Nat.size v.hi.toNat := Nat.size_pos.mpr hhi
  obtain ⟨k,hk,hnk⟩ : ∃ k, k = Nat.size v.hi.toNat ∧ n = 64 - k := ⟨_,rfl,hn⟩
  have hpow : 2^n * 2^k = 2^64 := by rw [← pow_add]; congr 1; omega
  have hlead : 2^(k - 1) ≤ v.hi.toNat := Nat.lt_size.mp (by omega)
  have hhi' : v.hi.toNat < 2^k := hk ▸ Nat.lt_size_self _
  have hle : 2^63 * 2^k ≤ v.toNat := by
    calc 2^63 * 2^k = 2^(k - 1) * 2^64 := by rw [← pow_add,← pow_add]; congr 1; omega
      _ ≤ v.toNat := (Nat.mul_le_mul_right _ hlead).trans (Nat.le_add_right _ _)
  have hv1 : (shl v.hi n ||| shr v.lo (64 - n)).toNat = v.toNat / 2^k := by
    have hlo : v.lo.toNat / 2^(64 - n) < 2^n :=
      Nat.div_lt_of_lt_mul ((v.lo.toNat_lt).trans_eq (by rw [← hpow,Nat.mul_comm]; congr 2; omega))
    rw [toNat_shl_or (by rw [toNat_shr]; exact hlo) (by omega),toNat_shr,toNat,join,← hpow,← Nat.mul_assoc,Nat.mul_comm _ (2^k),
      Nat.mul_add_div (by positivity),show 64 - n = k by omega,Nat.mod_eq_of_lt hhi']
  have hu1 : join (shr c.hi 1) (shr c.lo 1 ||| shl c.hi 63) = c.toNat / 2 := by
    have := c.lo.toNat_lt
    rw [join,UInt64.or_comm,toNat_shl_or (by rw [toNat_shr]; omega) (by omega),toNat_shr,toNat_shr,toNat,join]
    omega
  have hlt : shr c.hi 1 < shl v.hi n ||| shr v.lo (64 - n) := by
    have := c.hi.toNat_lt
    rw [UInt64.lt_iff_toNat_lt,toNat_shr,hv1]
    exact (by omega : c.hi.toNat / 2^1 < 2^63).trans_le ((Nat.le_div_iff_mul_le (by positivity)).mpr hle)
  obtain ⟨tq,r,hrun,htq,-⟩ := @div64_spec _ (shr c.lo 1 ||| shl c.hi 63) _ hlt
  have hquot : (shr tq (63 - n)).toNat = c.toNat / (v.toNat / 2^k * 2^k) := by
    rw [toNat_shr,htq,hu1,hv1,Nat.div_div_eq_div_mul,Nat.div_div_eq_div_mul]
    congr 1
    rw [Nat.mul_comm 2,Nat.mul_assoc,← pow_succ,show 63 - n + 1 = k by omega]
  refine ⟨tq,r,hrun,?_⟩
  rw [hquot]
  exact trialQuotient (by omega) (by omega) c.toNat_lt hle

/-- The remainder by a quotient at most one too small tells whether it is. -/
theorem correct_returns (c : Currency) (hv : 2^64 ≤ v.toNat)
    (hlow : x.toNat ≤ c.toNat / v.toNat) (hhigh : c.toNat / v.toNat ≤ x.toNat + 1) :
    ∃ q r, (do
      let p ← v.mul64 x
      let r ← c.sub p
      if r.lt v then return (newCurrency64 x, r)
      else do
        let r ← r.sub v
        return (⟨x + 1, if x + 1 = 0 then 1 else 0⟩, r) : Outcome (Currency × Currency)) = .ok (q, r) ∧
      c.toNat = q.toNat * v.toNat + r.toNat ∧ r.toNat < v.toNat := by
  have hpos : 0 < v.toNat := (by norm_num : 0 < 2^64).trans_le hv
  have hprod : v.toNat * x.toNat ≤ c.toNat := (Nat.mul_le_mul_left _ hlow).trans (Nat.mul_div_le _ _)
  obtain ⟨p,hp⟩ := exists_toNat (hprod.trans_lt c.toNat_lt)
  obtain ⟨s,hs⟩ := exists_toNat ((Nat.sub_le c.toNat p.toNat).trans_lt c.toNat_lt)
  have hsub : s.toNat + p.toNat = c.toNat := by rw [hs,hp,Nat.sub_add_cancel hprod]
  simp only [mul64_eq_ok.mpr hp.symm,sub_eq_ok.mpr hsub,ok_bind]
  cases hcmp : s.lt v with
  | true =>
    refine ⟨newCurrency64 x,s,rfl,?_,(lt_iff s v).mp hcmp⟩
    rw [toNat_newCurrency64,Nat.mul_comm,← hp,← hsub,Nat.add_comm]
  | false =>
    have hge : v.toNat ≤ s.toNat := by
      rw [← not_lt,← lt_iff,hcmp]
      exact Bool.false_ne_true
    obtain ⟨w,hw⟩ := exists_toNat ((Nat.sub_le s.toNat v.toNat).trans_lt s.toNat_lt)
    have hsub' : w.toNat + v.toNat = s.toNat := by rw [hw,Nat.sub_add_cancel hge]
    have hnext : c.toNat = (x.toNat + 1) * v.toNat + w.toNat := by
      rw [← hsub,← hsub',hp]
      ring
    have hquot : x.toNat + 1 < 2^64 := by
      have hdiv : x.toNat + 1 ≤ c.toNat / v.toNat := (Nat.le_div_iff_mul_le hpos).mpr (by omega)
      exact hdiv.trans_lt ((Nat.div_lt_iff_lt_mul hpos).mpr (c.toNat_lt.trans_le (Nat.mul_le_mul_left (2^64) hv)))
    have hsucc : (x + 1).toNat = x.toNat + 1 := by rw [UInt64.toNat_add,UInt64.toNat_one,Nat.mod_eq_of_lt hquot]
    have hne : x + 1 ≠ 0 := fun h => by simp [h] at hsucc
    simp only [Bool.false_eq_true,if_false,sub_eq_ok.mpr hsub',ok_bind,if_neg hne]
    refine ⟨newCurrency64 (x + 1),w,rfl,by rw [toNat_newCurrency64,hsucc,hnext],?_⟩
    have hlt : c.toNat < v.toNat * (c.toNat / v.toNat + 1) := Nat.lt_mul_div_succ _ hpos
    have hmax := Nat.mul_le_mul_left v.toNat (Nat.succ_le_succ hhigh)
    linarith

/-- Division with remainder by every divisor but zero. -/
theorem quoRem_returns (c v : Currency) (hv : v ≠ zeroCurrency) :
    ∃ q r, c.quoRem v = .ok (q, r) ∧ c.toNat = q.toNat * v.toNat + r.toNat ∧ r.toNat < v.toNat := by
  unfold quoRem
  by_cases hhi : v.hi = 0
  · have hlo : v.lo ≠ 0 := fun hlo => hv (by rw [show v = ⟨v.lo,v.hi⟩ from rfl,hlo,hhi]; rfl)
    have hval : v.toNat = v.lo.toNat := by rw [toNat,hhi,join,UInt64.toNat_zero,Nat.zero_mul,Nat.zero_add]
    have hpos : 0 < v.lo.toNat := UInt64.lt_iff_toNat_lt.mp (UInt64.pos_iff_ne_zero.mpr hlo)
    obtain ⟨q,r,hrun,hq,hr⟩ := quoRem64_returns c hlo
    refine ⟨q,newCurrency64 r,by rw [if_pos hhi,hrun]; rfl,?_⟩
    rw [toNat_newCurrency64,hq,hr,hval]
    exact ⟨(Nat.div_add_mod' _ _).symm,Nat.mod_lt _ hpos⟩
  · obtain ⟨tq,r,hrun,hlow,hhigh⟩ := trial_returns c hhi rfl
    simp only [if_neg hhi,hrun,ok_bind]
    generalize shr tq (63 - leadingZeros64 v.hi) = t at *
    have hv64 : 2^64 ≤ v.toNat := by
      have : 0 < v.hi.toNat := UInt64.lt_iff_toNat_lt.mp (UInt64.pos_iff_ne_zero.mpr hhi)
      rw [toNat,join]
      omega
    have hpred : (if t ≠ 0 then t - 1 else t).toNat = t.toNat - 1 := by
      split_ifs with ht
      · have hle : (1 : UInt64) ≤ t := UInt64.le_iff_toNat_le.mpr (UInt64.lt_iff_toNat_lt.mp (UInt64.pos_iff_ne_zero.mpr ht))
        rw [UInt64.toNat_sub_of_le _ _ hle,UInt64.toNat_one]
      · rw [not_not.mp ht,UInt64.toNat_zero]
    exact correct_returns c hv64 (hpred ▸ Nat.sub_le_of_le_add hhigh) (hlow.trans (hpred ▸ le_tsub_add))

theorem quoRem_returns_correct : ∃ q r, (Currency.mk (2^64 - 1) (2^64 - 1)).quoRem ⟨1, 1⟩ = .ok (q, r) ∧
    (Currency.mk (2^64 - 1) (2^64 - 1)).toNat = q.toNat * (Currency.mk 1 1).toNat + r.toNat ∧ r.toNat < (Currency.mk 1 1).toNat :=
  quoRem_returns _ _ (by decide)

end Quotient

end Currency

end QdayNode
