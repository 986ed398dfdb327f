import QdayNode.Consensus.Genesis

/-!
# Difficulty

`Work` computes on four 64-bit words and panics where a result does not fit; each
operation is an equation between naturals.  `ApplyHeader` moves the difficulty by at
most 0.4%, whatever the timestamp says, and never to zero, so that a target can always
be computed from it.
-/
namespace QdayNode
open ByteString Word64 Outcome

variable {w v : Work} {n : ℕ}

namespace Work

theorem toNat_lt (w : Work) : w.toNat < 2^256 := by
  have := w.w0.toNat_lt
  have := w.w1.toNat_lt
  have := w.w2.toNat_lt
  have := w.w3.toNat_lt
  unfold toNat
  omega

theorem toNat_inj (h : w.toNat = v.toNat) : w = v := by
  obtain ⟨w0,w1,w2,w3⟩ := w
  obtain ⟨v0,v1,v2,v3⟩ := v
  have := w1.toNat_lt
  have := w2.toNat_lt
  have := w3.toNat_lt
  have := v1.toNat_lt
  have := v2.toNat_lt
  have := v3.toNat_lt
  simp only [toNat] at h
  rw [mk.injEq,← UInt64.toNat_inj,← UInt64.toNat_inj,← UInt64.toNat_inj,← UInt64.toNat_inj]
  omega

theorem toNat_ofNat {x : ℕ} (h : x < 2^256) : (ofNat x).toNat = x := by
  simp only [ofNat,toNat,UInt64.toNat_ofNat']
  omega

theorem exists_toNat (h : n < 2^256) : ∃ w : Work, w.toNat = n := ⟨ofNat n,toNat_ofNat h⟩

@[simp] theorem toNat_oneWork : oneWork.toNat = 1 := rfl

theorem lt_iff (w v : Work) : w.lt v = true ↔ w.toNat < v.toNat := by rw [lt,decide_eq_true_iff]

variable {r : Work} {v : UInt64}

@[simp] theorem toNat_min (w v : Work) : (w.min v).toNat = Nat.min w.toNat v.toNat := by
  rw [min]
  split_ifs with h
  · exact (Nat.min_eq_left ((lt_iff w v).mp h).le).symm
  · exact (Nat.min_eq_right (not_lt.mp fun hlt => h ((lt_iff w v).mpr hlt))).symm

@[simp] theorem toNat_max (w v : Work) : (w.max v).toNat = Nat.max w.toNat v.toNat := by
  rw [max]
  split_ifs with h
  · exact (Nat.max_eq_left ((lt_iff v w).mp h).le).symm
  · exact (Nat.max_eq_right (not_lt.mp fun hlt => h ((lt_iff v w).mpr hlt))).symm

theorem carried_eq_ok {carry : UInt64} {msg : String} :
    (do crashIf (carry > 0) msg; return w : Outcome Work) = .ok r ↔ carry.toNat = 0 ∧ w.toNat = r.toNat := by
  rw [bind_unit_eq_ok,crashIf_eq_ok,pure_eq_ok,gt_iff_lt,UInt64.lt_iff_toNat_lt,
    UInt64.toNat_zero,Nat.not_lt,Nat.le_zero]
  exact and_congr_right fun _ => ⟨fun h => by rw [h],toNat_inj⟩

theorem add_eq_ok {v : Work} : w.add v = .ok r ↔ w.toNat + v.toNat = r.toNat := by
  unfold add
  obtain ⟨h3,hc3⟩ := add64_spec w.w3 v.w3 0 (by decide)
  generalize add64 w.w3 v.w3 0 = p3 at h3 hc3 ⊢
  obtain ⟨r3,c3⟩ := p3
  dsimp only at h3 hc3 ⊢
  obtain ⟨h2,hc2⟩ := add64_spec w.w2 v.w2 c3 hc3
  generalize add64 w.w2 v.w2 c3 = p2 at h2 hc2 ⊢
  obtain ⟨r2,c2⟩ := p2
  dsimp only at h2 hc2 ⊢
  obtain ⟨h1,hc1⟩ := add64_spec w.w1 v.w1 c2 hc2
  generalize add64 w.w1 v.w1 c2 = p1 at h1 hc1 ⊢
  obtain ⟨r1,c1⟩ := p1
  dsimp only at h1 hc1 ⊢
  obtain ⟨h0,hc0⟩ := add64_spec w.w0 v.w0 c1 hc1
  generalize add64 w.w0 v.w0 c1 = p0 at h0 hc0 ⊢
  obtain ⟨r0,c0⟩ := p0
  dsimp only at h0 hc0 ⊢
  have hsum : w.toNat + v.toNat = c0.toNat * 2^256 + (Work.mk r0 r1 r2 r3).toNat := by
    simp only [toNat,join,UInt64.toNat_zero] at h0 h1 h2 h3 ⊢
    linarith
  have hlt := (Work.mk r0 r1 r2 r3).toNat_lt
  have hr := r.toNat_lt
  rw [carried_eq_ok,hsum]
  omega

theorem sub_eq_ok {v : Work} : w.sub v = .ok r ↔ r.toNat + v.toNat = w.toNat := by
  unfold sub
  obtain ⟨h3,hc3⟩ := sub64_spec w.w3 v.w3 0 (by decide)
  generalize sub64 w.w3 v.w3 0 = p3 at h3 hc3 ⊢
  obtain ⟨r3,c3⟩ := p3
  dsimp only at h3 hc3 ⊢
  obtain ⟨h2,hc2⟩ := sub64_spec w.w2 v.w2 c3 hc3
  generalize sub64 w.w2 v.w2 c3 = p2 at h2 hc2 ⊢
  obtain ⟨r2,c2⟩ := p2
  dsimp only at h2 hc2 ⊢
  obtain ⟨h1,hc1⟩ := sub64_spec w.w1 v.w1 c2 hc2
  generalize sub64 w.w1 v.w1 c2 = p1 at h1 hc1 ⊢
  obtain ⟨r1,c1⟩ := p1
  dsimp only at h1 hc1 ⊢
  obtain ⟨h0,hc0⟩ := sub64_spec w.w0 v.w0 c1 hc1
  generalize sub64 w.w0 v.w0 c1 = p0 at h0 hc0 ⊢
  obtain ⟨r0,c0⟩ := p0
  dsimp only at h0 hc0 ⊢
  have hdiff : (Work.mk r0 r1 r2 r3).toNat + v.toNat = w.toNat + c0.toNat * 2^256 := by
    simp only [toNat,UInt64.toNat_zero] at h0 h1 h2 h3 ⊢
    linarith
  have hlt := (Work.mk r0 r1 r2 r3).toNat_lt
  have hw := w.toNat_lt
  rw [carried_eq_ok]
  omega

theorem mulWord_spec (w v carry : UInt64) :
    join (mulWord w v carry).2 (mulWord w v carry).1 = w.toNat * v.toNat + carry.toNat := by
  have hprod := mul64_spec w v
  have hbound : w.toNat * v.toNat + carry.toNat < 2^128 := by
    have := Nat.mul_le_mul (Nat.le_sub_one_of_lt w.toNat_lt) (Nat.le_sub_one_of_lt v.toNat_lt)
    have := carry.toNat_lt
    norm_num at *
    omega
  obtain ⟨hsum,-⟩ := add64_spec (Word64.mul64 w v).2 carry 0 (by decide)
  change join ((Word64.mul64 w v).1 + (add64 (Word64.mul64 w v).2 carry 0).2)
    (add64 (Word64.mul64 w v).2 carry 0).1 = _
  generalize w.toNat * v.toNat = p at *
  generalize Word64.mul64 w v = m at *
  generalize add64 m.2 carry 0 = a at *
  simp only [join,UInt64.toNat_zero,Nat.add_zero] at hprod hsum ⊢
  rw [UInt64.toNat_add,Nat.mod_eq_of_lt (by omega)]
  linarith

theorem mul64_eq_ok : w.mul64 v = .ok r ↔ w.toNat * v.toNat = r.toNat := by
  unfold mul64
  have h3 := mulWord_spec w.w3 v 0
  generalize mulWord w.w3 v 0 = p3 at h3 ⊢
  obtain ⟨r3,c3⟩ := p3
  dsimp only at h3 ⊢
  have h2 := mulWord_spec w.w2 v c3
  generalize mulWord w.w2 v c3 = p2 at h2 ⊢
  obtain ⟨r2,c2⟩ := p2
  dsimp only at h2 ⊢
  have h1 := mulWord_spec w.w1 v c2
  generalize mulWord w.w1 v c2 = p1 at h1 ⊢
  obtain ⟨r1,c1⟩ := p1
  dsimp only at h1 ⊢
  have h0 := mulWord_spec w.w0 v c1
  generalize mulWord w.w0 v c1 = p0 at h0 ⊢
  obtain ⟨r0,c0⟩ := p0
  dsimp only at h0 ⊢
  have hprod : w.toNat * v.toNat = c0.toNat * 2^256 + (Work.mk r0 r1 r2 r3).toNat := by
    simp only [toNat,join,UInt64.toNat_zero] at h0 h1 h2 h3 ⊢
    linarith
  have hlt := (Work.mk r0 r1 r2 r3).toNat_lt
  have hr := r.toNat_lt
  rw [carried_eq_ok,hprod]
  omega

theorem longDivision_step {lo rem q r : UInt64} {high : ℕ} (hv : 0 < v.toNat) (hrem : rem.toNat = high % v.toNat)
    (hq : q.toNat = join rem lo / v.toNat) (hr : r.toNat = join rem lo % v.toNat) :
    high / v.toNat * 2^64 + q.toNat = (high * 2^64 + lo.toNat) / v.toNat ∧ r.toNat = (high * 2^64 + lo.toNat) % v.toNat := by
  rw [hq,hr,join,hrem]
  refine ⟨schoolbook_div _ _ _ hv,?_⟩
  conv_rhs => rw [← Nat.mod_add_div high v.toNat,Nat.add_mul,Nat.add_right_comm,Nat.mul_assoc,Nat.add_mul_mod_self_left]

theorem div64_returns (w : Work) (hv : v ≠ 0) : ∃ r, w.div64 v = .ok r ∧ r.toNat = w.toNat / v.toNat := by
  have hpos : 0 < v.toNat := UInt64.lt_iff_toNat_lt.mp (UInt64.pos_iff_ne_zero.mpr hv)
  have hless : ∀ {r : UInt64} {n : ℕ}, r.toNat = n % v.toNat → r < v := fun h =>
    UInt64.lt_iff_toNat_lt.mpr (by rw [h]; exact Nat.mod_lt _ hpos)
  obtain ⟨q0,r0,hd0,hq0,hr0⟩ := @div64_spec 0 w.w0 v (UInt64.pos_iff_ne_zero.mpr hv)
  obtain ⟨q1,r1,hd1,hq1,hr1⟩ := @div64_spec r0 w.w1 v (hless hr0)
  obtain ⟨q2,r2,hd2,hq2,hr2⟩ := @div64_spec r1 w.w2 v (hless hr1)
  obtain ⟨q3,r3,hd3,hq3,hr3⟩ := @div64_spec r2 w.w3 v (hless hr2)
  refine ⟨⟨q0,q1,q2,q3⟩,?_,?_⟩
  · simp only [div64,crashIf,hv,if_false,ok_bind,hd0,hd1,hd2,hd3]
    rfl
  · simp only [join,UInt64.toNat_zero,Nat.zero_mul,Nat.zero_add] at hq0 hr0
    obtain ⟨e1,f1⟩ := longDivision_step hpos hr0 hq1 hr1
    obtain ⟨e2,f2⟩ := longDivision_step hpos f1 hq2 hr2
    obtain ⟨e3,-⟩ := longDivision_step hpos f2 hq3 hr3
    rw [toNat,toNat,← e3,← e2,← e1,hq0]

/-- The exact result where it is a value of 256 bits, a panic everywhere else. -/
def IsExact (r : Outcome Work) (exact : ℤ) : Prop :=
  (∃ w, r = .ok w ∧ (w.toNat : ℤ) = exact) ∨ (¬ (0 ≤ exact ∧ exact < 2^256) ∧ ∃ msg, r = crash msg)

theorem carried_returns (carry : UInt64) (msg : String) (w : Work) :
    (∃ r, (do crashIf (carry > 0) msg; return w : Outcome Work) = .ok r) ∨
      ∃ msg', (do crashIf (carry > 0) msg; return w : Outcome Work) = crash msg' := by
  by_cases hcarry : carry > 0
  · exact .inr ⟨msg,by simp only [crashIf,hcarry,if_true]; rfl⟩
  · exact .inl ⟨w,by simp only [crashIf,hcarry,if_false]; rfl⟩

theorem isExact_of_eq_ok_iff {r : Outcome Work} {exact : ℤ} (hok : ∀ w, r = .ok w ↔ (w.toNat : ℤ) = exact)
    (hret : (∃ w, r = .ok w) ∨ ∃ msg, r = crash msg) : IsExact r exact := by
  rcases hret with ⟨w,hw⟩ | ⟨msg,hcrash⟩
  · exact .inl ⟨w,hw,(hok w).mp hw⟩
  · refine .inr ⟨fun ⟨hnonneg,hlt⟩ => ?_,msg,hcrash⟩
    lift exact to ℕ using hnonneg
    obtain ⟨w,hw⟩ := exists_toNat (by exact_mod_cast hlt : exact < 2^256)
    rw [hcrash] at hok
    exact absurd ((hok w).mpr (by rw [hw])) crash_ne_ok

/-- The arithmetic of difficulties and total work, against the integers. -/
theorem isExact_arith (w x : Work) (v : UInt64) :
    IsExact (w.add x) (w.toNat + x.toNat) ∧ IsExact (w.sub x) (w.toNat - x.toNat) ∧ IsExact (w.mul64 v) (w.toNat * v.toNat) ∧
      (0 < v → ∃ r, w.div64 v = .ok r ∧ r.toNat = w.toNat / v.toNat) := by
  refine ⟨isExact_of_eq_ok_iff (fun r => ?_) (carried_returns _ _ _),isExact_of_eq_ok_iff (fun r => ?_) (carried_returns _ _ _),
    isExact_of_eq_ok_iff (fun r => ?_) (carried_returns _ _ _),fun hv => div64_returns w (UInt64.pos_iff_ne_zero.mp hv)⟩
  · rw [add_eq_ok]
    omega
  · rw [sub_eq_ok]
    omega
  · rw [mul64_eq_ok]
    exact_mod_cast eq_comm

end Work

section Header

variable {c : Crypto} {s next : State} {bh : BlockHeader}

/-- The block intervals of `NewQdayManifestWithMessage`: a minute, and two seconds on a devnet. -/
def Network.QdayInterval (n : Network) : Prop := n.blockInterval = 60 * second ∨ n.blockInterval = 2 * second

instance (n : Network) : Decidable n.QdayInterval := inferInstanceAs (Decidable (_ ∨ _))

variable {x : Duration} {t : Time} {d : Work}

theorem toNat_toUInt64_le (hpos : 0 ≤ x) (hle : x.toInt ≤ n) : x.toUInt64.toNat ≤ n := by
  rw [Int64.toNat_toUInt64_of_le hpos]
  change x.toInt.toNat ≤ n
  omega

theorem clampedInterval_le {interval : Duration} (h : interval = 60 * second ∨ interval = 2 * second) :
    (max (min x (interval * 3)) (interval / 3)).toUInt64.toNat ≤ 180000000000 := by
  have hbounds : (0 : Duration) ≤ interval / 3 ∧ (interval / 3).toInt ≤ 180000000000 ∧
      (interval * 3).toInt ≤ 180000000000 := by
    rcases h with rfl | rfl
    · decide
    · decide
  obtain ⟨hlow,hlow',hhigh⟩ := hbounds
  have hmin : (min x (interval * 3)).toInt ≤ 180000000000 := by
    change (if x ≤ interval * 3 then x else interval * 3).toInt ≤ _
    split_ifs with hx
    · exact (Int64.le_iff_toInt_le.mp hx).trans hhigh
    · exact hhigh
  change (if min x (interval * 3) ≤ interval / 3 then interval / 3 else min x (interval * 3)).toUInt64.toNat ≤ _
  split_ifs with hx
  · exact toNat_toUInt64_le hlow (by exact_mod_cast hlow')
  · refine toNat_toUInt64_le ?_ (by exact_mod_cast hmin)
    rw [Int64.le_iff_toInt_le] at hlow hx ⊢
    omega

theorem max_one_toUInt64_ne_zero (x : Duration) : (max x 1).toUInt64 ≠ 0 := by
  intro h
  have hzero : (max x 1) = 0 := by
    rw [← Int64.toInt64_toUInt64 (max x 1),h]
    rfl
  change (if x ≤ 1 then 1 else x) = 0 at hzero
  split_ifs at hzero with hx
  · cases hzero
  · subst hzero
    exact hx (by decide)

/-- The adjustment of one header: at least 1, and otherwise 0.4% of the difficulty. -/
def State.maxAdjust (s : State) : ℕ := Nat.max (s.difficulty.toNat / 250) 1

theorem adjustDifficultyFinalCut_bounds (h : adjustDifficultyFinalCut s t = .ok d) :
    1 ≤ d.toNat ∧ d.toNat ≤ Nat.max (s.difficulty.toNat + s.maxAdjust) 1 ∧ s.difficulty.toNat ≤ d.toNat + s.maxAdjust := by
  simp only [adjustDifficultyFinalCut,bind_eq_ok,pure_eq_ok] at h
  obtain ⟨product,-,half,-,sum,-,raw,-,step,hstep,ceiling,hceiling,floor,hfloor,rfl⟩ := h
  obtain ⟨step',hstep',hval⟩ := s.difficulty.div64_returns (v := 250) (by decide)
  obtain rfl : step = step' := Except.ok.inj (hstep.symm.trans hstep')
  have hadjust : (step.max Work.oneWork).toNat = s.maxAdjust := by
    rw [Work.toNat_max,hval]
    rfl
  rw [Work.add_eq_ok,hadjust] at hceiling
  rw [Work.sub_eq_ok,hadjust] at hfloor
  simp only [Work.toNat_max,Work.toNat_min,Work.toNat_oneWork,Nat.max_def,Nat.min_def]
  split_ifs <;> omega

/-- The adjustment does not panic while the works leave room for the 64-bit factors. -/
theorem adjustDifficultyFinalCut_returns (hinterval : s.network.QdayInterval) (hpos : 1 ≤ s.difficulty.toNat)
    (hdifficulty : s.difficulty.toNat < 2^200) (hoak : s.oakWork.toNat < 2^200) (t : Time) :
    ∃ d, adjustDifficultyFinalCut s t = .ok d := by
  set target := max (min (s.network.blockInterval + (s.network.blockInterval * s.childHeight.toInt64 -
    t.sub s.network.genesisTimestamp) / 1000) (s.network.blockInterval * 3)) (s.network.blockInterval / 3)
  have htarget : target.toUInt64.toNat ≤ 180000000000 := clampedInterval_le hinterval
  have hproductLt : s.oakWork.toNat * target.toUInt64.toNat < 2^200 * 2^38 := by
    have : s.oakWork.toNat * target.toUInt64.toNat ≤ (2^200 - 1) * 180000000000 :=
      Nat.mul_le_mul (Nat.le_sub_one_of_lt hoak) htarget
    norm_num at this ⊢
    omega
  have hhalfLt := (s.oakTime / 2).toUInt64.toNat_lt
  obtain ⟨product,hproduct⟩ := Work.exists_toNat (n := s.oakWork.toNat * target.toUInt64.toNat) (by omega)
  obtain ⟨half,hhalf⟩ := Work.exists_toNat (n := (s.oakTime / 2).toUInt64.toNat) (by omega)
  obtain ⟨sum,hsum⟩ := Work.exists_toNat (n := product.toNat + half.toNat) (by omega)
  obtain ⟨raw,hraw,-⟩ := sum.div64_returns (max_one_toUInt64_ne_zero s.oakTime)
  obtain ⟨step,hstep,hval⟩ := s.difficulty.div64_returns (v := 250) (by decide)
  have hadjust : (step.max Work.oneWork).toNat = s.maxAdjust := by
    rw [Work.toNat_max,hval]
    rfl
  have hle : s.maxAdjust ≤ s.difficulty.toNat := by
    simp only [State.maxAdjust,Nat.max_def]
    split_ifs <;> omega
  obtain ⟨ceiling,hceiling⟩ := Work.exists_toNat (n := s.difficulty.toNat + s.maxAdjust) (by omega)
  obtain ⟨floor,hfloor⟩ := Work.exists_toNat (n := s.difficulty.toNat - s.maxAdjust) (by omega)
  have h₁ : s.oakWork.mul64 target.toUInt64 = .ok product := Work.mul64_eq_ok.mpr hproduct.symm
  have h₂ : Work.oneWork.mul64 (s.oakTime / 2).toUInt64 = .ok half := Work.mul64_eq_ok.mpr (by simp [hhalf])
  have h₃ : product.add half = .ok sum := Work.add_eq_ok.mpr hsum.symm
  have h₄ : s.difficulty.add (step.max Work.oneWork) = .ok ceiling := Work.add_eq_ok.mpr (by rw [hadjust,hceiling])
  have h₅ : s.difficulty.sub (step.max Work.oneWork) = .ok floor := Work.sub_eq_ok.mpr (by rw [hadjust]; omega)
  refine ⟨((raw.min ceiling).max floor).max Work.oneWork,?_⟩
  simp only [adjustDifficultyFinalCut,bind_eq_ok,pure_eq_ok]
  exact ⟨product,h₁,half,h₂,sum,h₃,raw,hraw,step,hstep,ceiling,h₄,floor,h₅,rfl⟩

theorem invTarget_returns (h : n ≠ 0) : invTarget n = .ok (maxTarget / n) := by
  rw [invTarget,crashIf,if_neg h]
  rfl

theorem invTarget_pos {t : BlockID} {w : ℕ} (h : invTarget t.toNat = .ok w) : 1 ≤ (Work.ofNat w).toNat := by
  rw [invTarget,bind_unit_eq_ok,crashIf_eq_ok,pure_eq_ok] at h
  obtain ⟨hne,rfl⟩ := h
  have hlt : t.toNat < 2^256 := t.toNat_lt
  have hle : maxTarget / t.toNat ≤ maxTarget := Nat.div_le_self _ _
  rw [Work.toNat_ofNat (by rw [maxTarget] at hle ⊢; omega)]
  exact (Nat.one_le_div_iff (Nat.pos_of_ne_zero hne)).mpr (by rw [maxTarget]; omega)

theorem adjustDifficulty_pos {u : Time} {r : Work × BlockID} (h : adjustDifficulty s t u = .ok r) : 1 ≤ r.1.toNat := by
  rw [adjustDifficulty] at h
  split_ifs at h with hearly
  · simp only [bind_eq_ok,pure_eq_ok] at h
    obtain ⟨target,-,work,hwork,rfl⟩ := h
    exact invTarget_pos hwork
  · simp only [bind_eq_ok,pure_eq_ok] at h
    obtain ⟨d,hd,target,-,rfl⟩ := h
    exact (adjustDifficultyFinalCut_bounds hd).1

theorem applyHeader_pos (h : applyHeader c s bh t = .ok next) (hpos : 1 ≤ s.difficulty.toNat) :
    1 ≤ next.difficulty.toNat := by
  rw [applyHeader,bind_unit_eq_ok,bind_eq_ok] at h
  obtain ⟨-,advanced,hadvanced,h⟩ := h
  rw [pure_eq_ok] at h
  have hsame : next.difficulty = advanced.difficulty := by
    rw [← h]
    split_ifs <;> rfl
  rw [hsame]
  rw [advanceWork] at hadvanced
  split_ifs at hadvanced with hgenesis
  · simp only [bind_eq_ok,pure_eq_ok] at hadvanced
    obtain ⟨oak,-,rfl⟩ := hadvanced
    exact hpos
  · simp only [bind_eq_ok,pure_eq_ok] at hadvanced
    obtain ⟨work,-,difficulty,hdifficulty,oak,-,rfl⟩ := hadvanced
    exact adjustDifficulty_pos hdifficulty

def applyHeaders (c : Crypto) (s : State) (headers : List (BlockHeader × Time)) : Outcome State :=
  headers.foldlM (fun s h => applyHeader c s h.1 h.2) s

theorem applyHeaders_pos {headers : List (BlockHeader × Time)} (h : applyHeaders c s headers = .ok next)
    (hpos : 1 ≤ s.difficulty.toNat) : 1 ≤ next.difficulty.toNat := by
  induction headers generalizing s with
  | nil =>
    obtain rfl : s = next := by simpa [applyHeaders] using h
    exact hpos
  | cons header headers ih =>
    rw [applyHeaders,List.foldlM_cons,bind_eq_ok] at h
    obtain ⟨s',hs',h⟩ := h
    exact ih h (applyHeader_pos hs' hpos)

theorem genesisState_pos {n : Network} {root : State} (h : n.genesisState = .ok root) : 1 ≤ root.difficulty.toNat := by
  simp only [Network.genesisState,bind_eq_ok,pure_eq_ok] at h
  obtain ⟨d,hd,work,-,rfl⟩ := h
  exact invTarget_pos hd

theorem powTarget_returns (hpos : 1 ≤ s.difficulty.toNat) : ∃ t, s.powTarget = .ok t := by
  rw [State.powTarget]
  split_ifs with hearly
  · exact ⟨_,rfl⟩
  · rw [invTarget_returns (Nat.one_le_iff_ne_zero.mp hpos)]
    exact ⟨_,rfl⟩

theorem updateTotalWork_returns (hheight : ¬ s.childHeight < Network.v2Height) (hpos : 1 ≤ s.difficulty.toNat)
    (htotal : s.totalWork.toNat < 2^200) (hdifficulty : s.difficulty.toNat < 2^200) :
    ∃ r, updateTotalWork s = .ok r ∧ r.1.toNat = s.totalWork.toNat + s.difficulty.toNat := by
  obtain ⟨total,hval⟩ := Work.exists_toNat (n := s.totalWork.toNat + s.difficulty.toNat) (by omega)
  have hadd : s.totalWork.add s.difficulty = .ok total := Work.add_eq_ok.mpr hval.symm
  refine ⟨(total, FixedBytes.ofNat 32 (maxTarget / total.toNat)),?_,hval⟩
  rw [updateTotalWork,if_neg hheight,hadd,ok_bind,invTarget_returns (by omega)]
  rfl

theorem updateOakWork_returns (hheight : ¬ s.childHeight < Network.v2Height) (hpos : 1 ≤ s.difficulty.toNat)
    (hdifficulty : s.difficulty.toNat < 2^200) (hoak : s.oakWork.toNat < 2^200) : ∃ r, updateOakWork s = .ok r := by
  obtain ⟨decay,hdecay,hdecayVal⟩ := s.oakWork.div64_returns (v := 200) (by decide)
  have hle : decay.toNat ≤ s.oakWork.toNat := by
    rw [hdecayVal]
    exact Nat.div_le_self _ _
  obtain ⟨decayed,hdecayed⟩ := Work.exists_toNat (n := s.oakWork.toNat - decay.toNat) (by omega)
  obtain ⟨work,hwork⟩ := Work.exists_toNat (n := decayed.toNat + s.difficulty.toNat) (by omega)
  have hsub : s.oakWork.sub decay = .ok decayed := Work.sub_eq_ok.mpr (by omega)
  have hadd : decayed.add s.difficulty = .ok work := Work.add_eq_ok.mpr hwork.symm
  refine ⟨(work, FixedBytes.ofNat 32 (maxTarget / work.toNat)),?_⟩
  rw [updateOakWork,if_neg hheight,hdecay,ok_bind,hsub,ok_bind,hadd,ok_bind,
    invTarget_returns (by omega)]
  rfl

theorem adjustDifficulty_returns (hheight : ¬ s.childHeight < Network.v2Height) (u : Time)
    (hd : adjustDifficultyFinalCut s t = .ok d) : ∃ r, adjustDifficulty s t u = .ok r ∧ r.1 = d := by
  have hpos := (adjustDifficultyFinalCut_bounds hd).1
  refine ⟨(d, FixedBytes.ofNat 32 (maxTarget / d.toNat)),?_,rfl⟩
  rw [adjustDifficulty,if_neg hheight,hd,ok_bind,invTarget_returns (by omega)]
  rfl

theorem applyHeader_returns {total adjusted oak : Work × BlockID} (hparent : bh.parentID = s.index.id)
    (hgenesis : bh.parentID ≠ default) (htotal : updateTotalWork s = .ok total)
    (hadjusted : adjustDifficulty s bh.timestamp t = .ok adjusted) (hoak : updateOakWork s = .ok oak) :
    ∃ next, applyHeader c s bh t = .ok next ∧ next.difficulty = adjusted.1 ∧ next.totalWork = total.1 := by
  have hadvanced : ∃ advanced, advanceWork c s bh t = .ok advanced ∧ advanced.difficulty = adjusted.1 ∧
      advanced.totalWork = total.1 := by
    rw [advanceWork,if_neg hgenesis,htotal,hadjusted,hoak]
    exact ⟨_,rfl,rfl,rfl⟩
  obtain ⟨advanced,hadvanced,hdifficulty,hwork⟩ := hadvanced
  simp only [applyHeader,crashIf,hparent,ne_eq,not_true_eq_false,and_false,if_false,ok_bind,
    hadvanced]
  refine ⟨_,rfl,?_,?_⟩
  · rw [← hdifficulty]
    split_ifs <;> rfl
  · rw [← hwork]
    split_ifs <;> rfl

/-- Applying a child header to a state with difficulty, whatever its timestamp does to the Oak time and to
the drift.  It returns; the difficulty stays positive and moves by at most 0.4% or 1; the total work grows
by the difficulty.  No chain of headers, from here or from the genesis state, makes `PoWTarget` divide by
zero. -/
theorem applyHeader_difficulty (hinterval : s.network.QdayInterval) (hheight : Network.v2Height ≤ s.childHeight)
    (hpos : 1 ≤ s.difficulty.toNat) (htotal : s.totalWork.toNat < 2^200) (hdifficulty : s.difficulty.toNat < 2^200)
    (hoak : s.oakWork.toNat < 2^200) (hid : s.index.id ≠ default) (hparent : bh.parentID = s.index.id)
    (targetTimestamp : Time) :
    (∃ next, applyHeader c s bh targetTimestamp = .ok next ∧ 1 ≤ next.difficulty.toNat ∧
      ((next.difficulty.toNat : ℤ) - s.difficulty.toNat).natAbs ≤ max 1 (s.difficulty.toNat / 250) ∧
      next.totalWork.toNat = s.totalWork.toNat + s.difficulty.toNat) ∧
    ∀ start headers last, (start = s ∨ s.network.genesisState = .ok start) →
      applyHeaders c start headers = .ok last → ∃ target, last.powTarget = .ok target := by
  have hearly : ¬ s.childHeight < Network.v2Height := UInt64.not_lt.mpr hheight
  constructor
  · obtain ⟨total,htotalOk,htotalVal⟩ := updateTotalWork_returns hearly hpos htotal hdifficulty
    obtain ⟨d,hd⟩ := adjustDifficultyFinalCut_returns hinterval hpos hdifficulty hoak bh.timestamp
    obtain ⟨adjusted,hadjusted,hfst⟩ := adjustDifficulty_returns hearly targetTimestamp hd
    obtain ⟨oak,hoakOk⟩ := updateOakWork_returns hearly hpos hdifficulty hoak
    obtain ⟨hone,hup,hdown⟩ := adjustDifficultyFinalCut_bounds hd
    have hgenesis : bh.parentID ≠ default := by rwa [hparent]
    obtain ⟨next,hnext,hdiff,hwork⟩ := applyHeader_returns (c := c) hparent hgenesis htotalOk hadjusted hoakOk
    rw [hfst] at hdiff
    refine ⟨next,hnext,by rw [hdiff]; exact hone,?_,by rw [hwork,htotalVal]⟩
    rw [hdiff]
    simp only [State.maxAdjust,Nat.max_def] at hup hdown
    rw [max_def]
    split_ifs at hup hdown ⊢ <;> omega
  · rintro start headers last (rfl | hstart) hrun
    · exact powTarget_returns (applyHeaders_pos hrun hpos)
    · exact powTarget_returns (applyHeaders_pos hrun (genesisState_pos hstart))

theorem applyHeader_difficulty_sample :
    ∃ next, applyHeader sampleCrypto (sampleState ⟨fun _ => default, 0⟩)
        ⟨(sampleState ⟨fun _ => default, 0⟩).index.id, 0, Time.ofUnix 99999999999, default⟩ default = .ok next ∧
      1 ≤ next.difficulty.toNat ∧ next.totalWork.toNat = 2 := by
  obtain ⟨⟨next,hnext,hpos,-,hwork⟩,-⟩ := applyHeader_difficulty (c := sampleCrypto)
    (s := sampleState ⟨fun _ => default,0⟩)
    (by decide) (by decide) (by decide) (by decide) (by decide) (by decide) (by decide)
    (show BlockHeader.parentID ⟨(sampleState ⟨fun _ => default,0⟩).index.id,0,Time.ofUnix 99999999999,default⟩ = _
      from rfl) default
  exact ⟨next,hnext,hpos,hwork.trans (by decide)⟩

end Header

end QdayNode
