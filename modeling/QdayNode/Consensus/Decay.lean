import QdayNode.Consensus.Genesis
import QdayNode.Consensus.Value

/-!
# The decay curve

`QdayValue` splits a value into quotient and remainder so that no product overflows.
What it computes is one fraction, rounded down once: the value times the blocks of
decay that are still ahead.  The curve is stated over the naturals; it is constant
while the shield lasts, never rises and ends at zero.
-/
namespace QdayNode
open Outcome

variable {e : ℕ}

section Curve

/-- The blocks of decay after `elapsed` blocks, in whole steps. -/
def decayAge (shield step blocks elapsed : ℕ) : ℕ := min blocks ((elapsed - shield) / step * step)

def decayCurve (shield step blocks value elapsed : ℕ) : ℕ :=
  value * (blocks - decayAge shield step blocks elapsed) / blocks

variable {shield step blocks : ℕ}

theorem remainingPart_eq (v remaining : ℕ) {d : ℕ} (hd : 0 < d) : remainingPart v d remaining = v * remaining / d := by
  calc remainingPart v d remaining
      = (v % d * remaining + d * (v / d * remaining)) / d := by
        rw [Nat.add_mul_div_left _ _ hd,remainingPart,Nat.add_comm]
    _ = (v % d + d * (v / d)) * remaining / d := by
        congr 1
        ring
    _ = v * remaining / d := by rw [Nat.mod_add_div]

theorem decayAge_mono {e' : ℕ} (h : e ≤ e') : decayAge shield step blocks e ≤ decayAge shield step blocks e' := by
  refine min_le_min_left blocks ?_
  exact Nat.mul_le_mul_right step (Nat.div_le_div_right (Nat.sub_le_sub_right h shield))

theorem decayCurve_antitone (value : ℕ) : Antitone (decayCurve shield step blocks value) := by
  intro e e' h
  refine Nat.div_le_div_right (Nat.mul_le_mul_left value ?_)
  exact Nat.sub_le_sub_left (decayAge_mono h) blocks

theorem decayCurve_of_le_shield (hblocks : 0 < blocks) (value : ℕ) (h : e ≤ shield) :
    decayCurve shield step blocks value e = value := by
  have hage : decayAge shield step blocks e = 0 := by simp [decayAge,Nat.sub_eq_zero_of_le h]
  rw [decayCurve,hage,Nat.sub_zero,Nat.mul_div_cancel _ hblocks]

theorem decayCurve_eq_zero (hdvd : step ∣ blocks) (value : ℕ) (h : shield + blocks ≤ e) :
    decayCurve shield step blocks value e = 0 := by
  have hwhole : blocks ≤ (e - shield) / step * step := by
    calc blocks = blocks / step * step := (Nat.div_mul_cancel hdvd).symm
      _ ≤ (e - shield) / step * step := Nat.mul_le_mul_right step (Nat.div_le_div_right (by omega))
  rw [decayCurve,decayAge,Nat.min_eq_left hwhole,Nat.sub_self,Nat.mul_zero,Nat.zero_div]

end Curve

section QdayValue

variable {s : State} {value : Currency} {maturityHeight height : UInt64}

/-- The height from which an output decays, once PQ Day has come. -/
def State.decayStart (s : State) (maturityHeight : UInt64) : ℕ := max s.qdayHeight.toNat maturityHeight.toNat

theorem State.toNat_decayStart (s : State) (maturityHeight : UInt64) :
    (max s.qdayHeight maturityHeight).toNat = s.decayStart maturityHeight := by
  change (if s.qdayHeight ≤ maturityHeight then maturityHeight else s.qdayHeight).toNat = _
  rw [State.decayStart]
  split_ifs with h
  · rw [max_eq_right (UInt64.le_iff_toNat_le.mp h)]
  · rw [max_eq_left (UInt64.lt_iff_toNat_lt.mp (UInt64.not_le.mp h)).le]

/-- While PQ Day is active, `QdayValue` is the point of the curve at the blocks since the start. -/
theorem qdayValue_of_active (hp : DecayParams s.network.qday) (value : Currency) (maturityHeight : UInt64)
    (hactive : s.qdayActive height = true) :
    ∃ r, s.qdayValue value maturityHeight height = .ok r ∧
      r.toNat = decayCurve s.network.qday.shieldBlocks.toNat s.network.qday.decayStep.toNat
        s.network.qday.decayBlocks.toNat value.toNat (height.toNat - s.decayStart maturityHeight) := by
  have hblocks : 0 < s.network.qday.decayBlocks.toNat := UInt64.lt_iff_toNat_lt.mp (UInt64.pos_iff_ne_zero.mpr hp.blocks)
  have hstart := s.toNat_decayStart maturityHeight
  simp only [State.qdayValue,crashIf,hp.step,if_false,ok_bind,hactive,not_true_eq_false]
  set start := max s.qdayHeight maturityHeight
  by_cases hearly : height ≤ start ∨ height - start ≤ s.network.qday.shieldBlocks
  · rw [if_pos hearly]
    refine ⟨value,rfl,(decayCurve_of_le_shield hblocks _ ?_).symm⟩
    rw [← hstart]
    rcases hearly with hle | hshield
    · have := UInt64.le_iff_toNat_le.mp hle
      omega
    · by_cases hle : height ≤ start
      · have := UInt64.le_iff_toNat_le.mp hle
        omega
      · rw [← UInt64.toNat_sub_of_le _ _ (UInt64.le_of_lt (UInt64.not_le.mp hle))]
        exact UInt64.le_iff_toNat_le.mp hshield
  · rw [if_neg hearly]
    obtain ⟨hlate,hshield⟩ := not_or.mp hearly
    have helapsed := UInt64.toNat_sub_of_le _ _ (UInt64.le_of_lt (UInt64.not_le.mp hlate))
    have hpast := UInt64.toNat_sub_of_le _ _ (UInt64.le_of_lt (UInt64.not_le.mp hshield))
    -- the age in whole steps does not wrap, since it is at most the blocks past the shield
    have hage : ((height - start - s.network.qday.shieldBlocks) / s.network.qday.decayStep *
        s.network.qday.decayStep).toNat = (height.toNat - start.toNat - s.network.qday.shieldBlocks.toNat) /
          s.network.qday.decayStep.toNat * s.network.qday.decayStep.toNat := by
      rw [UInt64.toNat_mul,UInt64.toNat_div,hpast,helapsed,Nat.mod_eq_of_lt]
      refine lt_of_le_of_lt (Nat.div_mul_le_self _ _) ?_
      have := height.toNat_lt
      omega
    set age := (height - start - s.network.qday.shieldBlocks) / s.network.qday.decayStep * s.network.qday.decayStep
    rw [← hstart,decayCurve,decayAge,← hage]
    by_cases hend : age ≥ s.network.qday.decayBlocks
    · rw [if_pos hend]
      refine ⟨Currency.zeroCurrency,rfl,?_⟩
      rw [Nat.min_eq_left (UInt64.le_iff_toNat_le.mp hend),Nat.sub_self,Nat.mul_zero,Nat.zero_div]
      rfl
    · rw [if_neg hend]
      have hlt : age < s.network.qday.decayBlocks := UInt64.not_le.mp hend
      have hremaining := UInt64.toNat_sub_of_le _ _ (UInt64.le_of_lt hlt)
      have hle : (s.network.qday.decayBlocks - age).toNat ≤ s.network.qday.decayBlocks.toNat := by omega
      obtain ⟨r,hr,hval⟩ := decay_computes value hp.blocks hp.blocks_le hle
      refine ⟨r,hr,?_⟩
      rw [hval,remainingPart_eq _ _ hblocks,hremaining,
        Nat.min_eq_right (UInt64.le_iff_toNat_le.mp (UInt64.le_of_lt hlt))]

theorem qdayValue_of_inactive (hactive : s.qdayActive height = false) :
    s.qdayValue value maturityHeight height = .ok value := by
  simp [State.qdayValue,hactive]

theorem qdayActive_mono {height' : UInt64} (hle : height ≤ height') (h : s.qdayActive height = true) :
    s.qdayActive height' = true := by
  simp only [State.qdayActive,Bool.and_eq_true,decide_eq_true_eq,ge_iff_le] at h ⊢
  exact ⟨h.1,UInt64.le_trans h.2 hle⟩

theorem decayStep_dvd {c : Crypto} {p : QdayParams} (h : p.validate c = .ok ()) :
    p.decayStep.toNat ∣ p.decayBlocks.toNat := by
  rw [QdayParams.validate,bind_unit_eq_ok,bind_eq_ok] at h
  obtain ⟨-,premine,-,h⟩ := h
  rw [bind_unit_eq_ok,bind_unit_eq_ok] at h
  simp only [rejectIf_eq_ok,not_or,not_not] at h
  obtain ⟨-,⟨-,-,-,-,-,-,-,-,-,-,hmod,-⟩,-⟩ := h
  refine Nat.dvd_of_mod_eq_zero ?_
  rw [← UInt64.toNat_mod,hmod]
  rfl

/-- `QdayValue` under the parameters that are admitted.  It always returns: the nominal value until
PQ Day and the end of the shield, and from then on the value times the decay still ahead, rounded
down once.  So it never exceeds the nominal value, never rises with the height, and is zero when the
decay is over. -/
theorem qdayValue_curve {c : Crypto} (hvalid : s.network.qday.validate c = .ok ()) (value : Currency)
    (maturityHeight : UInt64) :
    ∃ worth : UInt64 → Currency,
      (∀ height, s.qdayValue value maturityHeight height = .ok (worth height)) ∧
      (∀ height, (s.qdayActive height = false ∨
          height.toNat - max s.qdayHeight.toNat maturityHeight.toNat ≤ s.network.qday.shieldBlocks.toNat) →
        worth height = value) ∧
      (∀ height, s.qdayActive height = true →
        s.network.qday.shieldBlocks.toNat < height.toNat - max s.qdayHeight.toNat maturityHeight.toNat →
        (worth height).toNat = value.toNat * (s.network.qday.decayBlocks.toNat - min s.network.qday.decayBlocks.toNat
          ((height.toNat - max s.qdayHeight.toNat maturityHeight.toNat - s.network.qday.shieldBlocks.toNat) /
            s.network.qday.decayStep.toNat * s.network.qday.decayStep.toNat)) / s.network.qday.decayBlocks.toNat) ∧
      (∀ height, (worth height).toNat ≤ value.toNat) ∧
      (∀ height height', height ≤ height' → (worth height').toNat ≤ (worth height).toNat) ∧
      (∀ height, s.qdayHeight ≠ 0 → max s.qdayHeight.toNat maturityHeight.toNat + s.network.qday.shieldBlocks.toNat +
          s.network.qday.decayBlocks.toNat ≤ height.toNat → worth height = Currency.zeroCurrency) := by
  have hp := decayParams_of_validate hvalid
  have hblocks : 0 < s.network.qday.decayBlocks.toNat := UInt64.lt_iff_toNat_lt.mp (UInt64.pos_iff_ne_zero.mpr hp.blocks)
  choose worth hworth hle using qdayValue_returns (s := s) hp value maturityHeight
  have hactive : ∀ height, s.qdayActive height = true → (worth height).toNat =
      decayCurve s.network.qday.shieldBlocks.toNat s.network.qday.decayStep.toNat s.network.qday.decayBlocks.toNat
        value.toNat (height.toNat - s.decayStart maturityHeight) := by
    intro height h
    obtain ⟨r,hr,hval⟩ := qdayValue_of_active hp value maturityHeight h
    rwa [← Except.ok.inj ((hworth height).symm.trans hr)] at hval
  have hinactive : ∀ height, s.qdayActive height = false → worth height = value := fun height h =>
    Except.ok.inj ((hworth height).symm.trans (qdayValue_of_inactive h))
  refine ⟨worth,hworth,fun height h => ?_,fun height h _ => hactive height h,hle,fun height height' h => ?_,
    fun height hday h => ?_⟩
  · cases hday : s.qdayActive height with
    | false => exact hinactive height hday
    | true =>
      have hshield := h.resolve_left (by simp [hday])
      exact Currency.toNat_inj ((hactive height hday).trans (decayCurve_of_le_shield hblocks _ hshield))
  · cases hday : s.qdayActive height with
    | false =>
      rw [hinactive height hday]
      exact hle height'
    | true =>
      rw [hactive height hday,hactive height' (qdayActive_mono h hday)]
      exact decayCurve_antitone _ (Nat.sub_le_sub_right (UInt64.le_iff_toNat_le.mp h) _)
  · have hday : s.qdayActive height = true := by
      simp only [State.qdayActive,Bool.and_eq_true,decide_eq_true_eq,ge_iff_le]
      exact ⟨hday,UInt64.le_iff_toNat_le.mpr (by omega)⟩
    refine Currency.toNat_inj ((hactive height hday).trans ?_)
    rw [decayCurve_eq_zero (decayStep_dvd hvalid) _ (by rw [State.decayStart]; omega)]
    rfl

theorem qdayValue_curve_sample :
    ∃ worth : UInt64 → Currency, (∀ height, State.qdayValue { sampleState ⟨fun _ => default, 0⟩ with qdayHeight := 100 }
      ⟨1000, 0⟩ 100 height = .ok (worth height)) ∧ worth 122 = ⟨583, 0⟩ ∧ worth 136 = Currency.zeroCurrency := by
  have hvalid : sampleNetwork.qday.validate sampleCrypto = .ok () := by decide +kernel
  obtain ⟨worth,hworth,-,hexact,-,-,hzero⟩ := qdayValue_curve (c := sampleCrypto)
    (s := { sampleState ⟨fun _ => default,0⟩ with qdayHeight := 100 }) hvalid ⟨1000,0⟩ 100
  refine ⟨worth,hworth,Currency.toNat_inj ?_,hzero 136 (by decide) (by decide)⟩
  rw [hexact 122 (by decide) (by decide)]
  decide +kernel

end QdayValue

end QdayNode
