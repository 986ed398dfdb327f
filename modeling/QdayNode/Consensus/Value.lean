import QdayNode.Consensus.BlockLedger

/-!
# Value

What an output can be spent for never exceeds its nominal value.  A transfer creates
at most what its inputs are still worth, less its fee, so over the records of a block
nothing is gained except the payout; this holds for every way of valuing coins
between the spendable and the nominal value.
-/
namespace QdayNode
open ByteString Outcome

variable {c : Crypto} {s : State} {v : Coin → ℕ}

section QdayValue

/-- The decay parameters that `QdayParams.Validate` admits. -/
structure DecayParams (p : QdayParams) : Prop where
  step : p.decayStep ≠ 0
  blocks : p.decayBlocks ≠ 0
  blocks_le : p.decayBlocks.toNat ≤ 10000000

theorem decayParams_of_validate {p : QdayParams} (h : p.validate c = .ok ()) : DecayParams p := by
  rw [QdayParams.validate,bind_unit_eq_ok,bind_eq_ok] at h
  obtain ⟨-,premine,-,h⟩ := h
  rw [bind_unit_eq_ok,bind_unit_eq_ok] at h
  simp only [rejectIf_eq_ok,not_or] at h
  obtain ⟨-,⟨-,-,-,-,-,-,-,hblocks,hle,hstep,-⟩,-⟩ := h
  exact ⟨hstep,hblocks,UInt64.le_iff_toNat_le.mp (UInt64.not_lt.mp hle)⟩

/-- The part of a value that remains: the whole multiples of `d` and the rest, both in proportion. -/
def remainingPart (v d remaining : ℕ) : ℕ := v / d * remaining + v % d * remaining / d

theorem remainingPart_le {v d remaining : ℕ} (hd : 0 < d) (hle : remaining ≤ d) : remainingPart v d remaining ≤ v := by
  have hpart : v % d * remaining / d ≤ v % d := by
    calc v % d * remaining / d ≤ v % d * d / d := Nat.div_le_div_right (Nat.mul_le_mul_left _ hle)
      _ = v % d := Nat.mul_div_cancel _ hd
  calc remainingPart v d remaining ≤ v / d * d + v % d := Nat.add_le_add (Nat.mul_le_mul_left _ hle) hpart
    _ = v := Nat.div_add_mod' v d

/-- The 128-bit computation of `QdayValue` gives the remaining part and does not overflow. -/
theorem decay_computes (value : Currency) {d remaining : UInt64} (hd : d ≠ 0) (hdle : d.toNat ≤ 10000000)
    (hle : remaining.toNat ≤ d.toNat) :
    ∃ r, (do
      let q ← value.div64 d
      let whole ← q.mul64 d
      let r ← value.sub whole
      let decayed ← q.mul64 remaining
      let part ← r.mul64 remaining
      let part ← part.div64 d
      decayed.add part : Outcome Currency) = .ok r ∧ r.toNat = remainingPart value.toNat d.toNat remaining.toNat := by
  have hpos : 0 < d.toNat := UInt64.lt_iff_toNat_lt.mp (UInt64.pos_iff_ne_zero.mpr hd)
  have hlt := value.toNat_lt
  have hsplit := Nat.div_add_mod' value.toNat d.toNat
  have hmod := Nat.mod_lt value.toNat hpos
  have hscaled : value.toNat / d.toNat * remaining.toNat ≤ value.toNat / d.toNat * d.toNat := Nat.mul_le_mul_left _ hle
  have hrest : value.toNat % d.toNat * remaining.toNat ≤ 10000000 * 10000000 :=
    Nat.mul_le_mul (hmod.le.trans hdle) (hle.trans hdle)
  have hresult := remainingPart_le (v := value.toNat) hpos hle
  obtain ⟨q,hq⟩ := Currency.exists_toNat (lt_of_le_of_lt (Nat.div_le_self value.toNat d.toNat) hlt)
  obtain ⟨whole,hwhole⟩ := Currency.exists_toNat (n := value.toNat / d.toNat * d.toNat) (by omega)
  obtain ⟨rest,hrest'⟩ := Currency.exists_toNat (n := value.toNat % d.toNat) (by omega)
  obtain ⟨decayed,hdecayed⟩ := Currency.exists_toNat (n := value.toNat / d.toNat * remaining.toNat) (by omega)
  obtain ⟨product,hproduct⟩ := Currency.exists_toNat (n := value.toNat % d.toNat * remaining.toNat) (by omega)
  obtain ⟨part,hpart⟩ := Currency.exists_toNat (n := value.toNat % d.toNat * remaining.toNat / d.toNat)
    (lt_of_le_of_lt (Nat.div_le_self _ _) (by omega))
  obtain ⟨r,hr⟩ := Currency.exists_toNat (n := remainingPart value.toNat d.toNat remaining.toNat) (by omega)
  refine ⟨r,?_,hr⟩
  have h₁ : value.div64 d = .ok q := (Currency.div64_eq_ok hd).mpr hq
  have h₂ : q.mul64 d = .ok whole := Currency.mul64_eq_ok.mpr (by rw [hq,hwhole])
  have h₃ : value.sub whole = .ok rest := Currency.sub_eq_ok.mpr (by rw [hrest',hwhole]; omega)
  have h₄ : q.mul64 remaining = .ok decayed := Currency.mul64_eq_ok.mpr (by rw [hq,hdecayed])
  have h₅ : rest.mul64 remaining = .ok product := Currency.mul64_eq_ok.mpr (by rw [hrest',hproduct])
  have h₆ : product.div64 d = .ok part := (Currency.div64_eq_ok hd).mpr (by rw [hpart,hproduct])
  have h₇ : decayed.add part = .ok r := Currency.add_eq_ok.mpr (by rw [hdecayed,hpart,hr,remainingPart])
  simp only [h₁,h₂,h₃,h₄,h₅,h₆,h₇,ok_bind]

theorem qdayValue_returns (hp : DecayParams s.network.qday) (value : Currency) (maturityHeight height : UInt64) :
    ∃ r, s.qdayValue value maturityHeight height = .ok r ∧ r.toNat ≤ value.toNat := by
  simp only [State.qdayValue,crashIf,hp.step,if_false,ok_bind]
  split_ifs with hactive hearly hage
  · exact ⟨value,rfl,le_rfl⟩
  · exact ⟨Currency.zeroCurrency,rfl,by simp⟩
  · set age := (height - max s.qdayHeight maturityHeight - s.network.qday.shieldBlocks) /
      s.network.qday.decayStep * s.network.qday.decayStep
    have hlt : age < s.network.qday.decayBlocks := UInt64.not_le.mp hage
    have hle : (s.network.qday.decayBlocks - age).toNat ≤ s.network.qday.decayBlocks.toNat := by
      rw [UInt64.toNat_sub_of_le _ _ (UInt64.le_of_lt hlt)]
      exact Nat.sub_le _ _
    obtain ⟨r,hr,hval⟩ := decay_computes value hp.blocks hp.blocks_le hle
    refine ⟨r,hr,?_⟩
    rw [hval]
    exact remainingPart_le (UInt64.lt_iff_toNat_lt.mp (UInt64.pos_iff_ne_zero.mpr hp.blocks)) hle
  · exact ⟨value,rfl,le_rfl⟩

end QdayValue

section Balance

/-- A way to value coins at the next height, between what they can be spent for and what they say. -/
structure Valuation (s : State) (v : Coin → ℕ) : Prop where
  le_nominal : ∀ k, v k ≤ k.output.value.toNat
  spendable : ∀ k value, s.qdayValue k.output.value k.maturityHeight s.childHeight = .ok value → value.toNat ≤ v k

def Coin.nominal (k : Coin) : ℕ := k.output.value.toNat

def State.worth (s : State) (height : UInt64) (k : Coin) : ℕ :=
  match s.qdayValue k.output.value k.maturityHeight height with
  | .ok r => r.toNat
  | .error _ => 0

variable {created unspent coins : List Coin} {txns : List V2Transaction} {ms ms' : MidState}

theorem valuation_nominal (hp : DecayParams s.network.qday) : Valuation s Coin.nominal := by
  refine ⟨fun k => le_rfl,fun k value hvalue => ?_⟩
  obtain ⟨r,hr,hle⟩ := qdayValue_returns hp k.output.value k.maturityHeight s.childHeight
  obtain rfl : value = r := Except.ok.inj (hvalue.symm.trans hr)
  exact hle

theorem valuation_worth (hp : DecayParams s.network.qday) : Valuation s (s.worth s.childHeight) := by
  refine ⟨fun k => ?_,fun k value hvalue => ?_⟩
  · obtain ⟨r,hr,hle⟩ := qdayValue_returns hp k.output.value k.maturityHeight s.childHeight
    rw [State.worth,hr]
    exact hle
  · rw [State.worth,hvalue]

/-- What a record adds to the unspent outputs: its coin if it is new and unspent, minus its coin if
it was there before. -/
def SiacoinElementDiff.balance (v : Coin → ℕ) (d : SiacoinElementDiff) : ℤ :=
  if d.created then (if d.spent then 0 else v d.siacoinElement.coin) else -(v d.siacoinElement.coin)

theorem balance_spent {sci : V2SiacoinInput} (hparent : BlockLedger.Parent unspent ms sci) (v : Coin → ℕ) :
    (ms.spentDiff sci.parent).balance v - (ms.record sci.parentID).elim 0 (SiacoinElementDiff.balance v) =
      -(v sci.parent.coin : ℤ) := by
  change SiacoinElementDiff.balance v ⟨sci.parent,(ms.record sci.parentID).elim false SiacoinElementDiff.created,true⟩ -
    _ = _
  cases hparent with
  | old hrecord _ _ => simp [hrecord,SiacoinElementDiff.balance]
  | new d hrecord hcreated hlive hcoin _ => simp [hrecord,SiacoinElementDiff.balance,hcreated,hlive,hcoin]

theorem inputValues_le (hv : Valuation s v) (hbase : ms.base = s) {scis : List V2SiacoinInput}
    {values : List Currency} (h : inputValues ms scis = .ok values) :
    (values.map Currency.toNat).sum ≤ (scis.map fun sci => v sci.parent.coin).sum := by
  induction scis generalizing values with
  | nil =>
    obtain rfl : [] = values := by simpa [inputValues] using h
    simp
  | cons sci scis ih =>
    simp only [inputValues,List.mapM_cons,bind_eq_ok,pure_eq_ok] at h
    obtain ⟨value,hvalue,rest,hrest,rfl⟩ := h
    rw [hbase] at hvalue
    simp only [List.map_cons,List.sum_cons]
    exact Nat.add_le_add (hv.spendable sci.parent.coin value hvalue) (ih hrest)

theorem sum_coins_le (hv : Valuation s v) (c : Crypto) (height : UInt64) (txn : V2Transaction) :
    ((txn.coins c height).map v).sum ≤ (txn.siacoinOutputs.map fun sco => sco.value.toNat).sum := by
  have hmap : (txn.coins c height).map Coin.nominal = txn.siacoinOutputs.map fun sco => sco.value.toNat := by
    refine List.ext_getElem? fun i => ?_
    simp only [V2Transaction.coins,List.getElem?_map,List.getElem?_mapIdx,Option.map_map]
    rfl
  rw [← hmap]
  exact List.sum_le_sum fun k _ => hv.le_nominal k

/-- A transfer gains nothing: what it leaves and its fee are covered by what it takes. -/
theorem transfer_balance {txn : V2Transaction} (hv : Valuation s v) (hbase : ms.base = s)
    (haccepted : TransferAccepted c ms txn) (happlied : TransferApplied c ms ms' txn)
    (hparents : ∀ sci ∈ txn.siacoinInputs, BlockLedger.Parent unspent ms sci) :
    ms'.total (SiacoinElementDiff.balance v) + txn.minerFee.toNat ≤ ms.total (SiacoinElementDiff.balance v) := by
  obtain ⟨values,hvalues,hfunded⟩ := haccepted.funded
  have hin := inputValues_le hv hbase hvalues
  have hout := sum_coins_le hv c ms.base.childHeight txn
  have hspent : (txn.siacoinInputs.map fun sci => (ms.spentDiff sci.parent).balance v -
      (ms.record sci.parentID).elim 0 (SiacoinElementDiff.balance v)).sum =
      -((txn.siacoinInputs.map fun sci => v sci.parent.coin).sum : ℤ) := by
    rw [List.map_congr_left fun sci hsci => balance_spent (hparents sci hsci) v,Nat.cast_list_sum,List.map_map,
      List.sum_neg,List.map_map]
    rfl
  have hcreated : (txn.siacoinOutputs.mapIdx fun i sco => SiacoinElementDiff.balance v
      (MidState.freshDiff ms.base.childHeight (siacoinOutputID c (txn.id c) i) sco)).sum =
      (((txn.coins c ms.base.childHeight).map v).sum : ℤ) := by
    rw [Nat.cast_list_sum]
    congr 1
    refine List.ext_getElem? fun i => ?_
    simp only [V2Transaction.coins,List.getElem?_map,List.getElem?_mapIdx,Option.map_map]
    rfl
  rw [happlied.total,hspent,hcreated]
  omega

end Balance

end QdayNode
