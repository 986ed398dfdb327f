import QdayNode.Consensus.Envelope
import QdayNode.Consensus.Verdict

/-!
# Mining candidates are valid

`CandidateWithNonce` repeats the rules of `ValidateBlock` while it collects transactions:
it keeps a `MidState` that the coinbase marker has not been applied to, a weight with an
allowance for the work marker, and the payout.  What it builds differs from a valid block
by its proof of work only.
-/
namespace QdayNode
open ByteString Outcome

variable {ms : MidState} {txn : V2Transaction} {chosen rest : List V2Transaction} {cand : Candidate}

section Transfers

variable {c : Crypto} {s : State} {ms' : MidState}

def validateTransfers (c : Crypto) (txns : List V2Transaction) (ms : MidState) : Outcome MidState :=
  txns.foldlM (fun ms txn => do
    validateV2Transaction c ms txn
    ms.applyV2Transaction c txn) ms

variable {txns : List V2Transaction}

theorem validateTransfers_snoc :
    validateTransfers c (txns ++ [txn]) ms = .ok ms' ↔ ∃ ms₁, validateTransfers c txns ms = .ok ms₁ ∧
      validateV2Transaction c ms₁ txn = .ok () ∧ ms₁.applyV2Transaction c txn = .ok ms' := by
  simp only [validateTransfers,List.foldlM_append,List.foldlM_cons,List.foldlM_nil,bind_eq_ok,
    pure_eq_ok,exists_eq_right]
  refine exists_congr fun ms₁ => and_congr_right fun _ => ?_
  constructor
  · rintro ⟨_,h⟩
    exact h
  · intro h
    exact ⟨(),h⟩

theorem Reached.of_transfers (h : validateTransfers c txns (newMidState s) = .ok ms) :
    Reached c s txns ms := by
  induction txns using List.reverseRecOn generalizing ms with
  | nil =>
    obtain rfl : newMidState s = ms := by simpa [validateTransfers] using h
    exact .start
  | append_singleton txns txn ih =>
    obtain ⟨ms₁,h,hvalid,happly⟩ := validateTransfers_snoc.mp h
    exact .transfer (ih h) hvalid happly

theorem validateTransactions_transfers {count : ℕ} {i : ℕ} (rest : List V2Transaction)
    (hpos : ∀ j, i ≤ j → j < i + txns.length → isMarkerPosition s count j = false)
    (h : validateTransfers c txns ms = .ok ms') :
    validateTransactions c s count (txns ++ rest) i ms = validateTransactions c s count rest (i + txns.length) ms' := by
  induction txns generalizing i ms with
  | nil =>
    obtain rfl : ms = ms' := by simpa [validateTransfers] using h
    rfl
  | cons txn txns ih =>
    simp only [validateTransfers,List.foldlM_cons,bind_eq_ok] at h
    obtain ⟨ms₁,⟨⟨⟩,hvalid,happly⟩,h⟩ := h
    rw [List.length_cons] at hpos
    have hhere := hpos i le_rfl (by omega)
    rw [List.cons_append,validateTransactions,runIf,if_pos hhere,hvalid,ok_bind,happly,
      ok_bind,ih (fun j hj hlt => hpos j (by omega) (by omega)) h,List.length_cons]
    congr 1
    omega

theorem IsMarker.applyV2Transaction (h : IsMarker txn) :
    ms.applyV2Transaction c txn = .ok ms := by
  obtain ⟨e,he,hkind⟩ := h.kind
  have hnote : ms.noteCanaryProof txn = ms := by
    rw [MidState.noteCanaryProof,he]
    exact if_neg hkind
  rw [MidState.applyV2Transaction_of_supported h.supported,h.inputs,h.outputs,hnote]
  rfl

end Transfers

section Markers

variable {c : Crypto} {miner : QdayKeys} (markerNonce : UInt64)

theorem coinbaseMarker_valid (hkeys : miner.validate = .ok ()) :
    isCoinbaseMarker c (miner.policy.address c) (coinbaseMarker miner markerNonce) = true := by
  have hparse : parseQdayEnvelope (coinbaseMarker miner markerNonce).arbitraryData =
      .ok ⟨qdayCoinbase,markerNonce,[miner],default⟩ :=
    parseQdayEnvelope_encode ⟨by simp only [qdayTransfer,qdayCoinbase]; decide,by simp only [qdayMiningWork,qdayCoinbase]; decide⟩
      (Nat.le_of_ble_eq_true rfl) (List.forall_mem_singleton.mpr hkeys) fun _ => rfl
  rw [isCoinbaseMarker,hparse]
  simp [coinbaseMarker,qdayUnsupported,Currency.isZero_iff]

theorem miningWorkMarker_valid : isMiningWorkMarker (miningWorkMarker markerNonce) = true := by
  have hparse : parseQdayEnvelope (miningWorkMarker markerNonce).arbitraryData =
      .ok ⟨qdayMiningWork,markerNonce,[],default⟩ :=
    parseQdayEnvelope_encode ⟨by simp only [qdayTransfer,qdayMiningWork]; decide,UInt8.le_refl _⟩
      (Nat.zero_le _) (by simp) fun _ => rfl
  rw [isMiningWorkMarker,hparse]
  simp [miningWorkMarker,qdayUnsupported,Currency.isZero_iff]

theorem weight_marker (e : QdayEnvelope) (hlen : e.keys.length ≤ 128) :
    (v2TransactionWeight { arbitraryData := e.encode }).toNat = e.encode.length := by
  have hweighed : V2Transaction.weighed { arbitraryData := e.encode } = e.encode := by
    simp [V2Transaction.weighed]
  rw [v2TransactionWeight,hweighed]
  refine UInt64.toNat_ofNat_of_lt' ?_
  have := e.length_encode
  split_ifs at this
  · change _ < 2^64
    omega
  · change _ < 2^64
    omega

theorem weight_coinbaseMarker : (v2TransactionWeight (coinbaseMarker miner markerNonce)).toNat = 80 := by
  rw [coinbaseMarker,weight_marker,QdayEnvelope.length_encode]
  · rfl
  · exact Nat.le_of_ble_eq_true rfl

theorem weight_miningWorkMarker : (v2TransactionWeight (miningWorkMarker markerNonce)).toNat = 16 := by
  rw [miningWorkMarker,weight_marker,QdayEnvelope.length_encode]
  · rfl
  · exact Nat.zero_le _

end Markers

section Collected

variable {c : Crypto} {s : State} {marker : V2Transaction} {cand' : Candidate}

/-- What `CandidateWithNonce` keeps up while it collects transactions. -/
structure Candidate.Collected (c : Crypto) (s : State) (marker : V2Transaction) (chosen : List V2Transaction)
    (cand : Candidate) : Prop where
  transactions : cand.transactions = marker :: chosen
  transfers : validateTransfers c chosen (newMidState s) = .ok cand.ms
  weight : cand.weight.toNat = 128 + ((marker :: chosen).map fun txn => (v2TransactionWeight txn).toNat).sum
  weight_le : cand.weight ≤ State.maxBlockWeight
  value : cand.value.toNat = s.blockReward.toNat + (chosen.map fun txn => txn.minerFee.toNat).sum

theorem Candidate.consider_cases (h : cand.consider c txn = .ok cand') :
    cand' = cand ∨ cand.weight + v2TransactionWeight txn ≤ State.maxBlockWeight ∧
      validateV2Transaction c cand.ms txn = .ok () ∧ ∃ ms value, cand.ms.applyV2Transaction c txn = .ok ms ∧
        cand.value.add txn.minerFee = .ok value ∧
        cand' = ⟨ms, cand.weight + v2TransactionWeight txn, cand.transactions ++ [txn], value⟩ := by
  rw [Candidate.consider] at h
  split_ifs at h with hfits
  · exact .inl (Except.ok.inj h).symm
  · split at h
    · cases h
    · exact .inl (Except.ok.inj h).symm
    · simp only [bind_eq_ok,pure_eq_ok] at h
      obtain ⟨ms,happly,value,hvalue,rfl⟩ := h
      exact .inr ⟨UInt64.not_lt.mp hfits,‹_›,ms,value,happly,hvalue,rfl⟩

theorem Candidate.Collected.consider (h : Candidate.Collected c s marker chosen cand)
    (hstep : cand.consider c txn = .ok cand') :
    Candidate.Collected c s marker chosen cand' ∨ Candidate.Collected c s marker (chosen ++ [txn]) cand' := by
  obtain rfl | ⟨hfits,hvalid,ms,value,happly,hvalue,rfl⟩ := Candidate.consider_cases hstep
  · exact .inl h
  · -- neither addend exceeds the limit of two million, so the sum does not wrap
    have hweight : (cand.weight + v2TransactionWeight txn).toNat = cand.weight.toNat + (v2TransactionWeight txn).toNat := by
      have hle := UInt64.le_iff_toNat_le.mp h.weight_le
      have hle' := UInt64.le_iff_toNat_le.mp (transfer_accepted hvalid).2.weight_le
      have hmax : State.maxBlockWeight.toNat = 2000000 := rfl
      rw [UInt64.toNat_add,Nat.mod_eq_of_lt (by omega)]
    refine .inr ⟨?_,validateTransfers_snoc.mpr ⟨cand.ms,h.transfers,hvalid,happly⟩,?_,hfits,?_⟩
    · simp only [h.transactions,List.cons_append]
    · simp only [hweight,h.weight,← List.cons_append,List.map_append,List.sum_append,List.map_singleton,
        List.sum_singleton,Nat.add_assoc]
    · simp only [← Currency.add_eq_ok.mp hvalue,h.value,List.map_append,List.sum_append,List.map_singleton,
        List.sum_singleton,Nat.add_assoc]

theorem Candidate.Collected.run (txns : List V2Transaction) (h : Candidate.Collected c s marker chosen cand)
    (hrun : txns.foldlM (Candidate.consider c) cand = .ok cand') : ∃ chosen', Candidate.Collected c s marker chosen' cand' := by
  induction txns generalizing chosen cand with
  | nil =>
    obtain rfl : cand = cand' := by simpa using hrun
    exact ⟨chosen,h⟩
  | cons txn txns ih =>
    rw [List.foldlM_cons,bind_eq_ok] at hrun
    obtain ⟨cand₁,hstep,hrun⟩ := hrun
    obtain h₁ | h₁ := h.consider hstep
    · exact ih h₁ hrun
    · exact ih h₁ hrun

theorem Candidate.Collected.start (c : Crypto) (s : State) (miner : QdayKeys) (markerNonce : UInt64) :
    Candidate.Collected c s (coinbaseMarker miner markerNonce) []
      ⟨newMidState s, v2TransactionWeight (coinbaseMarker miner markerNonce) + 128, [coinbaseMarker miner markerNonce],
        s.blockReward⟩ := by
  have hweight : (v2TransactionWeight (coinbaseMarker miner markerNonce) + 128).toNat = 208 := by
    rw [UInt64.toNat_add,weight_coinbaseMarker]
    rfl
  refine ⟨rfl,rfl,?_,UInt64.le_iff_toNat_le.mpr ?_,by simp⟩
  · simp [hweight,weight_coinbaseMarker]
  · rw [hweight]
    decide

end Collected

section Validity

variable {c : Crypto} {s : State} {miner : QdayKeys} {txns : List V2Transaction} {timestamp median : Time}
  {markerNonce : UInt64} {b : Block}

def checkWork (c : Crypto) (s : State) (b : Block) : Outcome Unit := do
  let target ← s.powTarget
  rejectIf (lessWork (b.id c) target = true) "insufficient work"

def candidateTransactions (s : State) (miner : QdayKeys) (markerNonce : UInt64) (chosen : List V2Transaction) :
    List V2Transaction :=
  coinbaseMarker miner markerNonce :: (chosen ++
    if s.qdayV1Active s.childHeight then [miningWorkMarker markerNonce] else [])

def candidateBlock (c : Crypto) (s : State) (miner : QdayKeys) (timestamp : Time) (markerNonce : UInt64)
    (chosen : List V2Transaction) (value : Currency) : Block where
  parentID := s.index.id
  nonce := 0
  timestamp := ⟨timestamp.sec, 0⟩
  minerPayouts := [⟨value, miner.policy.address c⟩]
  transactions := []
  v2 := some ⟨s.index.height + 1,
    s.commitment c (miner.policy.address c) [] (candidateTransactions s miner markerNonce chosen),
    candidateTransactions s miner markerNonce chosen⟩

theorem candidate_built (hb : candidateWithNonce c s miner txns timestamp markerNonce = .ok b) :
    ∃ chosen cand, Candidate.Collected c s (coinbaseMarker miner markerNonce) chosen cand ∧
      b = candidateBlock c s miner timestamp markerNonce chosen cand.value := by
  simp only [candidateWithNonce,bind_eq_ok,pure_eq_ok] at hb
  obtain ⟨cand,hrun,rfl⟩ := hb
  obtain ⟨chosen,h⟩ := Candidate.Collected.run txns (Candidate.Collected.start c s miner markerNonce) hrun
  refine ⟨chosen,cand,h,?_⟩
  have htxns : (if s.qdayV1Active s.childHeight = true then cand.transactions ++ [miningWorkMarker markerNonce]
      else cand.transactions) = candidateTransactions s miner markerNonce chosen := by
    rw [candidateTransactions,h.transactions]
    split_ifs
    · rfl
    · rw [List.append_nil]
  simp only [htxns,candidateBlock]

variable (h : Candidate.Collected c s (coinbaseMarker miner markerNonce) chosen cand)

theorem validateHeader_candidate {value : Currency} (hmedian : s.medianTimestamp = .ok median)
    (htime : (Time.mk timestamp.sec 0).before median = false) :
    validateHeader c s ((candidateBlock c s miner timestamp markerNonce chosen value).header c) =
      checkWork c s (candidateBlock c s miner timestamp markerNonce chosen value) := by
  set bh := (candidateBlock c s miner timestamp markerNonce chosen value).header c
  have hparent : bh.parentID = s.index.id := rfl
  have hnonce : bh.nonce % Network.nonceFactor = 0 := rfl
  have hbefore : bh.timestamp.before median = false := htime
  rw [validateHeader,rejectIf_of_not (not_not.mpr hparent),ok_bind,hmedian,ok_bind,
    rejectIf_of_not (ne_true_of_eq_false hbefore),ok_bind,
    rejectIf_of_not (not_not.mpr hnonce),ok_bind]
  rfl

theorem validateQdayBlockMarkers_of_markers {value : Currency} {height : UInt64} {commitment : Hash256}
    (hkeys : miner.validate = .ok ())
    (hpayouts : b.minerPayouts = [⟨value, miner.policy.address c⟩]) (htxns : b.transactions = [])
    (hv2 : b.v2 = some ⟨height, commitment, coinbaseMarker miner markerNonce :: rest⟩)
    (hwork : s.qdayV1Active s.childHeight = true → ∃ n, rest.getLast? = some (miningWorkMarker n)) :
    validateQdayBlockMarkers c s b = .ok () := by
  simp only [validateQdayBlockMarkers,hv2,hpayouts,htxns,bind_unit_eq_ok,rejectIf_eq_ok,
    runIf_eq_ok,coinbaseMarker_valid markerNonce hkeys]
  refine ⟨by simp,by simp,fun hv1 => ?_⟩
  obtain ⟨n,hn⟩ := hwork hv1
  simp [hn,miningWorkMarker_valid]

include h

theorem blockWeight_candidate :
    blockWeight (candidateBlock c s miner timestamp markerNonce chosen cand.value) ≤ State.maxBlockWeight := by
  refine UInt64.le_iff_toNat_le.mpr (le_trans ?_ (UInt64.le_iff_toNat_le.mp h.weight_le))
  have hsum : ∀ l : List V2Transaction, (l.map v2TransactionWeight).sum.toNat ≤
      (l.map fun txn => (v2TransactionWeight txn).toNat).sum := by
    intro l
    induction l with
    | nil => exact le_rfl
    | cons txn l ih =>
      rw [List.map_cons,List.sum_cons,List.map_cons,List.sum_cons,UInt64.toNat_add]
      exact (Nat.mod_le _ _).trans (Nat.add_le_add_left ih _)
  have hle := hsum (candidateTransactions s miner markerNonce chosen)
  have htotal : ((candidateTransactions s miner markerNonce chosen).map fun txn => (v2TransactionWeight txn).toNat).sum =
      (v2TransactionWeight (coinbaseMarker miner markerNonce)).toNat +
        ((chosen.map fun txn => (v2TransactionWeight txn).toNat).sum +
        ((if s.qdayV1Active s.childHeight then [miningWorkMarker markerNonce] else []).map
          fun txn => (v2TransactionWeight txn).toNat).sum) := by
    rw [candidateTransactions,List.map_cons,List.sum_cons,List.map_append,List.sum_append]
  have hwork : ((if s.qdayV1Active s.childHeight then [miningWorkMarker markerNonce] else []).map
      fun txn => (v2TransactionWeight txn).toNat).sum ≤ 128 := by
    split_ifs
    · simp [weight_miningWorkMarker]
    · simp
  have hweight := h.weight
  rw [List.map_cons,List.sum_cons] at hweight
  have hzero : blockWeight (candidateBlock c s miner timestamp markerNonce chosen cand.value) =
      ((candidateTransactions s miner markerNonce chosen).map v2TransactionWeight).sum := UInt64.zero_add _
  rw [hzero]
  omega

theorem validateMinerPayouts_candidate :
    validateMinerPayouts s (candidateBlock c s miner timestamp markerNonce chosen cand.value) = .ok () := by
  refine validateMinerPayouts_single rfl rfl rfl ?_
  have hwork : ((if s.qdayV1Active s.childHeight then [miningWorkMarker markerNonce] else []).map
      fun txn => txn.minerFee.toNat).sum = 0 := by
    split_ifs
    · simp [miningWorkMarker]
    · rfl
  have hmarker : (coinbaseMarker miner markerNonce).minerFee.toNat = 0 := Currency.toNat_zeroCurrency
  simp only [h.value,candidateTransactions,List.map_cons,List.sum_cons,List.map_append,List.sum_append,hwork,hmarker]
  omega

theorem validateTransactions_candidate (hkeys : miner.validate = .ok ()) :
    ∃ ms, validateTransactions c s (candidateTransactions s miner markerNonce chosen).length
      (candidateTransactions s miner markerNonce chosen) 0 (newMidState s) = .ok ms := by
  have hmarker := isMarker_of_coinbase (coinbaseMarker_valid (c := c) markerNonce hkeys)
  have hwork := isMarker_of_work (miningWorkMarker_valid markerNonce)
  have hpos : ∀ j, 1 ≤ j → j < 1 + chosen.length →
      isMarkerPosition s (candidateTransactions s miner markerNonce chosen).length j = false := by
    intro j hj hlt
    simp only [isMarkerPosition,candidateTransactions,List.length_cons,List.length_append,Bool.or_eq_false_iff,
      Bool.and_eq_false_imp,decide_eq_false_iff_not]
    refine ⟨by omega,fun hv1 => ?_⟩
    rw [if_pos hv1,List.length_singleton]
    omega
  refine ⟨cand.ms,?_⟩
  rw [candidateTransactions] at hpos ⊢
  rw [validateTransactions,runIf,if_neg (by simp [isMarkerPosition]),hmarker.applyV2Transaction]
  change validateTransactions c s _ _ (0+1) (newMidState s) = _
  rw [validateTransactions_transfers _ hpos h.transfers]
  cases hv1 : s.qdayV1Active s.childHeight with
  | true =>
    rw [if_pos rfl,validateTransactions,runIf,if_neg,hwork.applyV2Transaction]
    · rfl
    · simp [isMarkerPosition,hv1]
      omega
  | false => rfl

/-- What is left of the verdict on a candidate is the proof of work. -/
theorem validateBlock_candidate (hkeys : miner.validate = .ok ()) (hmedian : s.medianTimestamp = .ok median)
    (htime : (Time.mk timestamp.sec 0).before median = false) :
    validateBlock c s (candidateBlock c s miner timestamp markerNonce chosen cand.value) {} =
      checkWork c s (candidateBlock c s miner timestamp markerNonce chosen cand.value) := by
  set b := candidateBlock c s miner timestamp markerNonce chosen cand.value with hb
  obtain ⟨ms,hrun⟩ := validateTransactions_candidate h hkeys
  have hmarkers : runIf (s.childHeight > 0) (validateQdayBlockMarkers c s b) = .ok () :=
    runIf_eq_ok.mpr fun _ => validateQdayBlockMarkers_of_markers hkeys rfl rfl rfl fun hv1 => by
      refine ⟨markerNonce,?_⟩
      rw [if_pos hv1,List.getLast?_append]
      rfl
  have hheight : (b.v2.any fun v2 => v2.height ≠ s.index.height + 1) = false := by
    simp [hb,candidateBlock]
  have horphan : validateOrphan c s b = checkWork c s b := by
    rw [validateOrphan,rejectIf_of_not (UInt64.not_lt.mpr (blockWeight_candidate h)),ok_bind,
      validateMinerPayouts_candidate h,ok_bind,validateHeader_candidate hmedian htime,
      rejectIf_of_not (ne_true_of_eq_false hheight)]
    exact bind_pure (m := Outcome) _
  have hsupplement : validateSupplement s b {} = .ok () := by
    simp [validateSupplement,hb,candidateBlock]
  have htxns : b.v2Transactions = candidateTransactions s miner markerNonce chosen := rfl
  rw [validateBlock,hmarkers,ok_bind,horphan,hsupplement,htxns,hrun]
  have hcommitment : (b.v2.any (fun v2 => v2.commitment ≠ s.commitment c
      ((b.minerPayouts.headD ⟨Currency.zeroCurrency,default⟩).address) b.transactions
      (candidateTransactions s miner markerNonce chosen))) = false := by
    simp [hb,candidateBlock]
  have hv1 : b.transactions = [] := rfl
  rw [rejectIf_of_not (ne_true_of_eq_false hcommitment),rejectIf_of_not (not_not.mpr hv1)]
  exact bind_pure (m := Outcome) _

end Validity

section Building

variable {c : Crypto} {m : QdayManifest} {S : Set Bytes} {target : State → Block → Time} {blocks : List Block}
  {ch : Chain} {marker : V2Transaction} {txns : List V2Transaction}

theorem reward_supply_lt (hparams : m.network.qday.validate c = .ok ()) (hideal : IdealOn c.sum256 default S)
    (hrun : runChain c target m blocks = .ok ch) (hS : ∀ x ∈ ch.messages, x ∈ S)
    (hheight : ¬ ch.state.childHeight < Network.v2Height) :
    ch.state.blockReward.toNat + (ch.unspent.map Coin.nominal).sum < 2^128 := by
  have hch := runChain_valid hideal hrun hS
  have hshort : blocks.length + 1 < 2^64 := by
    have hle := hch.short
    by_contra hlong
    obtain heq : blocks.length + 1 = 2^64 := by omega
    rw [hch.childHeight.1,heq] at hheight
    exact hheight (by decide)
  have hsupply := supply_lt hparams hideal hrun hS
  rw [hch.blockReward hshort]
  split_ifs with hlt
  · have hone : m.network.qday.reward.toNat * 1 ≤
        m.network.qday.reward.toNat * (m.network.qday.miningBlocks.toNat - blocks.length) :=
      Nat.mul_le_mul_left _ (by omega)
    omega
  · omega

theorem TransactionsLedger.fees_le (hch : Chain.Valid c m S blocks ch)
    (hp : DecayParams m.network.qday)
    (h : TransactionsLedger c ch.state (createdCoins c m blocks) ch.unspent chosen ms) :
    (chosen.map fun txn => txn.minerFee.toNat).sum ≤ (ch.unspent.map Coin.nominal).sum := by
  have hp' : DecayParams ch.state.network.qday := hch.network ▸ hp
  have hafter := sum_unspentAfter hch.ledger h.records Coin.nominal
  have hgain := h.balance Coin.nominal (valuation_nominal hp')
  omega

variable (hparams : m.network.qday.validate c = .ok ()) (hrun : runChain c target m blocks = .ok ch)
  (hideal : IdealOn c.sum256 default S) (hS : ∀ x ∈ ch.messages ++ setMessages c ch.leaves txns, x ∈ S)
  (hheight : ¬ ch.state.childHeight < Network.v2Height)
include hparams hrun hideal hS hheight

/-- On a chain of valid blocks the builder can go on with every transaction. -/
theorem Candidate.Collected.consider_returns (h : Candidate.Collected c ch.state marker chosen cand)
    (hchosen : ∀ t ∈ chosen, t ∈ txns) (htxn : txn ∈ txns) : ∃ cand', cand.consider c txn = .ok cand' := by
  rw [List.forall_mem_append] at hS
  obtain ⟨hids,hinputs,hforest⟩ := identified_of_setMessages hS.2
  have hch := runChain_valid hideal hrun hS.1
  have hsupply := reward_supply_lt hparams hideal hrun hS.1 hheight
  have hp := decayParams_of_validate hparams
  have hledger := (Reached.of_transfers h.transfers).ledger hideal hch (fun t ht => hids t (hchosen t ht))
    (fun x hx => by
      obtain ⟨t,ht,hx⟩ := List.mem_flatMap.mp hx
      exact hinputs x (List.mem_flatMap.mpr ⟨t,hchosen t ht,hx⟩)) hforest
  have hmember := hch.member hideal hinputs hforest htxn
  have hreturns := hledger.returns_validate hch hp (by omega) hmember
  rw [Candidate.consider]
  split_ifs
  · exact ⟨cand,rfl⟩
  · split
    · exact absurd ‹_› (hreturns _)
    · exact ⟨cand,rfl⟩
    · have hvalid : validateV2Transaction c cand.ms txn = .ok () := ‹_›
      obtain ⟨ms,happly,hledger'⟩ := hledger.admit hideal.inj hch.ledger
        (fun t ht => hids t ((List.mem_append.mp ht).elim (hchosen t) fun ht => List.mem_singleton.mp ht ▸ htxn))
        hmember (.inr (transfer_accepted hvalid).2)
      have hfees := hledger'.fees_le hch hp
      rw [List.map_append,List.sum_append,List.map_singleton,List.sum_singleton] at hfees
      have hvalue := h.value
      obtain ⟨value,hadd⟩ := Currency.exists_toNat (show cand.value.toNat + txn.minerFee.toNat < 2^128 by omega)
      rw [happly,ok_bind,Currency.add_eq_ok.mpr hadd.symm]
      exact ⟨_,rfl⟩

theorem Candidate.Collected.run_returns (hrest : ∀ t ∈ rest, t ∈ txns)
    (h : Candidate.Collected c ch.state marker chosen cand) (hchosen : ∀ t ∈ chosen, t ∈ txns) :
    ∃ cand', rest.foldlM (Candidate.consider c) cand = .ok cand' := by
  induction rest generalizing chosen cand with
  | nil => exact ⟨cand,rfl⟩
  | cons txn rest ih =>
    rw [List.forall_mem_cons] at hrest
    obtain ⟨cand₁,hstep⟩ := h.consider_returns hparams hrun hideal hS hheight hchosen hrest.1
    rw [List.foldlM_cons,hstep,ok_bind]
    obtain h₁ | h₁ := h.consider hstep
    · exact ih hrest.2 h₁ hchosen
    · refine ih hrest.2 h₁ fun t ht => ?_
      exact (List.mem_append.mp ht).elim (hchosen t) fun ht => List.mem_singleton.mp ht ▸ hrest.1

end Building

section Candidates

variable (c : Crypto) (s : State) (miner : QdayKeys) (txns : List V2Transaction) (timestamp median : Time)
  (markerNonce : UInt64)

/-- `CandidateWithNonce` builds blocks that lack nothing but their proof of work: on the state of a
chain of valid blocks it returns one, and whatever it returns passes all other checks. -/
theorem candidate_lacks_only_work (hkeys : miner.classical ≠ default ∧ miner.reserve ≠ default)
    (hmedian : s.medianTimestamp = .ok median) (htime : (Time.mk timestamp.sec 0).before median = false) :
    (∀ b, candidateWithNonce c s miner txns timestamp markerNonce = .ok b →
      validateBlock c s b {} = checkWork c s b) ∧
    ∀ m S target blocks ch, m.network.qday.validate c = .ok () → runChain c target m blocks = .ok ch → ch.state = s →
      IdealOn c.sum256 default S → (∀ x ∈ ch.messages ++ setMessages c ch.leaves txns, x ∈ S) →
      ∃ b, candidateWithNonce c s miner txns timestamp markerNonce = .ok b := by
  refine ⟨fun b hb => ?_,?_⟩
  · have hvalid : miner.validate = .ok () := rejectIf_of_not (not_or.mpr hkeys) _
    obtain ⟨chosen,cand,h,rfl⟩ := candidate_built hb
    exact validateBlock_candidate h hvalid hmedian htime
  · rintro m S target blocks ch hparams hrun rfl hideal hS
    obtain ⟨cand,hcand⟩ := (Candidate.Collected.start c ch.state miner markerNonce).run_returns hparams hrun hideal hS
      (childHeight_of_median hmedian) (fun t ht => ht) (fun t ht => nomatch ht)
    rw [candidateWithNonce]
    simp only [hcand]
    exact ⟨_,rfl⟩

def sampleOffer : List V2Transaction := [sampleTransfer, sampleTransfer, sampleChild []]

theorem candidate_lacks_only_work_sample : ∃ ch b,
    runChain sampleCrypto (fun _ _ => default) sampleManifest [] = .ok ch ∧
      candidateWithNonce sampleCrypto ch.state sampleKeys sampleOffer sampleTime 7 = .ok b ∧
      validateBlock sampleCrypto ch.state b {} = checkWork sampleCrypto ch.state b := by
  obtain ⟨⟨ch,median⟩,hrun,hcheck⟩ := exists_of_holds
    (x := do
      let ch ← runChain sampleCrypto (fun _ _ => default) sampleManifest []
      let median ← ch.state.medianTimestamp
      return (ch, median))
    (p := fun r => decide (
      ((r.1.messages ++ setMessages sampleCrypto r.1.leaves sampleOffer).dedup.map sampleCrypto.sum256).Nodup ∧
      (∀ x ∈ r.1.messages ++ setMessages sampleCrypto r.1.leaves sampleOffer, sampleCrypto.sum256 x ≠ default) ∧
      (Time.mk sampleTime.sec 0).before r.2 = false))
    (by decide +kernel)
  obtain ⟨hnodup,hne,htime⟩ := of_decide_eq_true hcheck
  simp only [bind_eq_ok,pure_eq_ok,Prod.mk.injEq] at hrun
  obtain ⟨ch',hrun,median',hmedian,rfl,rfl⟩ := hrun
  obtain ⟨hvalid,hbuilt⟩ := candidate_lacks_only_work sampleCrypto ch'.state sampleKeys sampleOffer sampleTime median' 7
    (by decide +kernel) hmedian htime
  obtain ⟨b,hb⟩ := hbuilt sampleManifest _ _ [] ch' (by decide +kernel) hrun rfl (idealOn_of_nodup hnodup hne)
    fun x hx => hx
  exact ⟨ch',b,hrun,hb,hvalid b hb⟩

end Candidates

end QdayNode
