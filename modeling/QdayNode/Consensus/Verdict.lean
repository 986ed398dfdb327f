import QdayNode.Consensus.Supply

/-!
# Validation comes to a verdict

`ValidateV2Transaction` adds up the values of the inputs with an addition that panics on
overflow.  By then every input is known to be a distinct output that is unspent on the
chain or was created by an earlier transaction of the set, so the sum is bounded by the
supply, which `QdayParams.Validate` keeps below 2^128.
-/
namespace QdayNode
open ByteString Outcome

section Policies

variable (c : Crypto) (ctx : SpendContext)

theorem returns_verifyAbove (height : UInt64) (w : Witness) : (SpendPolicy.verifyAbove ctx height w).Returns := by
  rw [SpendPolicy.verifyAbove]
  split_ifs
  · exact returns_ok w
  · exact returns_fail _

theorem returns_verifyKeys (pks : List UnlockKey) (required : UInt64) (w : Witness) :
    (SpendPolicy.verifyKeys c ctx pks required w).Returns := by
  induction pks generalizing required w with
  | nil => exact returns_ok _
  | cons pk pks ih =>
    rw [SpendPolicy.verifyKeys]
    dsimp only
    split_ifs
    · exact returns_ok _
    · exact returns_fail _
    · exact ih _ _
    · exact ih _ _
    · exact ih _ _

mutual
theorem returns_verifyPolicy (p : SpendPolicy) (w : Witness) : (SpendPolicy.verifyPolicy c ctx p w).Returns := by
  cases p with
  | above height => exact returns_verifyAbove ctx height w
  | after t =>
    rw [SpendPolicy.verifyPolicy]
    split_ifs
    · exact returns_ok w
    · exact returns_fail _
  | publicKey pk =>
    rw [SpendPolicy.verifyPolicy]
    split
    · split_ifs
      · exact returns_ok _
      · exact returns_fail _
    · exact returns_fail _
  | slhdsa pk =>
    rw [SpendPolicy.verifyPolicy]
    split_ifs
    · exact returns_fail _
    · exact returns_ok _
  | hash h =>
    rw [SpendPolicy.verifyPolicy]
    split
    · split_ifs
      · exact returns_ok _
      · exact returns_fail _
    · exact returns_fail _
  | threshold n subpolicies =>
    rw [SpendPolicy.verifyPolicy]
    split_ifs
    · exact returns_fail _
    · refine (returns_verifySubpolicies n subpolicies 0 _).bind fun r _ => ?_
      dsimp only
      split_ifs
      · exact returns_pure _
      · exact returns_fail _
  | opaqueHash a => exact returns_fail _
  | unlockConditions uc =>
    rw [SpendPolicy.verifyPolicy]
    refine (returns_verifyAbove ctx _ w).bind fun w' _ => (returns_verifyKeys c ctx _ _ w').bind fun r _ => ?_
    dsimp only
    split_ifs
    · exact returns_pure _
    · exact returns_fail _

theorem returns_verifySubpolicies (n : UInt8) (ps : List SpendPolicy) (satisfied : UInt8) (w : Witness) :
    (SpendPolicy.verifySubpolicies c ctx n ps satisfied w).Returns := by
  cases ps with
  | nil => exact returns_ok _
  | cons p ps =>
    have hrest := fun satisfied w => returns_verifySubpolicies n ps satisfied w
    have hshown : (if satisfied = n then fail "threshold exceeded"
        else do
          let w ← SpendPolicy.verifyPolicy c ctx p w
          SpendPolicy.verifySubpolicies c ctx n ps (satisfied + 1) w : Outcome (UInt8 × Witness)).Returns := by
      split_ifs
      · exact returns_fail _
      · exact (returns_verifyPolicy p w).bind fun w' _ => hrest _ w'
    cases p with
    | unlockConditions uc => exact returns_fail _
    | opaqueHash a => exact hrest satisfied w
    | above height => exact hshown
    | after t => exact hshown
    | publicKey pk => exact hshown
    | slhdsa pk => exact hshown
    | hash h => exact hshown
    | threshold m subpolicies => exact hshown
end

theorem returns_verify (p : SpendPolicy) (sigs : List Signature) (preimages : List (FixedBytes 32)) :
    (p.verify c ctx sigs preimages).Returns :=
  (returns_verifyPolicy c ctx p _).bind fun _ _ => (returns_rejectIf _ _).bind fun _ _ => returns_rejectIf _ _

end Policies

section Checks

variable {c : Crypto} {ms : MidState}

theorem returns_parseQdayKeys (b : Bytes) (n i : ℕ) : (parseQdayKeys b n i).Returns := by
  induction n generalizing i with
  | zero => exact returns_ok _
  | succ n ih =>
    rw [parseQdayKeys]
    exact (returns_rejectIf _ _).bind fun _ _ => (ih (i+1)).bind fun _ _ => returns_pure _

theorem returns_parseQdayEnvelope (b : Bytes) : (parseQdayEnvelope b).Returns := by
  rw [parseQdayEnvelope]
  refine (returns_rejectIf _ _).bind fun _ _ => ?_
  refine (returns_rejectIf _ _).bind fun _ _ => ?_
  exact (returns_parseQdayKeys b _ 0).bind fun _ _ => returns_pure _

theorem returns_validateQdayTransaction (txn : V2Transaction) : (validateQdayTransaction c ms txn).Returns := by
  rw [validateQdayTransaction]
  refine (returns_parseQdayEnvelope _).bind fun e _ => ?_
  refine (returns_rejectIf _ _).bind fun _ _ => ?_
  refine (returns_rejectIf _ _).bind fun _ _ => ?_
  refine (returns_rejectIf _ _).bind fun _ _ => ?_
  refine (returns_rejectIf _ _).bind fun _ _ => ?_
  refine (returns_rejectIf _ _).bind fun _ _ => ?_
  refine (returns_rejectIf _ _).bind fun _ _ => ?_
  exact (returns_rejectIf _ _).bind fun _ _ => returns_rejectIf _ _

theorem returns_validateParent (sci : V2SiacoinInput) : (validateParent c ms sci).Returns := by
  rw [validateParent]
  split_ifs
  · rw [validateEphemeralSiacoinElement]
    split
    · exact returns_fail _
    · refine (returns_rejectIf _ _).bind fun _ _ => returns_runIf _ ?_
      refine (returns_rejectIf _ _).bind fun _ _ => ?_
      exact (returns_rejectIf _ _).bind fun _ _ => returns_rejectIf _ _
  · exact returns_ok _
  · exact returns_fail _
  · exact returns_fail _

theorem returns_medianTimestamp {s : State} (hheight : ¬ s.childHeight < Network.v2Height) : s.medianTimestamp.Returns := by
  have hpos : 0 < s.numTimestamps := by
    rw [UInt64.lt_iff_toNat_lt,Network.v2Height,UInt64.toNat_one] at hheight
    rw [State.numTimestamps]
    exact Nat.lt_min.mpr ⟨by omega,by decide⟩
  have hne : (s.prevTimestamps.val.take s.numTimestamps).insertionSort State.timeOrder ≠ [] := by
    refine List.ne_nil_of_length_pos ?_
    rw [List.length_insertionSort,List.length_take,s.prevTimestamps.property]
    omega
  rw [State.medianTimestamp]
  dsimp only
  split_ifs
  · exact returns_ok _
  · split
    · exact absurd ‹_› hne
    · exact returns_ok _

theorem returns_validateSiacoinInputs (hheight : ¬ ms.base.childHeight < Network.v2Height) (sigHash : Hash256)
    (scis : List V2SiacoinInput) (spent : List SiacoinOutputID) :
    (validateSiacoinInputs c ms sigHash scis spent).Returns := by
  induction scis generalizing spent with
  | nil => exact returns_ok _
  | cons sci scis ih =>
    rw [validateSiacoinInputs]
    refine Outcome.Returns.bind ?_ fun _ _ => ih _
    rw [validateSiacoinInput]
    refine (returns_rejectIf _ _).bind fun _ _ => ?_
    refine (returns_rejectIf _ _).bind fun _ _ => ?_
    refine (returns_rejectIf _ _).bind fun _ _ => ?_
    refine (returns_validateParent sci).bind fun _ _ => ?_
    rw [validateV2SpendPolicy]
    refine (returns_rejectIf _ _).bind fun _ _ => ?_
    exact (returns_medianTimestamp hheight).bind fun median _ => returns_verify c _ _ _ _

theorem returns_sumWithOverflow (msg : String) (vs : List Currency) (sum : Currency) :
    (sumWithOverflow msg vs sum).Returns := by
  induction vs generalizing sum with
  | nil => exact returns_ok _
  | cons v vs ih =>
    simp only [sumWithOverflow]
    split_ifs
    · exact returns_fail _
    · exact ih _

theorem addAll_returns (vs : List Currency) (sum : Currency) (h : sum.toNat + (vs.map Currency.toNat).sum < 2^128) :
    ∃ r, addAll vs sum = .ok r := by
  induction vs generalizing sum with
  | nil => exact ⟨sum,rfl⟩
  | cons v vs ih =>
    rw [List.map_cons,List.sum_cons] at h
    obtain ⟨next,hnext⟩ := Currency.exists_toNat (show sum.toNat + v.toNat < 2^128 by omega)
    obtain ⟨r,hr⟩ := ih next (by omega)
    refine ⟨r,?_⟩
    rw [addAll,List.foldlM_cons,Currency.add_eq_ok.mpr hnext.symm]
    exact hr

theorem inputValues_returns (hp : DecayParams ms.base.network.qday) (scis : List V2SiacoinInput) :
    ∃ values, inputValues ms scis = .ok values := by
  induction scis with
  | nil => exact ⟨[],rfl⟩
  | cons sci scis ih =>
    obtain ⟨values,hvalues⟩ := ih
    obtain ⟨value,hvalue,-⟩ := qdayValue_returns hp sci.parent.siacoinOutput.value sci.parent.maturityHeight
      ms.base.childHeight
    refine ⟨value :: values,?_⟩
    rw [inputValues] at hvalues
    rw [inputValues,List.mapM_cons,hvalue,ok_bind,hvalues]
    rfl

/-- What validation does after the inputs have been checked cannot fail on the outputs, whose sum
has been taken before; only the sum of the inputs is left to bound. -/
theorem returns_validateV2Siacoins {txn : V2Transaction} (hheight : ¬ ms.base.childHeight < Network.v2Height)
    (hp : DecayParams ms.base.network.qday) (hout : validateV2CurrencyOverflow txn = .ok ())
    (hin : (txn.siacoinInputs.map fun sci => sci.parent.id).Nodup → (∀ sci ∈ txn.siacoinInputs, InputAccepted c ms [] sci) →
      (txn.siacoinInputs.map fun sci => sci.parent.coin.nominal).sum < 2^128) :
    (validateV2Siacoins c ms txn).Returns := by
  rw [validateV2Siacoins]
  refine (returns_validateSiacoinInputs hheight _ _ _).bind fun _ hinputs => ?_
  obtain ⟨hdistinct,haccepted⟩ := inputs_accepted hheight hinputs
  obtain ⟨values,hvalues⟩ := inputValues_returns hp txn.siacoinInputs
  have hle := inputValues_le (valuation_nominal hp) rfl hvalues
  have hsum := hin hdistinct haccepted
  obtain ⟨inputSum,hinputSum⟩ := addAll_returns values Currency.zeroCurrency
    (by rw [Currency.toNat_zeroCurrency]; omega)
  rw [hvalues,ok_bind,hinputSum,ok_bind]
  refine (returns_rejectIf _ _).bind fun _ _ => ?_
  simp only [validateV2CurrencyOverflow,bind_eq_ok] at hout
  obtain ⟨total,htotal,-⟩ := hout
  have hbound := total.toNat_lt
  rw [sumWithOverflow_sum htotal,List.map_append,List.sum_append,List.map_singleton,List.sum_singleton] at hbound
  obtain ⟨outputSum,houtputSum⟩ := addAll_returns (txn.siacoinOutputs.map SiacoinOutput.value)
    Currency.zeroCurrency (by omega)
  have hvalue := addAll_sum houtputSum
  obtain ⟨paid,hpaid⟩ := Currency.exists_toNat (show outputSum.toNat + txn.minerFee.toNat < 2^128 by omega)
  rw [houtputSum,ok_bind,Currency.add_eq_ok.mpr hpaid.symm,ok_bind]
  exact returns_rejectIf _ _

end Checks

section Bound

variable {s : State} {created unspent coins : List Coin} {txns : List V2Transaction} {ms : MidState}

theorem sum_parents_le (h : BlockLedger s created unspent txns coins ms) {scis : List V2SiacoinInput}
    (hdistinct : (scis.map fun sci => sci.parent.id).Nodup)
    (hparents : ∀ sci ∈ scis, sci.parentID ∉ inputIDs txns ∧ BlockLedger.Parent unspent ms sci) (v : Coin → ℕ) :
    (scis.map fun sci => v sci.parent.coin).sum ≤ ((unspentAfter unspent ms.sces).map v).sum := by
  have hnodup : (scis.map fun sci => sci.parent.coin).Nodup := by
    refine List.Nodup.of_map Coin.id ?_
    rw [List.map_map]
    exact hdistinct
  have hsubset : (scis.map fun sci => sci.parent.coin) ⊆ unspentAfter unspent ms.sces := by
    intro k hk
    obtain ⟨sci,hsci,rfl⟩ := List.mem_map.mp hk
    obtain ⟨hlive,hparent⟩ := hparents sci hsci
    rw [unspentAfter,List.mem_append]
    cases hparent with
    | old _ hcoin _ =>
      refine .inl (List.mem_filter.mpr ⟨hcoin,decide_eq_true ?_⟩)
      exact fun hspent => hlive ((h.spent_iff _).mp hspent)
    | new d hrecord hcreated hunspent hcoin _ =>
      obtain ⟨hd,-⟩ := h.keyed.record_eq_some.mp hrecord
      exact .inr (List.mem_map.mpr ⟨d,List.mem_filter.mpr ⟨hd,by rw [hcreated,hunspent]; rfl⟩,hcoin⟩)
  obtain ⟨l,hperm,hsub⟩ := hnodup.subperm hsubset
  have hsum := (hperm.map v).sum_eq
  rw [List.map_map] at hsum
  exact hsum.symm.trans_le ((hsub.map v).sum_le_sum fun _ _ => Nat.zero_le _)

end Bound

section Sets

/-- The states that validation goes through on top of `s`, with the transactions applied so far: the
markers of a block are applied as they are, all others after they have been validated. -/
inductive Reached (c : Crypto) (s : State) : List V2Transaction → MidState → Prop
  | start : Reached c s [] (newMidState s)
  | marker {txns : List V2Transaction} {ms ms' : MidState} {txn : V2Transaction} (h : Reached c s txns ms)
      (hmarker : IsMarker txn) (happly : ms.applyV2Transaction c txn = .ok ms') : Reached c s (txns ++ [txn]) ms'
  | transfer {txns : List V2Transaction} {ms ms' : MidState} {txn : V2Transaction} (h : Reached c s txns ms)
      (hvalid : validateV2Transaction c ms txn = .ok ()) (happly : ms.applyV2Transaction c txn = .ok ms') :
      Reached c s (txns ++ [txn]) ms'

def setMessages (c : Crypto) (leaves : List StoredLeaf) (txns : List V2Transaction) : List Bytes :=
  txns.map V2Transaction.idPreimage ++
    ((txns.flatMap fun txn => (List.range txn.siacoinOutputs.length).map (siacoinOutputPreimage (txn.id c))) ++
    (inputMessages c txns ++ forestMessages c (leaves.map (StoredLeaf.record c))))

variable {c : Crypto} {m : QdayManifest} {S : Set Bytes} {target : State → Block → Time} {blocks : List Block}
  {ch : Chain} {txns : List V2Transaction} {txn : V2Transaction} {ms : MidState}

theorem identified_of_setMessages {leaves : List StoredLeaf} (h : ∀ x ∈ setMessages c leaves txns, x ∈ S) :
    (∀ t ∈ txns, BlockLedger.Identified c S t) ∧ (∀ x ∈ inputMessages c txns, x ∈ S) ∧
      ∀ x ∈ forestMessages c (leaves.map (StoredLeaf.record c)), x ∈ S := by
  simp only [setMessages,List.mem_append,or_imp,forall_and,List.mem_flatMap,List.mem_map,List.mem_range,
    forall_exists_index,and_imp] at h
  obtain ⟨hids,houtputs,hinputs,hforest⟩ := h
  exact ⟨fun t ht => ⟨hids _ t ht rfl,fun i hi => houtputs _ t ht i hi rfl⟩,hinputs,hforest⟩

theorem inputMessages_append (h : ∀ x ∈ inputMessages c (txns ++ [txn]), x ∈ S) : ∀ x ∈ inputMessages c txns, x ∈ S := by
  intro x hx
  rw [inputMessages,List.flatMap_append] at h
  exact h x (List.mem_append_left _ hx)

theorem Chain.Valid.member (hideal : IdealOn c.sum256 default S) (h : Chain.Valid c m S blocks ch)
    (hinputs : ∀ x ∈ inputMessages c txns, x ∈ S)
    (hforest : ∀ x ∈ forestMessages c (ch.leaves.map (StoredLeaf.record c)), x ∈ S) (htxn : txn ∈ txns) :
    ∀ sci ∈ txn.siacoinInputs, sci.parent.stateElement.leafIndex ≠ unassignedLeafIndex →
      ch.state.elements.containsUnspentSiacoinElement c sci.parent = true → sci.parent.coin ∈ ch.unspent := by
  intro sci hsci _ hcontains
  refine h.leaves.unspent_of_contains hideal.inj h.represents hforest (fun x hx => ?_) hcontains
  exact hinputs x (List.mem_flatMap.mpr ⟨txn,htxn,List.mem_flatMap.mpr ⟨sci,hsci,hx⟩⟩)

theorem Reached.ledger (hideal : IdealOn c.sum256 default S) (hch : Chain.Valid c m S blocks ch)
    (h : Reached c ch.state txns ms) (hids : ∀ t ∈ txns, BlockLedger.Identified c S t)
    (hinputs : ∀ x ∈ inputMessages c txns, x ∈ S)
    (hforest : ∀ x ∈ forestMessages c (ch.leaves.map (StoredLeaf.record c)), x ∈ S) :
    TransactionsLedger c ch.state (createdCoins c m blocks) ch.unspent txns ms := by
  have hstep : ∀ {txns : List V2Transaction} {ms ms' : MidState} {txn : V2Transaction},
      (∀ t ∈ txns ++ [txn], BlockLedger.Identified c S t) → (∀ x ∈ inputMessages c (txns ++ [txn]), x ∈ S) →
      TransactionsLedger c ch.state (createdCoins c m blocks) ch.unspent txns ms → Admitted c ms txn →
      ms.applyV2Transaction c txn = .ok ms' →
      TransactionsLedger c ch.state (createdCoins c m blocks) ch.unspent (txns ++ [txn]) ms' := by
    intro txns ms ms' txn hids hinputs hledger hadmitted happly
    obtain ⟨ms₁,happly₁,hledger'⟩ := hledger.admit hideal.inj hch.ledger hids
      (hch.member hideal hinputs hforest (List.mem_append_right _ (List.mem_singleton.mpr rfl))) hadmitted
    obtain rfl := Except.ok.inj (happly.symm.trans happly₁)
    exact hledger'
  induction h with
  | start => exact TransactionsLedger.init c ch.state _ _
  | marker h hmarker happly ih =>
    exact hstep hids hinputs (ih (fun t ht => hids t (List.mem_append_left _ ht)) (inputMessages_append hinputs)) (.inl hmarker) happly
  | transfer h hvalid happly ih =>
    exact hstep hids hinputs (ih (fun t ht => hids t (List.mem_append_left _ ht)) (inputMessages_append hinputs))
      (.inr (transfer_accepted hvalid).2) happly

theorem emission_lt {p : QdayParams} (h : p.validate c = .ok ()) :
    p.premineAmount.toNat + p.reward.toNat * p.miningBlocks.toNat < 2^128 := by
  rw [QdayParams.validate,bind_unit_eq_ok,bind_eq_ok] at h
  obtain ⟨-,premine,-,h⟩ := h
  simp only [bind_unit_eq_ok,rejectIf_eq_ok] at h
  obtain ⟨-,-,hmined,htotal,-⟩ := h
  obtain ⟨hmul,hvalue⟩ := Currency.mul64WithOverflow_spec p.reward p.miningBlocks
  obtain ⟨-,hadd⟩ := Currency.addWithOverflow_spec (p.reward.mul64WithOverflow p.miningBlocks).1 p.premineAmount
  rw [hmul,Nat.not_le] at hmined
  rw [hadd,hvalue hmined] at htotal
  omega

theorem supply_lt (hparams : m.network.qday.validate c = .ok ()) (hideal : IdealOn c.sum256 default S)
    (hrun : runChain c target m blocks = .ok ch) (hS : ∀ x ∈ ch.messages, x ∈ S) :
    (ch.unspent.map Coin.nominal).sum + m.network.qday.reward.toNat *
      (m.network.qday.miningBlocks.toNat - blocks.length) < 2^128 := by
  have hsupply := runChain_supply (decayParams_of_validate hparams) hideal hrun hS
  have hmin : min blocks.length m.network.qday.miningBlocks.toNat + (m.network.qday.miningBlocks.toNat - blocks.length) =
      m.network.qday.miningBlocks.toNat := by omega
  have hemission := emission_lt hparams
  rw [← hmin,Nat.mul_add] at hemission
  omega

/-- Where the supply fits a currency value, so does the sum of the inputs of a transaction. -/
theorem TransactionsLedger.returns_validate (hch : Chain.Valid c m S blocks ch)
    (h : TransactionsLedger c ch.state (createdCoins c m blocks) ch.unspent txns ms)
    (hp : DecayParams m.network.qday) (hsupply : (ch.unspent.map Coin.nominal).sum < 2^128)
    (hmember : ∀ sci ∈ txn.siacoinInputs, sci.parent.stateElement.leafIndex ≠ unassignedLeafIndex →
      ch.state.elements.containsUnspentSiacoinElement c sci.parent = true → sci.parent.coin ∈ ch.unspent) :
    (validateV2Transaction c ms txn).Returns := by
  obtain ⟨hrecords,hbalance,-⟩ := h
  have hp' : DecayParams ch.state.network.qday := hch.network ▸ hp
  rw [validateV2Transaction]
  refine (returns_validateQdayTransaction txn).bind fun _ _ => ?_
  refine (returns_rejectIf _ _).bind fun _ hheight => ?_
  rw [rejectIf_eq_ok] at hheight
  refine ((returns_sumWithOverflow _ _ _).bind fun _ _ => returns_pure _).bind fun _ hout => ?_
  refine (returns_rejectIf _ _).bind fun _ _ => ?_
  refine (returns_rejectIf _ _).bind fun _ _ => ?_
  refine returns_validateV2Siacoins hheight (hrecords.base ▸ hp') hout fun hdistinct haccepted => ?_
  have hparents : ∀ sci ∈ txn.siacoinInputs, sci.parentID ∉ inputIDs txns ∧ BlockLedger.Parent ch.unspent ms sci :=
    fun sci hsci => hrecords.parent hch.ledger.unspent_created (haccepted sci hsci) (hmember sci hsci)
  calc (txn.siacoinInputs.map fun sci => sci.parent.coin.nominal).sum
      ≤ ((unspentAfter ch.unspent ms.sces).map Coin.nominal).sum :=
        sum_parents_le hrecords hdistinct hparents Coin.nominal
    _ ≤ (ch.unspent.map Coin.nominal).sum := by
        have hafter := sum_unspentAfter hch.ledger hrecords Coin.nominal
        have hgain := hbalance Coin.nominal (valuation_nominal hp')
        omega
    _ < 2^128 := hsupply

/-- On a chain of valid blocks `ValidateV2Transaction` never panics. -/
theorem validateV2Transaction_returns (hparams : m.network.qday.validate c = .ok ())
    (hrun : runChain c target m blocks = .ok ch) (hideal : IdealOn c.sum256 default S)
    (hreached : Reached c ch.state txns ms)
    (hS : ∀ x ∈ ch.messages ++ setMessages c ch.leaves (txns ++ [txn]), x ∈ S) :
    (validateV2Transaction c ms txn).Returns := by
  rw [List.forall_mem_append] at hS
  obtain ⟨hids,hinputs,hforest⟩ := identified_of_setMessages hS.2
  have hch := runChain_valid hideal hrun hS.1
  have hledger := hreached.ledger hideal hch (fun t ht => hids t (List.mem_append_left _ ht))
    (inputMessages_append hinputs) hforest
  have hsupply := supply_lt hparams hideal hrun hS.1
  refine hledger.returns_validate hch (decayParams_of_validate hparams) (by omega) ?_
  exact hch.member hideal hinputs hforest (List.mem_append_right txns (List.mem_singleton.mpr rfl))

def sampleReached : Outcome (Chain × MidState) := do
  let ch ← runChain sampleCrypto (fun _ _ => default) sampleManifest []
  validateV2Transaction sampleCrypto (newMidState ch.state) sampleTransfer
  let ms ← (newMidState ch.state).applyV2Transaction sampleCrypto sampleTransfer
  return (ch, ms)

theorem validateV2Transaction_returns_sample : ∃ ch ms,
    runChain sampleCrypto (fun _ _ => default) sampleManifest [] = .ok ch ∧
      Reached sampleCrypto ch.state [sampleTransfer] ms ∧
      (validateV2Transaction sampleCrypto ms (sampleChild [])).Returns := by
  obtain ⟨⟨ch,ms⟩,hreached,hcheck⟩ := exists_of_holds (x := sampleReached)
    (p := fun r => decide (
      ((r.1.messages ++ setMessages sampleCrypto r.1.leaves [sampleTransfer,sampleChild []]).dedup.map
        sampleCrypto.sum256).Nodup ∧
      ∀ x ∈ r.1.messages ++ setMessages sampleCrypto r.1.leaves [sampleTransfer,sampleChild []],
        sampleCrypto.sum256 x ≠ default))
    (by decide +kernel)
  obtain ⟨hnodup,hne⟩ := of_decide_eq_true hcheck
  simp only [sampleReached,bind_eq_ok,pure_eq_ok,Prod.mk.injEq] at hreached
  obtain ⟨ch',hrun,⟨⟩,hvalid,ms',happly,rfl,rfl⟩ := hreached
  have hparams : sampleManifest.network.qday.validate sampleCrypto = .ok () := by decide +kernel
  have hstart : Reached sampleCrypto ch'.state [] (newMidState ch'.state) := .start
  have hstep := hstart.transfer hvalid happly
  exact ⟨ch',ms',hrun,hstep,
    validateV2Transaction_returns hparams hrun (idealOn_of_nodup hnodup hne) hstep fun x hx => hx⟩

end Sets

end QdayNode
