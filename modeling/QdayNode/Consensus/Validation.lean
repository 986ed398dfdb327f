import QdayNode.Consensus.Application

/-!
# Validation

`consensus/validation.go` on a QDAY network.  A transaction with siafunds, contracts,
attestations or a Foundation address is refused by `validateQdayTransaction`, so the
checks of those fields have nothing left to look at and are not modelled; below the
v2 height `ValidateHeader` has no timestamps to take a median of, so the v1 checks are
never reached.
-/
namespace QdayNode
open ByteString Outcome

section Header

variable (c : Crypto)

def validateHeader (s : State) (bh : BlockHeader) : Outcome Unit := do
  rejectIf (bh.parentID ≠ s.index.id) "wrong parent ID"
  let median ← s.medianTimestamp
  rejectIf (bh.timestamp.before median = true) "timestamp too far in the past"
  rejectIf (bh.nonce % Network.nonceFactor ≠ 0) "nonce not divisible by required factor"
  let target ← s.powTarget
  rejectIf (lessWork (bh.id c) target = true) "insufficient work"

/-- Adds a list of values to a sum, stopping at the first overflow. -/
def sumWithOverflow (msg : String) : List Currency → Currency → Outcome Currency
  | [], sum => .ok sum
  | v :: vs, sum =>
    let (sum, overflow) := sum.addWithOverflow v
    if overflow then fail msg else sumWithOverflow msg vs sum

/-- Adds the fees of v1 transactions, none of which may be zero. -/
def sumFees : List Currency → Currency → Outcome Currency
  | [], sum => .ok sum
  | fee :: fees, sum =>
    if fee.isZero then fail "transaction fee has zero value"
    else
      let (sum, overflow) := sum.addWithOverflow fee
      if overflow then fail "transaction fees overflow" else sumFees fees sum

def validateMinerPayouts (s : State) (b : Block) : Outcome Unit := do
  let expectedSum ← sumFees (b.transactions.flatMap Transaction.minerFees) s.blockReward
  let expectedSum ← sumWithOverflow "v2 transaction fees overflow" (b.v2Transactions.map V2Transaction.minerFee) expectedSum
  rejectIf (b.v2.isSome ∧ b.minerPayouts.length ≠ 1) "block must have exactly one miner payout"
  let sum ← sumWithOverflow "miner payouts overflow" (b.minerPayouts.map SiacoinOutput.value) Currency.zeroCurrency
  rejectIf (sum ≠ expectedSum) "miner payout sum does not match block reward + fees"

def blockWeight (b : Block) : UInt64 :=
  (b.transactions.map State.transactionWeight).sum + (b.v2Transactions.map v2TransactionWeight).sum

def validateOrphan (s : State) (b : Block) : Outcome Unit := do
  rejectIf (blockWeight b > State.maxBlockWeight) "block exceeds maximum weight"
  validateMinerPayouts s b
  validateHeader c s (b.header c)
  rejectIf (b.v2.any (fun v2 => v2.height ≠ s.index.height + 1) = true)
    "block height does not increment parent height"

end Header

section Transactions

variable (c : Crypto)

def validateQdayTransaction (ms : MidState) (txn : V2Transaction) : Outcome Unit := do
  let p := ms.base.network.qday
  let e ← parseQdayEnvelope txn.arbitraryData
  rejectIf (qdayUnsupported txn = true) "QDAY supports coin transfers only"
  rejectIf (e.kind = qdayCoinbase) "coinbase marker is only valid first in a block"
  rejectIf (e.kind = qdayMiningWork) "mining work marker is only valid last in a block"
  rejectIf (e.kind = qdayCanaryProof ∧ (ms.base.qdayHeight ≠ 0 ∨ ms.qdayProved = true ∨ e.nonce ≠ 0 ∨
    c.verifyQdayProof p.canary e.witness = false)) "invalid or repeated QDAY proof"
  rejectIf (e.kind = qdayCanaryProof ∧ txn.minerFee.lt p.proofFee = true)
    "QDAY proof does not pay the minimum network fee"
  rejectIf (txn.siacoinInputs.length = 0 ∨ txn.siacoinInputs.length > 128 ∨
    (txn.siacoinOutputs.length = 0 ∧ e.kind ≠ qdayCanaryProof) ∨ txn.siacoinOutputs.length > 128 ∨ e.keys.length ≠ 0)
    "invalid QDAY transfer shape"
  rejectIf (∃ sci ∈ txn.siacoinInputs, isQdayNativePolicy sci.satisfiedPolicy.policy = false ∧
    (ms.base.qdayV1Active ms.base.childHeight = false ∨ isQdaySwapSpendPolicy sci.satisfiedPolicy.policy = false))
    "input must use native hybrid or atomic-swap policy"
  rejectIf (ms.base.qdayActive ms.base.childHeight = true ∧
    qdayWorkValid c (ms.base.qdayWorkIntent c txn) e.nonce p.defendBits = false) "insufficient DEFEND work"

/-- `validateEphemeralSiacoinElement`: the claimed element is compared with the record, except for
its Merkle proof. -/
def validateEphemeralSiacoinElement (ms : MidState) (sci : V2SiacoinInput) : Outcome Unit :=
  match ms.record sci.parent.id with
  | none => fail "spends nonexistent ephemeral output"
  | some d => do
      rejectIf (d.created = false) "spends nonexistent ephemeral output"
      -- EphemeralOutputHeight
      runIf (¬ ms.base.childHeight < Network.v2Height) do
        rejectIf (sci.parent.id ≠ d.siacoinElement.id) "spends nonexistent ephemeral output"
        rejectIf (sci.parent.siacoinOutput ≠ d.siacoinElement.siacoinOutput)
          "claims incorrect value for ephemeral output"
        rejectIf (sci.parent.maturityHeight ≠ d.siacoinElement.maturityHeight)
          "claims incorrect maturity height for ephemeral output"

def ElementAccumulator.containsUnspentSiacoinElement (acc : ElementAccumulator) (sce : SiacoinElement) : Bool :=
  acc.containsLeaf c (siacoinLeaf c 0 sce false)

def ElementAccumulator.containsSpentSiacoinElement (acc : ElementAccumulator) (sce : SiacoinElement) : Bool :=
  acc.containsLeaf c (siacoinLeaf c 0 sce true)

def validateV2SpendPolicy (ms : MidState) (sigHash : Hash256) (sp : SatisfiedPolicy) (parentAddress : Address) :
    Outcome Unit := do
  rejectIf (sp.policy.address c ≠ parentAddress) "claims incorrect policy for parent address"
  let median ← ms.base.medianTimestamp
  sp.policy.verify c ⟨ms.base.index.height, median, sigHash⟩ sp.signatures sp.preimages

/-- The parent of an input: created in this block, or unspent in the accumulator. -/
def validateParent (ms : MidState) (sci : V2SiacoinInput) : Outcome Unit :=
  if sci.parent.stateElement.leafIndex = unassignedLeafIndex then validateEphemeralSiacoinElement ms sci
  else if ms.base.elements.containsUnspentSiacoinElement c sci.parent then .ok ()
  else if ms.base.elements.containsSpentSiacoinElement c sci.parent then
    fail "siacoin input double-spends output"
  else fail "siacoin input spends output not present in the accumulator"

/-- One pass of the input loop of `validateV2Siacoins`; `spent` holds the parents seen so far. -/
def validateSiacoinInput (ms : MidState) (sigHash : Hash256) (spent : List SiacoinOutputID) (sci : V2SiacoinInput) :
    Outcome Unit := do
  rejectIf ((ms.spends sci.parent.id).isSome = true) "siacoin input double-spends parent output"
  rejectIf (sci.parent.id ∈ spent) "siacoin input double-spends parent output"
  rejectIf (sci.parent.maturityHeight > ms.base.childHeight) "siacoin input has immature parent"
  validateParent c ms sci
  validateV2SpendPolicy c ms sigHash sci.satisfiedPolicy sci.parent.siacoinOutput.address

def validateSiacoinInputs (ms : MidState) (sigHash : Hash256) : List V2SiacoinInput → List SiacoinOutputID → Outcome Unit
  | [], _ => .ok ()
  | sci :: scis, spent => do
      validateSiacoinInput c ms sigHash spent sci
      validateSiacoinInputs ms sigHash scis (sci.parent.id :: spent)

def addAll (vs : List Currency) (sum : Currency) : Outcome Currency := vs.foldlM (fun sum v => sum.add v) sum

def inputValues (ms : MidState) (scis : List V2SiacoinInput) : Outcome (List Currency) :=
  scis.mapM fun sci =>
    ms.base.qdayValue sci.parent.siacoinOutput.value sci.parent.maturityHeight ms.base.childHeight

/-- `validateV2Siacoins`: on a QDAY network inputs may exceed outputs. -/
def validateV2Siacoins (ms : MidState) (txn : V2Transaction) : Outcome Unit := do
  validateSiacoinInputs c ms (ms.base.inputSigHash c txn) txn.siacoinInputs []
  let values ← inputValues ms txn.siacoinInputs
  let inputSum ← addAll values Currency.zeroCurrency
  rejectIf (∃ sco ∈ txn.siacoinOutputs, sco.value.isZero = true) "siacoin output has zero value"
  let outputSum ← addAll (txn.siacoinOutputs.map SiacoinOutput.value) Currency.zeroCurrency
  let outputSum ← outputSum.add txn.minerFee
  rejectIf (inputSum.lt outputSum = true) "siacoin inputs do not equal outputs"

def validateV2CurrencyOverflow (txn : V2Transaction) : Outcome Unit := do
  let _ ← sumWithOverflow "transaction outputs exceed inputs"
    (txn.siacoinOutputs.map SiacoinOutput.value ++ [txn.minerFee]) Currency.zeroCurrency
  pure ()

def validateV2Transaction (ms : MidState) (txn : V2Transaction) : Outcome Unit := do
  validateQdayTransaction c ms txn
  rejectIf (ms.base.childHeight < Network.v2Height) "v2 transactions are not allowed until v2 hardfork begins"
  validateV2CurrencyOverflow txn
  rejectIf (v2TransactionWeight txn = 0) "transactions cannot be empty"
  rejectIf (v2TransactionWeight txn > State.maxBlockWeight) "transaction exceeds maximum block weight"
  validateV2Siacoins c ms txn

end Transactions

section Blocks

variable (c : Crypto)

/-- `validateSupplement`; with no supplement allowed, no v1 transaction is. -/
def validateSupplement (s : State) (b : Block) (bs : V1BlockSupplement) : Outcome Unit := do
  rejectIf (s.childHeight ≥ Network.v2Height ∧
    (bs.transactions.length ≠ 0 ∨ bs.expiringFileContracts.length ≠ 0))
    "block supplement is invalid: v1 block supplements are not allowed after v2 hardfork is complete"
  rejectIf (bs.transactions.length ≠ b.transactions.length)
    "block supplement is invalid: incorrect number of transactions"

/-- The markers of a block are applied without being validated as transfers. -/
def isMarkerPosition (s : State) (count i : ℕ) : Bool :=
  decide (i = 0) || (s.qdayV1Active s.childHeight && decide (i + 1 = count))

/-- The loop over the v2 transactions of a block with `count` of them. -/
def validateTransactions (s : State) (count : ℕ) : List V2Transaction → ℕ → MidState → Outcome MidState
  | [], _, ms => .ok ms
  | txn :: txns, i, ms => do
      runIf (isMarkerPosition s count i = false) (validateV2Transaction c ms txn)
      let ms ← ms.applyV2Transaction c txn
      validateTransactions s count txns (i+1) ms

def validateBlock (s : State) (b : Block) (bs : V1BlockSupplement) : Outcome Unit := do
  runIf (s.childHeight > 0) (validateQdayBlockMarkers c s b)
  validateOrphan c s b
  validateSupplement s b bs
  rejectIf (b.v2.any (fun v2 =>
    v2.commitment ≠ s.commitment c ((b.minerPayouts.headD ⟨Currency.zeroCurrency, default⟩).address)
      b.transactions b.v2Transactions) = true) "commitment hash mismatch"
  rejectIf (b.transactions ≠ []) "v1 transactions are not allowed after v2 hardfork is complete"
  let _ ← validateTransactions c s b.v2Transactions.length b.v2Transactions 0 (newMidState s)
  pure ()

end Blocks

end QdayNode
