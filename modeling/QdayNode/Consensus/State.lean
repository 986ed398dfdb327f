import QdayNode.Consensus.Accumulator
import QdayNode.Consensus.Work

/-!
# The consensus state of a QDAY network

`consensus.State` on a network made from a QDAY manifest: the Oak, Foundation, tax,
storage-proof and ASIC rules hold from height 0, the v2 rules from height 1.
-/
namespace QdayNode
open ByteString Outcome

structure QdayParams where
  rulesVersion : UInt8
  domain : Hash256
  canary : FixedBytes 32
  reward : Currency
  proofFee : Currency
  miningBlocks : UInt64
  premineAmount : Currency
  shieldBlocks : UInt64
  decayBlocks : UInt64
  decayStep : UInt64
  activationDelay : UInt64
  defendBits : UInt8
  v1Height : UInt64

def QdayParams.validate (c : Crypto) (p : QdayParams) : Outcome Unit := do
  rejectIf (p.rulesVersion ≠ 2) "unsupported QDAY consensus version"
  let premine ← Currency.siacoins 500000
  rejectIf (p.premineAmount ≠ premine) "QDAY premine must be exactly 500000 coins"
  rejectIf (p.domain = default ∨ p.reward.isZero ∨ p.proofFee.isZero ∨ p.miningBlocks = 0 ∨
    p.miningBlocks > 10000000 ∨ p.shieldBlocks = 0 ∨ p.shieldBlocks > 10000000 ∨ p.decayBlocks = 0 ∨
    p.decayBlocks > 10000000 ∨ p.decayStep = 0 ∨ p.decayBlocks % p.decayStep ≠ 0 ∨ p.activationDelay = 0 ∨
    p.activationDelay > 100000 ∨ p.defendBits > 32) "invalid QDAY consensus parameters"
  let (mined, overflow) := p.reward.mul64WithOverflow p.miningBlocks
  rejectIf (overflow = true) "QDAY emission overflows"
  rejectIf ((mined.addWithOverflow p.premineAmount).2 = true) "QDAY gross emission overflows"
  rejectIf (c.isCanaryPoint p.canary = false) "invalid canary point"

/-- The parameters in which QDAY networks differ. -/
structure Network where
  qday : QdayParams
  initialTarget : BlockID
  blockInterval : Duration
  maturityDelay : UInt64
  /-- `HardforkOak.GenesisTimestamp`. -/
  genesisTimestamp : Time

namespace Network

/-- `HardforkV2.AllowHeight`, `RequireHeight`, `FinalCutHeight` and `EphemeralOutputHeight`. -/
def v2Height : UInt64 := 1

def nonceFactor : UInt64 := 1

/-- `HardforkASIC.Height - 1`, which wraps. -/
def beforeAsicHeight : UInt64 := 0 - 1

end Network

structure State where
  qdayHeight : UInt64
  network : Network
  index : ChainIndex
  /-- Newest first. -/
  prevTimestamps : {ts : List Time // ts.length = 11}
  depth : BlockID
  childTarget : BlockID
  siafundTaxRevenue : Currency
  oakTime : Duration
  oakTarget : BlockID
  foundationSubsidyAddress : Address
  foundationManagementAddress : Address
  totalWork : Work
  difficulty : Work
  oakWork : Work
  elements : ElementAccumulator
  attestations : UInt64

namespace State

def childHeight (s : State) : UInt64 := s.index.height + 1

def numTimestamps (s : State) : ℕ := Nat.min s.childHeight.toNat 11

def encode (s : State) : Bytes :=
  s.index.encode ++
    ((s.prevTimestamps.val.take s.numTimestamps).flatMap Time.encode ++
    (s.depth.val ++
    (s.childTarget.val ++
    (s.siafundTaxRevenue.encodeV2 ++
    (encodeUint64 s.oakTime.toUInt64 ++
    (s.oakTarget.val ++
    (s.foundationSubsidyAddress.val ++
    (s.foundationManagementAddress.val ++
    (s.totalWork.encode ++
    (s.difficulty.encode ++
    (s.oakWork.encode ++
    (s.elements.encode ++
    (encodeUint64 s.attestations ++ encodeUint64 s.qdayHeight)))))))))))))

def timeOrder (t u : Time) : Prop := u.before t = false

instance : DecidableRel timeOrder := fun _ _ => inferInstanceAs (Decidable (_ = false))

/-- `State.medianTimestamp`; with no timestamps the index is out of range. -/
def medianTimestamp (s : State) : Outcome Time :=
  let ts := (s.prevTimestamps.val.take s.numTimestamps).insertionSort timeOrder
  let mid := ts.length / 2
  if ts.length % 2 ≠ 0 then .ok (ts.getD mid default)
  else
    match ts with
    | [] => crash "index out of range"
    | _ =>
      let l := ts.getD (mid - 1) default
      let r := ts.getD mid default
      .ok (l.add (r.sub l / 2))

def blockReward (s : State) : Currency :=
  if s.childHeight = 0 ∨ s.childHeight > s.network.qday.miningBlocks then Currency.zeroCurrency
  else s.network.qday.reward

def powTarget (s : State) : Outcome BlockID :=
  if s.childHeight < Network.v2Height then .ok s.childTarget
  else do
    let t ← invTarget s.difficulty.toNat
    return FixedBytes.ofNat 32 t

def maturityHeight (s : State) : UInt64 := s.childHeight + s.network.maturityDelay

def siafundCount : UInt64 := 10000

def maxBlockWeight : UInt64 := 2000000

def v2FileContractTax (fc : V2FileContract) : Outcome Currency := do
  let sum ← fc.renterOutput.value.add fc.hostOutput.value
  sum.div64 25

/-- `State.FileContractTax` under the rules after the tax hardfork. -/
def fileContractTax (fc : FileContract) : Currency :=
  let i := fc.payout.toNat * 39 / 1000
  let i := i - i % siafundCount.toNat
  ⟨UInt64.ofNat i, UInt64.ofNat (i / 2^64)⟩

def transactionWeight (txn : Transaction) : UInt64 := UInt64.ofNat txn.encode.length

end State

def StateElement.sansProof (se : StateElement) : StateElement := { se with merkleProof := [] }

def V2SiacoinInput.sansProof (sci : V2SiacoinInput) : V2SiacoinInput :=
  { sci with parent.stateElement := sci.parent.stateElement.sansProof }

def V2SiafundInput.sansProof (sfi : V2SiafundInput) : V2SiafundInput :=
  { sfi with parent.stateElement := sfi.parent.stateElement.sansProof }

def V2FileContractRevision.sansProof (fcr : V2FileContractRevision) : V2FileContractRevision :=
  { fcr with parent.stateElement := fcr.parent.stateElement.sansProof }

def V2FileContractResolution.sansProof (fcr : V2FileContractResolution) : V2FileContractResolution where
  parent := { fcr.parent with stateElement := fcr.parent.stateElement.sansProof }
  resolution :=
    match fcr.resolution with
    | .storageProof sp => .storageProof { sp with proofIndex.stateElement := sp.proofIndex.stateElement.sansProof }
    | r => r

/-- What `State.V2TransactionWeight` counts: neither Merkle proofs, nor length fields, nor the fee. -/
def V2Transaction.weighed (txn : V2Transaction) : Bytes :=
  txn.siacoinInputs.flatMap (fun sci => sci.sansProof.encode) ++
    (txn.siacoinOutputs.flatMap SiacoinOutput.encodeV2 ++
    (txn.siafundInputs.flatMap (fun sfi => sfi.sansProof.encode) ++
    (txn.siafundOutputs.flatMap SiafundOutput.encodeV2 ++
    (txn.fileContracts.flatMap V2FileContract.encode ++
    (txn.fileContractRevisions.flatMap (fun fcr => fcr.sansProof.encode) ++
    (txn.fileContractResolutions.flatMap (fun fcr => fcr.sansProof.encode) ++
    (txn.attestations.flatMap Attestation.encode ++
    (txn.arbitraryData ++ (txn.newFoundationAddress.elim [] Subtype.val)))))))))

def v2TransactionWeight (txn : V2Transaction) : UInt64 := UInt64.ofNat txn.weighed.length

namespace State
variable (c : Crypto)

def merkleLeafPreimage (s : State) (minerAddr : Address) : Bytes :=
  0 :: (Crypto.distinguisher "commitment" ++ [2] ++ (c.sum256 s.encode).val ++ minerAddr.val)

/-- The leaves of the commitment tree, as the strings that are hashed. -/
def commitmentLeaves (s : State) (minerAddr : Address) (txns : List Transaction) (v2txns : List V2Transaction) :
    List Bytes :=
  s.merkleLeafPreimage c minerAddr ::
    (txns.map Transaction.merkleLeafPreimage ++ v2txns.map V2Transaction.merkleLeafPreimage)

def commitment (s : State) (minerAddr : Address) (txns : List Transaction) (v2txns : List V2Transaction) :
    Hash256 :=
  MerkleTree.merkleRoot c.sumPair default ((s.commitmentLeaves c minerAddr txns v2txns).map c.sum256)

def inputSigHash (s : State) (txn : V2Transaction) : Hash256 :=
  c.sum256 (Crypto.distinguisher "qday/sig/input/v1" ++ s.network.qday.domain.val ++ txn.encodeSemantics)

end State

/-- `Network.GenesisState`: the state the genesis block is applied to. -/
def Network.genesisState (n : Network) : Outcome State := do
  let difficulty ← invTarget n.initialTarget.toNat
  let work ← invTarget maxTarget
  return {
    qdayHeight := 0
    network := n
    index := ⟨0 - 1, default⟩
    prevTimestamps := ⟨List.replicate 11 default, List.length_replicate⟩
    depth := intToTarget maxTarget
    childTarget := n.initialTarget
    siafundTaxRevenue := Currency.zeroCurrency
    oakTime := 0
    oakTarget := intToTarget maxTarget
    foundationSubsidyAddress := default
    foundationManagementAddress := default
    totalWork := Work.ofNat work
    difficulty := Work.ofNat difficulty
    oakWork := Work.ofNat work
    elements := ⟨fun _ => default, 0⟩
    attestations := 0 }

end QdayNode
