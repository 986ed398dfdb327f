import QdayNode.Consensus.BlockLeaves

/-!
# Genesis and mining candidates

A manifest fixes the network, the owner of the premine and the arbitrary data of the
genesis transaction (`coreutils/chain/qday.go`); the store applies the genesis block to
the genesis state without validating it.  `CandidateWithNonce` of
`coreutils/qday/miner.go` assembles the blocks that miners work on.
-/
namespace QdayNode
open ByteString Outcome

structure QdayManifest where
  network : Network
  premine : Address
  arbitraryData : List Bytes

namespace QdayManifest

def genesisTransaction (m : QdayManifest) : Transaction where
  siacoinOutputs := [⟨m.network.qday.premineAmount, m.premine⟩]
  arbitraryData := m.arbitraryData

def genesis (m : QdayManifest) : Block where
  parentID := default
  nonce := 0
  timestamp := m.network.genesisTimestamp
  minerPayouts := []
  transactions := [m.genesisTransaction]
  v2 := none

def start (c : Crypto) (m : QdayManifest) : Outcome (State × ApplyUpdate) := do
  let s ← m.network.genesisState
  applyBlock c s m.genesis { transactions := [{}] } default

end QdayManifest

section Candidate

/-- What `CandidateWithNonce` has collected. -/
structure Candidate where
  ms : MidState
  weight : UInt64
  transactions : List V2Transaction
  value : Currency

variable (c : Crypto)

/-- A transaction is skipped if it does not fit or is not valid here. -/
def Candidate.consider (cand : Candidate) (txn : V2Transaction) : Outcome Candidate :=
  let w := v2TransactionWeight txn
  if cand.weight + w > State.maxBlockWeight then .ok cand
  else
    match validateV2Transaction c cand.ms txn with
    | .error (.panic msg) => crash msg
    | .error (.error _) => .ok cand
    | .ok () => do
        let ms ← cand.ms.applyV2Transaction c txn
        let value ← cand.value.add txn.minerFee
        return ⟨ms, cand.weight + w, cand.transactions ++ [txn], value⟩

def coinbaseMarker (miner : QdayKeys) (markerNonce : UInt64) : V2Transaction where
  arbitraryData := (QdayEnvelope.mk qdayCoinbase markerNonce [miner] default).encode

def miningWorkMarker (markerNonce : UInt64) : V2Transaction where
  arbitraryData := (QdayEnvelope.mk qdayMiningWork markerNonce [] default).encode

def candidateWithNonce (s : State) (miner : QdayKeys) (txns : List V2Transaction) (timestamp : Time)
    (markerNonce : UInt64) : Outcome Block := do
  let marker := coinbaseMarker miner markerNonce
  let cand ← txns.foldlM (Candidate.consider c)
    ⟨newMidState s, v2TransactionWeight marker + 128, [marker], s.blockReward⟩
  let transactions :=
    if s.qdayV1Active s.childHeight then cand.transactions ++ [miningWorkMarker markerNonce] else cand.transactions
  let address := miner.policy.address c
  return {
    parentID := s.index.id
    nonce := 0
    timestamp := ⟨timestamp.sec, 0⟩
    minerPayouts := [⟨cand.value, address⟩]
    transactions := []
    v2 := some ⟨s.index.height + 1, s.commitment c address [] transactions, transactions⟩ }

end Candidate

section EmptyCandidate

variable {c : Crypto} {s : State} {miner : QdayKeys} {timestamp : Time} {markerNonce : UInt64} {b : Block}

theorem emptyCandidate_eq (hv1 : s.qdayV1Active s.childHeight = false)
    (hb : candidateWithNonce c s miner [] timestamp markerNonce = .ok b) :
    b = {
      parentID := s.index.id
      nonce := 0
      timestamp := ⟨timestamp.sec, 0⟩
      minerPayouts := [⟨s.blockReward, miner.policy.address c⟩]
      transactions := []
      v2 := some ⟨s.index.height + 1, s.commitment c (miner.policy.address c) [] [coinbaseMarker miner markerNonce],
        [coinbaseMarker miner markerNonce]⟩ } := by
  simp only [candidateWithNonce,List.foldlM_nil,bind_eq_ok,pure_eq_ok] at hb
  obtain ⟨_,rfl,rfl⟩ := hb
  simp [hv1]

theorem validateMinerPayouts_single {payout : SiacoinOutput} {v2 : V2BlockData} (hpayouts : b.minerPayouts = [payout])
    (htxns : b.transactions = []) (hv2 : b.v2 = some v2)
    (hvalue : payout.value.toNat = s.blockReward.toNat + (v2.transactions.map fun txn => txn.minerFee.toNat).sum) :
    validateMinerPayouts s b = .ok () := by
  have hfees : ((b.v2Transactions.map V2Transaction.minerFee).map Currency.toNat).sum =
      (v2.transactions.map fun txn => txn.minerFee.toNat).sum := by
    rw [Block.v2Transactions,hv2,List.map_map]
    rfl
  have hlt := payout.value.toNat_lt
  obtain ⟨expected,hexpected⟩ := sumWithOverflow_returns "v2 transaction fees overflow" _ s.blockReward
    (by rw [hfees,← hvalue]; exact hlt)
  obtain ⟨sum,hsum⟩ := sumWithOverflow_returns "miner payouts overflow" (b.minerPayouts.map SiacoinOutput.value)
    Currency.zeroCurrency (by simpa [hpayouts] using hlt)
  have heq : sum = expected := by
    refine Currency.toNat_inj ?_
    rw [sumWithOverflow_sum hexpected,sumWithOverflow_sum hsum,hfees,← hvalue]
    simp [hpayouts]
  simp only [validateMinerPayouts,htxns,List.flatMap_nil,sumFees,hexpected,hsum,ok_bind,heq]
  simp [hpayouts,rejectIf]

theorem emptyCandidate_valid (hv1 : s.qdayV1Active s.childHeight = false)
    (hb : candidateWithNonce c s miner [] timestamp markerNonce = .ok b)
    (hmarker : isCoinbaseMarker c (miner.policy.address c) (coinbaseMarker miner markerNonce) = true)
    (hweight : v2TransactionWeight (coinbaseMarker miner markerNonce) ≤ State.maxBlockWeight)
    (hheader : validateHeader c s (b.header c) = .ok ()) : validateBlock c s b {} = .ok () := by
  obtain rfl := emptyCandidate_eq hv1 hb
  have happly : (newMidState s).applyV2Transaction c (coinbaseMarker miner markerNonce) =
      .ok ((newMidState s).noteCanaryProof (coinbaseMarker miner markerNonce)) := by
    rw [MidState.applyV2Transaction_of_supported rfl]
    rfl
  simp only [validateBlock,validateOrphan,validateSupplement,validateQdayBlockMarkers,bind_unit_eq_ok,
    rejectIf_eq_ok,runIf_eq_ok]
  refine ⟨fun _ => ⟨by simp,by simp [hmarker],by simp [hv1]⟩,⟨?_,?_,hheader,by simp⟩,⟨by simp,by simp⟩,
    by simp [Block.v2Transactions],by simp,?_⟩
  · simpa [blockWeight,Block.v2Transactions] using UInt64.not_lt.mpr hweight
  · exact validateMinerPayouts_single rfl rfl rfl (by simp [coinbaseMarker])
  · simp [Block.v2Transactions,validateTransactions,isMarkerPosition,happly]

end EmptyCandidate

def sampleNetwork : Network where
  qday := {
    rulesVersion := 2
    domain := FixedBytes.ofNat 32 1
    canary := default
    reward := ⟨800, 0⟩
    proofFee := ⟨100, 0⟩
    miningBlocks := 1000
    premineAmount := ⟨2538472135152631808, 27105054312⟩
    shieldBlocks := 12
    decayBlocks := 24
    decayStep := 2
    activationDelay := 1
    defendBits := 8
    v1Height := 9100 }
  initialTarget := intToTarget maxTarget
  blockInterval := 2000000000
  maturityDelay := 2
  genesisTimestamp := Time.ofUnix 1788998400

def sampleKeys : QdayKeys := ⟨FixedBytes.ofNat 32 2, FixedBytes.ofNat 32 3⟩

/-- A state below the first block, over any accumulator. -/
def sampleState (elements : ElementAccumulator) : State where
  qdayHeight := 0
  network := sampleNetwork
  index := ⟨0, FixedBytes.ofNat 32 5⟩
  prevTimestamps := ⟨List.replicate 11 sampleNetwork.genesisTimestamp, List.length_replicate⟩
  depth := default
  childTarget := default
  siafundTaxRevenue := Currency.zeroCurrency
  oakTime := 0
  oakTarget := default
  foundationSubsidyAddress := default
  foundationManagementAddress := default
  totalWork := Work.oneWork
  difficulty := Work.oneWork
  oakWork := Work.oneWork
  elements := elements
  attestations := 0

def sampleTime : Time := Time.ofUnix 1788998402

def sampleManifest : QdayManifest := ⟨sampleNetwork, sampleKeys.policy.address sampleCrypto, []⟩

end QdayNode
