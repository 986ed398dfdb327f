import QdayNode.Consensus.MidState

/-!
# Applying and reverting blocks

The functions of `consensus/application.go`.  Leaves of the accumulator point into the
records of the `MidState`; after the accumulator has been updated the records are read
back through those pointers.
-/
namespace QdayNode
open ByteString Outcome

section Identifiers

variable (c : Crypto)

def claimOutputID (sfoid : Hash256) : SiacoinOutputID := c.sum256 sfoid.val

def v2ClaimOutputID (sfoid : Hash256) : SiacoinOutputID :=
  c.sum256 (Crypto.distinguisher "id/v2siacoinclaimoutput" ++ sfoid.val)

def validOutputID (fcid : Hash256) (i : ℕ) : SiacoinOutputID :=
  c.sum256 (specifierStorageProof.val ++ fcid.val ++ encodeBool true ++ encodeUint64 (UInt64.ofNat i))

def missedOutputID (fcid : Hash256) (i : ℕ) : SiacoinOutputID :=
  c.sum256 (specifierStorageProof.val ++ fcid.val ++ encodeBool false ++ encodeUint64 (UInt64.ofNat i))

def v2ContractOutputID (fcid : Hash256) (i : UInt64) : SiacoinOutputID :=
  c.sum256 (Crypto.distinguisher "id/v2filecontractoutput" ++ fcid.val ++ encodeUint64 i)

def v2RenewalID (fcid : Hash256) : Hash256 :=
  c.sum256 (Crypto.distinguisher "id/v2filecontractrenewal" ++ fcid.val)

end Identifiers

namespace MidState

variable (c : Crypto)

def siafundClaim (ms : MidState) (sfe : SiafundElement) : Outcome Currency := do
  let revenue ← ms.siafundTaxRevenue.sub sfe.claimStart
  let share ← revenue.div64 State.siafundCount
  share.mul64 sfe.siafundOutput.value

/-- A Foundation update in v1 arbitrary data; short data leaves zeros. -/
def applyArbitraryData (ms : MidState) (arb : Bytes) : MidState :=
  if arb.take 16 = specifierFoundation.val then
    { ms with foundationSubsidy := slice 32 16 arb, foundationManagement := slice 32 48 arb }
  else ms

def applyTransaction (ms : MidState) (txn : Transaction) (ts : V1TransactionSupplement) : Outcome MidState := do
  let txid := txn.id c
  let ms ← txn.siacoinInputs.foldlM (fun ms sci => do
    let sce ← ms.siacoinElement ts sci.parentID
    ms.spendSiacoinElement sce txid) ms
  let ms ← foldIdx (fun i sco ms => ms.createSiacoinElement (txn.siacoinOutputID c i) sco) txn.siacoinOutputs 0 ms
  let ms ← txn.siafundInputs.foldlM (fun ms sfi => do
    let sfe ← ms.siafundElement ts sfi.parentID
    let claimPortion ← ms.siafundClaim sfe
    let ms ← ms.spendSiafundElement sfe txid
    ms.createImmatureSiacoinElement (claimOutputID c sfi.parentID) ⟨claimPortion, sfi.claimAddress⟩) ms
  let ms ← foldIdx (fun i sfo ms => ms.createSiafundElement (txn.siafundOutputID c i) sfo) txn.siafundOutputs 0 ms
  let ms ← foldIdx (fun i fc ms => ms.createFileContractElement (txn.fileContractID c i) fc) txn.fileContracts 0 ms
  let ms ← txn.fileContractRevisions.foldlM (fun ms fcr => do
    let fce ← ms.fileContractElement ts fcr.parentID "missing FileContractElement"
    ms.reviseFileContractElement fce fcr.fileContract) ms
  let ms ← txn.storageProofs.foldlM (fun ms sp => do
    let fce ← ms.fileContractElement ts sp.parentID "missing V1StorageProofSupplement"
    let ms ← ms.resolveFileContractElement fce true txid
    foldIdx (fun i sco ms => ms.createImmatureSiacoinElement (validOutputID c sp.parentID i) sco)
      fce.fileContract.validProofOutputs 0 ms) ms
  return txn.arbitraryData.foldl applyArbitraryData ms

def resolutionOutputs (fc : V2FileContract) :
    V2FileContractResolutionType → SiacoinOutput × SiacoinOutput × Option V2FileContract
  | .renewal r => (r.finalRenterOutput, r.finalHostOutput, some r.newContract)
  | .storageProof _ => (fc.renterOutput, fc.hostOutput, none)
  | .expiration => (fc.renterOutput, ⟨fc.missedHostValue, fc.hostOutput.address⟩, none)

def applyResolution (txid : TransactionID) (ms : MidState) (fcr : V2FileContractResolution) : Outcome MidState := do
  let ms ← ms.resolveV2FileContractElement fcr.parent fcr.resolution txid
  let (renter, host, renewal) := resolutionOutputs fcr.parent.v2FileContract fcr.resolution
  let ms ← renewal.elim (.ok ms) (ms.createV2FileContractElement (v2RenewalID c fcr.parent.id))
  let ms ← ms.createImmatureSiacoinElement (v2ContractOutputID c fcr.parent.id 0) renter
  ms.createImmatureSiacoinElement (v2ContractOutputID c fcr.parent.id 1) host

/-- The fields that only networks other than QDAY allow in a valid transaction. -/
def applyUnsupported (ms : MidState) (txid : TransactionID) (txn : V2Transaction) : Outcome MidState := do
  let ms ← txn.siafundInputs.foldlM (fun ms sfi => do
    let ms ← ms.spendSiafundElement sfi.parent txid
    let claimPortion ← ms.siafundClaim sfi.parent
    ms.createImmatureSiacoinElement (v2ClaimOutputID c sfi.parent.id) ⟨claimPortion, sfi.claimAddress⟩) ms
  let ms ← foldIdx (fun i sfo ms => ms.createSiafundElement (siafundOutputID c txid i) sfo) txn.siafundOutputs 0 ms
  let ms ← foldIdx (fun i fc ms => ms.createV2FileContractElement (v2FileContractID c txid i) fc) txn.fileContracts 0 ms
  let ms ← txn.fileContractRevisions.foldlM (fun ms fcr => ms.reviseV2FileContractElement fcr.parent fcr.revision) ms
  let ms ← txn.fileContractResolutions.foldlM (applyResolution c txid) ms
  let ms ← foldIdx (fun i a ms => .ok (ms.createAttestationElement (attestationID c txid i) a)) txn.attestations 0 ms
  return match txn.newFoundationAddress with
    | none => ms
    | some a =>
      { ms with
        foundationSubsidy := a
        foundationManagement := if a ≠ default then a else ms.foundationManagement }

/-- A canary proof in the block is remembered until the block has been applied. -/
def noteCanaryProof (ms : MidState) (txn : V2Transaction) : MidState :=
  match parseQdayEnvelope txn.arbitraryData with
  | .ok e => if e.kind = qdayCanaryProof then { ms with qdayProved := true } else ms
  | .error _ => ms

def applyV2Transaction (ms : MidState) (txn : V2Transaction) : Outcome MidState := do
  let ms := ms.noteCanaryProof txn
  let txid := txn.id c
  let ms ← txn.siacoinInputs.foldlM (fun ms sci => ms.spendSiacoinElement sci.parent txid) ms
  let ms ← foldIdx (fun i sco ms => ms.createSiacoinElement (siacoinOutputID c txid i) sco) txn.siacoinOutputs 0 ms
  ms.applyUnsupported c txid txn

/-- The v1 transactions, each with its supplement; a missing supplement is an index out of range. -/
def applyTransactions : List Transaction → List V1TransactionSupplement → MidState → Outcome MidState
  | [], _, ms => .ok ms
  | _ :: _, [], _ => crash "index out of range"
  | txn :: txns, ts :: tss, ms => do
      let ms ← ms.applyTransaction c txn ts
      applyTransactions txns tss ms

def expireFileContract (bid : BlockID) (ms : MidState) (fce : FileContractElement) : Outcome MidState :=
  if (ms.spends fce.id).isSome then .ok ms
  else do
    let ms ← ms.resolveFileContractElement fce false bid
    foldIdx (fun i sco ms => ms.createImmatureSiacoinElement (missedOutputID c fce.id i) sco)
      fce.fileContract.missedProofOutputs 0 ms

def applyBlock (ms : MidState) (b : Block) (bs : V1BlockSupplement) : Outcome MidState := do
  crashIf (ms.base.childHeight ≥ Network.v2Height ∧
    (bs.transactions.length ≠ 0 ∨ bs.expiringFileContracts.length ≠ 0))
    "consensus: block supplement must be empty after v2 hardfork"
  let ms ← applyTransactions c b.transactions bs.transactions ms
  let ms ← b.v2Transactions.foldlM (applyV2Transaction c) ms
  let ms ← foldIdx (fun i sco ms => ms.createImmatureSiacoinElement (minerOutputID c (b.id c) i) sco) b.minerPayouts 0 ms
  bs.expiringFileContracts.foldlM (expireFileContract c (b.id c)) ms

end MidState

section Leaves

variable (c : Crypto)

def SiacoinElement.leafPreimage (e : SiacoinElement) : Bytes :=
  Crypto.distinguisher "leaf/siacoin" ++ e.id.val ++ e.siacoinOutput.encodeV2 ++ encodeUint64 e.maturityHeight

def ChainIndexElement.leafPreimage (e : ChainIndexElement) : Bytes :=
  Crypto.distinguisher "leaf/chainindex" ++ e.id.val ++ e.chainIndex.encode

def siacoinLeaf (ref : ℕ) (e : SiacoinElement) (spent : Bool) : ElementLeaf :=
  ⟨ref, e.stateElement, c.sum256 e.leafPreimage, spent⟩

def siafundLeaf (ref : ℕ) (e : SiafundElement) (spent : Bool) : ElementLeaf :=
  ⟨ref, e.stateElement,
    c.sum256 (Crypto.distinguisher "leaf/siafund" ++ e.id.val ++ e.siafundOutput.encodeV2 ++ e.claimStart.encodeV2), spent⟩

def fileContractLeaf (ref : ℕ) (e : FileContractElement) (rev : Option FileContract) (spent : Bool) : ElementLeaf :=
  ⟨ref, e.stateElement,
    c.sum256 (Crypto.distinguisher "leaf/filecontract" ++ e.id.val ++ (rev.getD e.fileContract).encode), spent⟩

def v2FileContractLeaf (ref : ℕ) (e : V2FileContractElement) (rev : Option V2FileContract) (spent : Bool) :
    ElementLeaf :=
  ⟨ref, e.stateElement,
    c.sum256 (Crypto.distinguisher "leaf/v2filecontract" ++ e.id.val ++ (rev.getD e.v2FileContract).encode), spent⟩

def attestationLeaf (ref : ℕ) (e : AttestationElement) : ElementLeaf :=
  ⟨ref, e.stateElement, c.sum256 (Crypto.distinguisher "leaf/attestation" ++ e.id.val ++ e.attestation.encode), false⟩

def chainIndexLeaf (ref : ℕ) (e : ChainIndexElement) : ElementLeaf :=
  ⟨ref, e.stateElement, c.sum256 e.leafPreimage, false⟩

end Leaves

/-- The effects of a block, as `ApplyUpdate` and `RevertUpdate` report them. -/
structure BlockDiffs where
  sces : List SiacoinElementDiff
  sfes : List SiafundElementDiff
  fces : List FileContractElementDiff
  v2fces : List V2FileContractElementDiff
  aes : List AttestationElement
  cie : ChainIndexElement

namespace BlockDiffs

variable (c : Crypto)

/-- The positions at which the records of each kind begin when all are numbered in order. -/
def sfeStart (d : BlockDiffs) : ℕ := d.sces.length
def fceStart (d : BlockDiffs) : ℕ := d.sfeStart + d.sfes.length
def v2fceStart (d : BlockDiffs) : ℕ := d.fceStart + d.fces.length
def aeStart (d : BlockDiffs) : ℕ := d.v2fceStart + d.v2fces.length
def cieStart (d : BlockDiffs) : ℕ := d.aeStart + d.aes.length

def appliedLeaves (d : BlockDiffs) : List ElementLeaf :=
  d.sces.mapIdx (fun i e => siacoinLeaf c i e.siacoinElement e.spent) ++
    (d.sfes.mapIdx (fun i e => siafundLeaf c (d.sfeStart + i) e.siafundElement e.spent) ++
    (d.fces.mapIdx (fun i e => fileContractLeaf c (d.fceStart + i) e.fileContractElement e.revision e.resolved) ++
    (d.v2fces.mapIdx (fun i e =>
      v2FileContractLeaf c (d.v2fceStart + i) e.v2FileContractElement e.revision e.resolution.isSome) ++
    (d.aes.mapIdx (fun i e => attestationLeaf c (d.aeStart + i) e) ++ [chainIndexLeaf c d.cieStart d.cie]))))

def revertedLeaves (d : BlockDiffs) : List ElementLeaf :=
  d.sces.mapIdx (fun i e => siacoinLeaf c i e.siacoinElement false) ++
    (d.sfes.mapIdx (fun i e => siafundLeaf c (d.sfeStart + i) e.siafundElement false) ++
    (d.fces.mapIdx (fun i e => fileContractLeaf c (d.fceStart + i) e.fileContractElement none false) ++
    d.v2fces.mapIdx (fun i e => v2FileContractLeaf c (d.v2fceStart + i) e.v2FileContractElement none false)))

/-- The state element found behind pointer `ref` once the accumulator has worked on the leaves. -/
def readBack (leaves : List ElementLeaf) (ref : ℕ) (se : StateElement) : StateElement :=
  ((leaves.find? (·.ref = ref)).map ElementLeaf.stateElement).getD se

/-- The records with the indices and proofs that the accumulator wrote into them. -/
def withLeaves (d : BlockDiffs) (leaves : List ElementLeaf) : BlockDiffs where
  sces := d.sces.mapIdx fun i e =>
    { e with siacoinElement.stateElement := readBack leaves i e.siacoinElement.stateElement }
  sfes := d.sfes.mapIdx fun i e =>
    { e with siafundElement.stateElement := readBack leaves (d.sfeStart + i) e.siafundElement.stateElement }
  fces := d.fces.mapIdx fun i e =>
    { e with fileContractElement.stateElement := readBack leaves (d.fceStart + i) e.fileContractElement.stateElement }
  v2fces := d.v2fces.mapIdx fun i e =>
    { e with
      v2FileContractElement.stateElement := readBack leaves (d.v2fceStart + i) e.v2FileContractElement.stateElement }
  aes := d.aes.mapIdx fun i e => { e with stateElement := readBack leaves (d.aeStart + i) e.stateElement }
  cie := { d.cie with stateElement := readBack leaves d.cieStart d.cie.stateElement }

def reverse (d : BlockDiffs) : BlockDiffs :=
  { d with sces := d.sces.reverse, sfes := d.sfes.reverse, fces := d.fces.reverse, v2fces := d.v2fces.reverse }

end BlockDiffs

def updatedLeaves (leaves : List ElementLeaf) : List ElementLeaf :=
  leaves.filter fun l => l.stateElement.leafIndex ≠ unassignedLeafIndex

def addedLeaves (leaves : List ElementLeaf) : List ElementLeaf :=
  leaves.filter fun l => l.stateElement.leafIndex = unassignedLeafIndex

/-- `ms.sces`, … and `ms.cie` after `MidState.ApplyBlock`. -/
def MidState.diffs (ms : MidState) (bid : BlockID) : BlockDiffs where
  sces := ms.sces
  sfes := ms.sfes
  fces := ms.fces
  v2fces := ms.v2fces
  aes := ms.aes
  cie := ⟨bid, StateElement.unassigned, ⟨ms.base.childHeight, bid⟩⟩

section Header

def updateTotalWork (s : State) : Outcome (Work × BlockID) :=
  if s.childHeight < Network.v2Height then do
    let depth ← addTarget s.depth s.childTarget
    let work ← invTarget depth.toNat
    return (Work.ofNat work, depth)
  else do
    let totalWork ← s.totalWork.add s.difficulty
    let depth ← invTarget totalWork.toNat
    return (totalWork, FixedBytes.ofNat 32 depth)

def second : Duration := 1000000000

def updateOakTime (s : State) (blockTimestamp parentTimestamp : Time) : Duration :=
  if s.childHeight = Network.beforeAsicHeight then 0
  else
    let decayedTime := (s.oakTime / second * 995) / 1000 * second
    decayedTime + blockTimestamp.sub parentTimestamp

def updateOakWork (s : State) : Outcome (Work × BlockID) :=
  if s.childHeight < Network.v2Height then do
    let decayed ← mulTargetFrac s.oakTarget 1000 995
    let target ← addTarget decayed s.childTarget
    let work ← invTarget target.toNat
    return (Work.ofNat work, target)
  else do
    let decay ← s.oakWork.div64 200
    let decayed ← s.oakWork.sub decay
    let work ← decayed.add s.difficulty
    let target ← invTarget work.toNat
    return (work, FixedBytes.ofNat 32 target)

/-- `adjustTarget` at child height 0, the only one before the v2 rules.  No time is expected to
have passed, so the ratio is 0 and clamped to 10/25, or 0/0 and not clamped at all. -/
def adjustTarget (s : State) (blockTimestamp targetTimestamp : Time) : Outcome BlockID :=
  if blockTimestamp.sub targetTimestamp / second = 0 then mulTargetFrac s.childTarget 0 0
  else mulTargetFrac s.childTarget 25 10

def adjustDifficultyFinalCut (s : State) (blockTimestamp : Time) : Outcome Work := do
  let interval := s.network.blockInterval
  let expectedDuration := interval * s.childHeight.toInt64
  let actualDuration := blockTimestamp.sub s.network.genesisTimestamp
  let shift := (expectedDuration - actualDuration) / 1000
  let targetInterval := interval + shift
  let targetInterval := min targetInterval (interval * 3)
  let targetInterval := max targetInterval (interval / 3)
  let product ← s.oakWork.mul64 targetInterval.toUInt64
  let half ← Work.oneWork.mul64 (s.oakTime / 2).toUInt64
  let sum ← product.add half
  let newDifficulty ← sum.div64 (max s.oakTime 1).toUInt64
  let step ← s.difficulty.div64 250
  let maxAdjust := step.max Work.oneWork
  let ceiling ← s.difficulty.add maxAdjust
  let newDifficulty := newDifficulty.min ceiling
  let floor ← s.difficulty.sub maxAdjust
  let newDifficulty := newDifficulty.max floor
  return newDifficulty.max Work.oneWork

def adjustDifficulty (s : State) (blockTimestamp targetTimestamp : Time) : Outcome (Work × BlockID) :=
  if s.childHeight < Network.v2Height then do
    let target ← adjustTarget s blockTimestamp targetTimestamp
    let work ← invTarget target.toNat
    return (Work.ofNat work, target)
  else do
    let difficulty ← adjustDifficultyFinalCut s blockTimestamp
    let target ← invTarget difficulty.toNat
    return (difficulty, FixedBytes.ofNat 32 target)

/-- The proof-of-work fields after the header, before deprecated ones are cleared. -/
def advanceWork (c : Crypto) (s : State) (bh : BlockHeader) (targetTimestamp : Time) : Outcome State :=
  if bh.parentID = default then do
    let (oakWork, oakTarget) ← updateOakWork s
    return { s with
      oakTime := updateOakTime s bh.timestamp bh.timestamp
      oakWork, oakTarget
      index := ⟨0, bh.id c⟩ }
  else do
    let (totalWork, depth) ← updateTotalWork s
    let (difficulty, childTarget) ← adjustDifficulty s bh.timestamp targetTimestamp
    let (oakWork, oakTarget) ← updateOakWork s
    return { s with
      totalWork, depth, difficulty, childTarget
      oakTime := updateOakTime s bh.timestamp (s.prevTimestamps.val.getD 0 default)
      oakWork, oakTarget
      index := ⟨s.index.height + 1, bh.id c⟩ }

def applyHeader (c : Crypto) (s : State) (bh : BlockHeader) (targetTimestamp : Time) : Outcome State := do
  crashIf (s.index.height > 0 ∧ s.index.id ≠ bh.parentID) "consensus: cannot apply non-child block"
  let next ← advanceWork c s bh targetTimestamp
  let next := { next with
    prevTimestamps := ⟨(bh.timestamp :: s.prevTimestamps.val).take 11, by simp [s.prevTimestamps.property]⟩ }
  return if next.index.height ≥ Network.v2Height then
    { next with depth := default, childTarget := default, oakTarget := default }
  else next

end Header

structure ApplyUpdate where
  diffs : BlockDiffs
  eau : ElementApplyUpdate

structure RevertUpdate where
  diffs : BlockDiffs
  eru : ElementRevertUpdate

section Blocks

variable (c : Crypto)

/-- The state handed to `ApplyHeader`: what the transactions changed, and the new accumulator. -/
def State.withBlock (s : State) (ms : MidState) (acc : ElementAccumulator) : State :=
  { s with
    siafundTaxRevenue := ms.siafundTaxRevenue
    attestations := s.attestations + UInt64.ofNat ms.aes.length
    foundationSubsidyAddress := ms.foundationSubsidy
    foundationManagementAddress := ms.foundationManagement
    elements := acc }

def applyBlock (s : State) (b : Block) (bs : V1BlockSupplement) (targetTimestamp : Time) :
    Outcome (State × ApplyUpdate) := do
  crashIf (s.index.height > 0 ∧ s.index.id ≠ b.parentID) "consensus: cannot apply non-child block"
  let ms ← (newMidState s).applyBlock c b bs
  let diffs := ms.diffs (b.id c)
  let leaves := diffs.appliedLeaves c
  let out ← s.elements.applyBlock c (updatedLeaves leaves) (addedLeaves leaves)
  let next ← applyHeader c (s.withBlock ms out.acc) (b.header c) targetTimestamp
  let next := if next.qdayHeight = 0 ∧ ms.qdayProved then
    { next with qdayHeight := next.index.height + next.network.qday.activationDelay } else next
  return (next, ⟨diffs.withLeaves (out.eau.updated.flatten ++ out.added), out.eau⟩)

def revertBlock (s : State) (b : Block) (bs : V1BlockSupplement) : Outcome RevertUpdate := do
  crashIf (s.index.id ≠ b.parentID) "consensus: cannot revert non-child block"
  let ms ← (newMidState s).applyBlock c b bs
  let diffs := ms.diffs (b.id c)
  let leaves := diffs.revertedLeaves c
  let out ← s.elements.revertBlock c (updatedLeaves leaves) (addedLeaves leaves)
  return ⟨(diffs.withLeaves (out.eru.updated.flatten ++ out.added)).reverse, out.eru⟩

end Blocks

def ApplyUpdate.updateElementProof (c : Crypto) (au : ApplyUpdate) (e : StateElement) : Outcome StateElement :=
  au.eau.updateElementProof c e

def RevertUpdate.updateElementProof (c : Crypto) (ru : RevertUpdate) (e : StateElement) : Outcome StateElement :=
  ru.eru.updateElementProof c e

section TreeNodes

structure TreeNode where
  row : ℕ
  col : ℕ
  hash : Hash256
  deriving DecidableEq

variable (c : Crypto)

def climbNodes (i : ℕ) : ℕ → ℕ → Hash256 → List Hash256 → List TreeNode → List TreeNode
  | _, _, _, [], seen => seen
  | row, col, h, sibling :: rest, seen =>
    let h := if i.testBit row then c.sumPair sibling h else c.sumPair h sibling
    if seen.any (fun n => n.row = row + 1 ∧ n.col = col / 2) then seen
    else climbNodes i (row + 1) (col / 2) h rest (seen ++ [⟨row + 1, col / 2, h⟩])

/-- The calls for one leaf; the leaf itself is reported without a check. -/
def leafNodes (seen : List TreeNode) (l : ElementLeaf) : List TreeNode :=
  climbNodes c l.leafIndex 0 l.leafIndex (l.hash c) l.merkleProof (seen ++ [⟨0, l.leafIndex, l.hash c⟩])

def ApplyUpdate.forEachTreeNode (au : ApplyUpdate) : List TreeNode :=
  (au.diffs.appliedLeaves c).foldl (leafNodes c) []

def RevertUpdate.forEachTreeNode (ru : RevertUpdate) : List TreeNode :=
  ((ru.diffs.revertedLeaves c).filter fun l => l.stateElement.leafIndex < ru.eru.numLeaves).foldl (leafNodes c) []

end TreeNodes

end QdayNode
