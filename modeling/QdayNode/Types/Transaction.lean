import QdayNode.Types.Policy

/-!
# Transactions and blocks

The v1 and v2 transaction types of `types/types.go` with the encoders of
`types/encoding.go` and the identifiers derived from them.  An encoder is the
string it writes.
-/
namespace QdayNode
open ByteString

structure ChainIndex where
  height : UInt64
  id : BlockID
  deriving DecidableEq

def ChainIndex.encode (index : ChainIndex) : Bytes := encodeUint64 index.height ++ index.id.val

structure SiacoinOutput where
  value : Currency
  address : Address
  deriving DecidableEq

namespace SiacoinOutput
def encodeV1 (sco : SiacoinOutput) : Bytes := sco.value.encodeV1 ++ sco.address.val
def encodeV2 (sco : SiacoinOutput) : Bytes := sco.value.encodeV2 ++ sco.address.val
end SiacoinOutput

structure SiafundOutput where
  value : UInt64
  address : Address
  deriving DecidableEq

namespace SiafundOutput
def encodeV1 (sfo : SiafundOutput) : Bytes :=
  (Currency.newCurrency64 sfo.value).encodeV1 ++ sfo.address.val ++ Currency.zeroCurrency.encodeV1
def encodeV2 (sfo : SiafundOutput) : Bytes := encodeUint64 sfo.value ++ sfo.address.val
end SiafundOutput

section V1

structure SiacoinInput where
  parentID : SiacoinOutputID
  unlockConditions : UnlockConditions

structure SiafundInput where
  parentID : Hash256
  unlockConditions : UnlockConditions
  claimAddress : Address

structure FileContract where
  filesize : UInt64
  fileMerkleRoot : Hash256
  windowStart : UInt64
  windowEnd : UInt64
  payout : Currency
  validProofOutputs : List SiacoinOutput
  missedProofOutputs : List SiacoinOutput
  unlockHash : Address
  revisionNumber : UInt64

structure FileContractRevision where
  parentID : Hash256
  unlockConditions : UnlockConditions
  fileContract : FileContract

structure StorageProof where
  parentID : Hash256
  leaf : FixedBytes 64
  proof : List Hash256

structure CoveredFields where
  wholeTransaction : Bool
  siacoinInputs : List UInt64
  siacoinOutputs : List UInt64
  fileContracts : List UInt64
  fileContractRevisions : List UInt64
  storageProofs : List UInt64
  siafundInputs : List UInt64
  siafundOutputs : List UInt64
  minerFees : List UInt64
  arbitraryData : List UInt64
  signatures : List UInt64

structure TransactionSignature where
  parentID : Hash256
  publicKeyIndex : UInt64
  timelock : UInt64
  coveredFields : CoveredFields
  signature : Bytes

structure Transaction where
  siacoinInputs : List SiacoinInput := []
  siacoinOutputs : List SiacoinOutput := []
  fileContracts : List FileContract := []
  fileContractRevisions : List FileContractRevision := []
  storageProofs : List StorageProof := []
  siafundInputs : List SiafundInput := []
  siafundOutputs : List SiafundOutput := []
  minerFees : List Currency := []
  arbitraryData : List Bytes := []
  signatures : List TransactionSignature := []

def SiacoinInput.encode (sci : SiacoinInput) : Bytes := sci.parentID.val ++ sci.unlockConditions.encode

def SiafundInput.encode (sfi : SiafundInput) : Bytes :=
  sfi.parentID.val ++ sfi.unlockConditions.encode ++ sfi.claimAddress.val

def FileContract.encode (fc : FileContract) : Bytes :=
  encodeUint64 fc.filesize ++ fc.fileMerkleRoot.val ++ encodeUint64 fc.windowStart ++
    encodeUint64 fc.windowEnd ++ fc.payout.encodeV1 ++
    encodeList SiacoinOutput.encodeV1 fc.validProofOutputs ++
    encodeList SiacoinOutput.encodeV1 fc.missedProofOutputs ++ fc.unlockHash.val ++
    encodeUint64 fc.revisionNumber

def FileContractRevision.encode (rev : FileContractRevision) : Bytes :=
  rev.parentID.val ++ rev.unlockConditions.encode ++ encodeUint64 rev.fileContract.revisionNumber ++
    encodeUint64 rev.fileContract.filesize ++ rev.fileContract.fileMerkleRoot.val ++
    encodeUint64 rev.fileContract.windowStart ++ encodeUint64 rev.fileContract.windowEnd ++
    encodeList SiacoinOutput.encodeV1 rev.fileContract.validProofOutputs ++
    encodeList SiacoinOutput.encodeV1 rev.fileContract.missedProofOutputs ++ rev.fileContract.unlockHash.val

def StorageProof.encode (sp : StorageProof) : Bytes :=
  sp.parentID.val ++ sp.leaf.val ++ encodeList Subtype.val sp.proof

def CoveredFields.encode (cf : CoveredFields) : Bytes :=
  encodeBool cf.wholeTransaction ++ encodeList encodeUint64 cf.siacoinInputs ++
    encodeList encodeUint64 cf.siacoinOutputs ++ encodeList encodeUint64 cf.fileContracts ++
    encodeList encodeUint64 cf.fileContractRevisions ++ encodeList encodeUint64 cf.storageProofs ++
    encodeList encodeUint64 cf.siafundInputs ++ encodeList encodeUint64 cf.siafundOutputs ++
    encodeList encodeUint64 cf.minerFees ++ encodeList encodeUint64 cf.arbitraryData ++
    encodeList encodeUint64 cf.signatures

def TransactionSignature.encode (ts : TransactionSignature) : Bytes :=
  ts.parentID.val ++ encodeUint64 ts.publicKeyIndex ++ encodeUint64 ts.timelock ++
    ts.coveredFields.encode ++ encodeBytes ts.signature

namespace Transaction

def encodeSansSigs (txn : Transaction) : Bytes :=
  encodeList SiacoinInput.encode txn.siacoinInputs ++
    (encodeList SiacoinOutput.encodeV1 txn.siacoinOutputs ++
      (encodeList FileContract.encode txn.fileContracts ++
        (encodeList FileContractRevision.encode txn.fileContractRevisions ++
          (encodeList StorageProof.encode txn.storageProofs ++
            (encodeList SiafundInput.encode txn.siafundInputs ++
              (encodeList SiafundOutput.encodeV1 txn.siafundOutputs ++
                (encodeList Currency.encodeV1 txn.minerFees ++ encodeList encodeBytes txn.arbitraryData)))))))

def encode (txn : Transaction) : Bytes :=
  txn.encodeSansSigs ++ encodeList TransactionSignature.encode txn.signatures

variable (c : Crypto)

def id (txn : Transaction) : TransactionID := c.sum256 txn.encodeSansSigs

def siacoinOutputPreimage (txn : Transaction) (i : ℕ) : Bytes :=
  specifierSiacoinOutput.val ++ txn.encodeSansSigs ++ encodeUint64 (UInt64.ofNat i)

def siacoinOutputID (txn : Transaction) (i : ℕ) : SiacoinOutputID := c.sum256 (txn.siacoinOutputPreimage i)

def siafundOutputID (txn : Transaction) (i : ℕ) : Hash256 :=
  c.sum256 (specifierSiafundOutput.val ++ txn.encodeSansSigs ++ encodeUint64 (UInt64.ofNat i))

def fileContractID (txn : Transaction) (i : ℕ) : Hash256 :=
  c.sum256 (specifierFileContract.val ++ txn.encodeSansSigs ++ encodeUint64 (UInt64.ofNat i))

def merkleLeafPreimage (txn : Transaction) : Bytes := 0 :: txn.encode

end Transaction

end V1

section V2

/-- The position of an element in the accumulator and its sibling path. -/
structure StateElement where
  leafIndex : UInt64
  merkleProof : List Hash256
  deriving DecidableEq

def unassignedLeafIndex : UInt64 := 10101010101010101010

structure ChainIndexElement where
  id : BlockID
  stateElement : StateElement
  chainIndex : ChainIndex
  deriving DecidableEq

structure SiacoinElement where
  id : SiacoinOutputID
  stateElement : StateElement
  siacoinOutput : SiacoinOutput
  maturityHeight : UInt64
  deriving DecidableEq

structure SiafundElement where
  id : Hash256
  stateElement : StateElement
  siafundOutput : SiafundOutput
  claimStart : Currency

structure V2FileContract where
  capacity : UInt64
  filesize : UInt64
  fileMerkleRoot : Hash256
  proofHeight : UInt64
  expirationHeight : UInt64
  renterOutput : SiacoinOutput
  hostOutput : SiacoinOutput
  missedHostValue : Currency
  totalCollateral : Currency
  renterPublicKey : PublicKey
  hostPublicKey : PublicKey
  revisionNumber : UInt64
  renterSignature : Signature
  hostSignature : Signature

structure FileContractElement where
  id : Hash256
  stateElement : StateElement
  fileContract : FileContract

structure V2FileContractElement where
  id : Hash256
  stateElement : StateElement
  v2FileContract : V2FileContract

structure Attestation where
  publicKey : PublicKey
  key : Bytes
  value : Bytes
  signature : Signature

structure AttestationElement where
  id : Hash256
  stateElement : StateElement
  attestation : Attestation

structure V2SiacoinInput where
  parent : SiacoinElement
  satisfiedPolicy : SatisfiedPolicy

structure V2SiafundInput where
  parent : SiafundElement
  claimAddress : Address
  satisfiedPolicy : SatisfiedPolicy

structure V2FileContractRevision where
  parent : V2FileContractElement
  revision : V2FileContract

structure V2FileContractRenewal where
  finalRenterOutput : SiacoinOutput
  finalHostOutput : SiacoinOutput
  renterRollover : Currency
  hostRollover : Currency
  newContract : V2FileContract
  renterSignature : Signature
  hostSignature : Signature

structure V2StorageProof where
  proofIndex : ChainIndexElement
  leaf : FixedBytes 64
  proof : List Hash256

inductive V2FileContractResolutionType where
  | renewal (r : V2FileContractRenewal)
  | storageProof (sp : V2StorageProof)
  | expiration

structure V2FileContractResolution where
  parent : V2FileContractElement
  resolution : V2FileContractResolutionType

structure V2Transaction where
  siacoinInputs : List V2SiacoinInput := []
  siacoinOutputs : List SiacoinOutput := []
  siafundInputs : List V2SiafundInput := []
  siafundOutputs : List SiafundOutput := []
  fileContracts : List V2FileContract := []
  fileContractRevisions : List V2FileContractRevision := []
  fileContractResolutions : List V2FileContractResolution := []
  attestations : List Attestation := []
  arbitraryData : Bytes := []
  newFoundationAddress : Option Address := none
  minerFee : Currency := Currency.zeroCurrency

def StateElement.encode (se : StateElement) : Bytes :=
  encodeUint64 se.leafIndex ++ encodeList Subtype.val se.merkleProof

def ChainIndexElement.encode (cie : ChainIndexElement) : Bytes :=
  cie.stateElement.encode ++ cie.id.val ++ cie.chainIndex.encode

def SiacoinElement.encode (sce : SiacoinElement) : Bytes :=
  sce.stateElement.encode ++ sce.id.val ++ sce.siacoinOutput.encodeV2 ++ encodeUint64 sce.maturityHeight

def SiafundElement.encode (sfe : SiafundElement) : Bytes :=
  sfe.stateElement.encode ++ sfe.id.val ++ sfe.siafundOutput.encodeV2 ++ sfe.claimStart.encodeV2

def V2FileContract.encode (fc : V2FileContract) : Bytes :=
  encodeUint64 fc.capacity ++ encodeUint64 fc.filesize ++ fc.fileMerkleRoot.val ++
    encodeUint64 fc.proofHeight ++ encodeUint64 fc.expirationHeight ++ fc.renterOutput.encodeV2 ++
    fc.hostOutput.encodeV2 ++ fc.missedHostValue.encodeV2 ++ fc.totalCollateral.encodeV2 ++
    fc.renterPublicKey.val ++ fc.hostPublicKey.val ++ encodeUint64 fc.revisionNumber ++
    fc.renterSignature.val ++ fc.hostSignature.val

def V2FileContractElement.encode (fce : V2FileContractElement) : Bytes :=
  fce.stateElement.encode ++ fce.id.val ++ fce.v2FileContract.encode

def V2SiacoinInput.encode (sci : V2SiacoinInput) : Bytes := sci.parent.encode ++ sci.satisfiedPolicy.encode

def V2SiafundInput.encode (sfi : V2SiafundInput) : Bytes :=
  sfi.parent.encode ++ sfi.claimAddress.val ++ sfi.satisfiedPolicy.encode

def V2FileContractRevision.encode (fcr : V2FileContractRevision) : Bytes :=
  fcr.parent.encode ++ fcr.revision.encode

def V2FileContractRenewal.encode (ren : V2FileContractRenewal) : Bytes :=
  ren.finalRenterOutput.encodeV2 ++ ren.finalHostOutput.encodeV2 ++ ren.renterRollover.encodeV2 ++
    ren.hostRollover.encodeV2 ++ ren.newContract.encode ++ ren.renterSignature.val ++ ren.hostSignature.val

def V2StorageProof.encode (sp : V2StorageProof) : Bytes :=
  sp.proofIndex.encode ++ sp.leaf.val ++ encodeList Subtype.val sp.proof

namespace V2FileContractResolutionType

def tag : V2FileContractResolutionType → UInt8
  | .renewal _ => 0
  | .storageProof _ => 1
  | .expiration => 2

def encode : V2FileContractResolutionType → Bytes
  | .renewal r => r.encode
  | .storageProof sp => sp.encode
  | .expiration => []

end V2FileContractResolutionType

def V2FileContractResolution.encode (fcr : V2FileContractResolution) : Bytes :=
  fcr.parent.encode ++ fcr.resolution.tag :: fcr.resolution.encode

def Attestation.encode (a : Attestation) : Bytes :=
  a.publicKey.val ++ encodeBytes a.key ++ encodeBytes a.value ++ a.signature.val

def V2FileContract.nilSigs (fc : V2FileContract) : V2FileContract :=
  { fc with renterSignature := default, hostSignature := default }

def V2FileContractResolutionType.normalize : V2FileContractResolutionType → V2FileContractResolutionType
  | .renewal r =>
    .renewal { r with newContract := r.newContract.nilSigs, renterSignature := default, hostSignature := default }
  | .storageProof sp =>
    .storageProof { sp with proofIndex.stateElement.merkleProof := [] }
  | .expiration => .expiration

namespace V2Transaction

def presence (txn : V2Transaction) : List Bool :=
  [!txn.siacoinInputs.isEmpty, !txn.siacoinOutputs.isEmpty, !txn.siafundInputs.isEmpty,
    !txn.siafundOutputs.isEmpty, !txn.fileContracts.isEmpty, !txn.fileContractRevisions.isEmpty,
    !txn.fileContractResolutions.isEmpty, !txn.attestations.isEmpty, !txn.arbitraryData.isEmpty,
    txn.newFoundationAddress.isSome, !txn.minerFee.isZero]

def fieldBits : List Bool → ℕ
  | [] => 0
  | b :: bs => (if b then 1 else 0) + 2 * fieldBits bs

def encodeField (present : Bool) (b : Bytes) : Bytes := if present then b else []

def encode (txn : V2Transaction) : Bytes :=
  2 :: (encodeUint64 (UInt64.ofNat (fieldBits txn.presence)) ++
    (encodeField (!txn.siacoinInputs.isEmpty) (encodeList V2SiacoinInput.encode txn.siacoinInputs) ++
    (encodeField (!txn.siacoinOutputs.isEmpty) (encodeList SiacoinOutput.encodeV2 txn.siacoinOutputs) ++
    (encodeField (!txn.siafundInputs.isEmpty) (encodeList V2SiafundInput.encode txn.siafundInputs) ++
    (encodeField (!txn.siafundOutputs.isEmpty) (encodeList SiafundOutput.encodeV2 txn.siafundOutputs) ++
    (encodeField (!txn.fileContracts.isEmpty) (encodeList V2FileContract.encode txn.fileContracts) ++
    (encodeField (!txn.fileContractRevisions.isEmpty)
      (encodeList V2FileContractRevision.encode txn.fileContractRevisions) ++
    (encodeField (!txn.fileContractResolutions.isEmpty)
      (encodeList V2FileContractResolution.encode txn.fileContractResolutions) ++
    (encodeField (!txn.attestations.isEmpty) (encodeList Attestation.encode txn.attestations) ++
    (encodeField (!txn.arbitraryData.isEmpty) (encodeBytes txn.arbitraryData) ++
    (encodeField txn.newFoundationAddress.isSome (txn.newFoundationAddress.getD default).val ++
      encodeField (!txn.minerFee.isZero) txn.minerFee.encodeV2)))))))))))

/-- `V2TransactionSemantics.EncodeTo`: what the transaction does, without witnesses and proofs. -/
def encodeSemantics (txn : V2Transaction) : Bytes :=
  encodeList (fun sci => sci.parent.id.val) txn.siacoinInputs ++
    (encodeList SiacoinOutput.encodeV2 txn.siacoinOutputs ++
    (encodeList (fun sfi => sfi.parent.id.val) txn.siafundInputs ++
    (encodeList SiafundOutput.encodeV2 txn.siafundOutputs ++
    (encodeList (fun fc => fc.nilSigs.encode) txn.fileContracts ++
    (encodeList (fun fcr => fcr.parent.id.val ++ fcr.revision.nilSigs.encode) txn.fileContractRevisions ++
    (encodeList (fun fcr => fcr.parent.id.val ++ fcr.resolution.normalize.encode)
      txn.fileContractResolutions ++
    (encodeList Attestation.encode txn.attestations ++
    (encodeBytes txn.arbitraryData ++
    (encodeOption Subtype.val txn.newFoundationAddress ++ txn.minerFee.encodeV2)))))))))

def idPreimage (txn : V2Transaction) : Bytes := Crypto.distinguisher "id/transaction" ++ txn.encodeSemantics

def merkleLeafPreimage (txn : V2Transaction) : Bytes := 0 :: txn.encode

variable (c : Crypto)

def id (txn : V2Transaction) : TransactionID := c.sum256 txn.idPreimage

end V2Transaction

def siacoinOutputPreimage (txid : TransactionID) (i : ℕ) : Bytes :=
  Crypto.distinguisher "id/siacoinoutput" ++ txid.val ++ encodeUint64 (UInt64.ofNat i)

def siacoinOutputID (c : Crypto) (txid : TransactionID) (i : ℕ) : SiacoinOutputID :=
  c.sum256 (siacoinOutputPreimage txid i)

def siafundOutputID (c : Crypto) (txid : TransactionID) (i : ℕ) : Hash256 :=
  c.sum256 (Crypto.distinguisher "id/siafundoutput" ++ txid.val ++ encodeUint64 (UInt64.ofNat i))

def v2FileContractID (c : Crypto) (txid : TransactionID) (i : ℕ) : Hash256 :=
  c.sum256 (Crypto.distinguisher "id/filecontract" ++ txid.val ++ encodeUint64 (UInt64.ofNat i))

def attestationID (c : Crypto) (txid : TransactionID) (i : ℕ) : Hash256 :=
  c.sum256 (Crypto.distinguisher "id/attestation" ++ txid.val ++ encodeUint64 (UInt64.ofNat i))

def minerOutputPreimage (bid : BlockID) (i : ℕ) : Bytes := bid.val ++ encodeUint64 (UInt64.ofNat i)

def minerOutputID (c : Crypto) (bid : BlockID) (i : ℕ) : SiacoinOutputID :=
  c.sum256 (minerOutputPreimage bid i)

end V2

structure V2BlockData where
  height : UInt64
  commitment : Hash256
  transactions : List V2Transaction

structure BlockHeader where
  parentID : BlockID
  nonce : UInt64
  timestamp : Time
  commitment : Hash256
  deriving DecidableEq

structure Block where
  parentID : BlockID
  nonce : UInt64
  timestamp : Time
  minerPayouts : List SiacoinOutput
  transactions : List Transaction
  v2 : Option V2BlockData

namespace BlockHeader

def preimage (bh : BlockHeader) : Bytes :=
  bh.parentID.val ++ encodeUint64 bh.nonce ++ bh.timestamp.encode ++ bh.commitment.val

def id (c : Crypto) (bh : BlockHeader) : BlockID := c.sum256 bh.preimage

end BlockHeader

def blockMerkleRoot (c : Crypto) (minerPayouts : List SiacoinOutput) (txns : List Transaction) : Hash256 :=
  MerkleTree.merkleRoot c.sumPair default
    (minerPayouts.map (fun mp => c.sum256 (0 :: mp.encodeV1)) ++ txns.map (fun txn => c.sum256 txn.merkleLeafPreimage))

namespace Block

def v2Transactions (b : Block) : List V2Transaction :=
  match b.v2 with
  | some v2 => v2.transactions
  | none => []

def header (c : Crypto) (b : Block) : BlockHeader where
  parentID := b.parentID
  nonce := b.nonce
  timestamp := b.timestamp
  commitment :=
    match b.v2 with
    | some v2 => v2.commitment
    | none => blockMerkleRoot c b.minerPayouts b.transactions

def id (c : Crypto) (b : Block) : BlockID := (b.header c).id c

end Block

end QdayNode
