import QdayNode.Consensus.Qday
import QdayNode.Library.RecordTable

/-!
# The state inside a block

`MidState` collects what the transactions of a block create and spend.  One map sends
an element's ID to a position, whatever the kind of the element; reading a position
that the expected list does not have panics.
-/
namespace QdayNode
open ByteString Outcome

structure SiacoinElementDiff where
  siacoinElement : SiacoinElement
  created : Bool
  spent : Bool
  deriving DecidableEq

structure SiafundElementDiff where
  siafundElement : SiafundElement
  created : Bool
  spent : Bool

structure FileContractElementDiff where
  fileContractElement : FileContractElement
  created : Bool
  revision : Option FileContract
  resolved : Bool
  valid : Bool

structure V2FileContractElementDiff where
  v2FileContractElement : V2FileContractElement
  created : Bool
  revision : Option V2FileContract
  resolution : Option V2FileContractResolutionType

/-- The state element of something created in the block. -/
def StateElement.unassigned : StateElement := ⟨unassignedLeafIndex, []⟩

structure MidState where
  qdayProved : Bool
  base : State
  elements : Hash256 → Option ℕ
  spends : Hash256 → Option TransactionID
  siafundTaxRevenue : Currency
  foundationSubsidy : Address
  foundationManagement : Address
  sces : List SiacoinElementDiff
  sfes : List SiafundElementDiff
  fces : List FileContractElementDiff
  v2fces : List V2FileContractElementDiff
  aes : List AttestationElement

structure V1StorageProofSupplement where
  fileContract : FileContractElement
  windowID : BlockID

structure V1TransactionSupplement where
  siacoinInputs : List SiacoinElement := []
  siafundInputs : List SiafundElement := []
  revisedFileContracts : List FileContractElement := []
  storageProofs : List V1StorageProofSupplement := []

structure V1BlockSupplement where
  transactions : List V1TransactionSupplement := []
  expiringFileContracts : List FileContractElement := []

def newMidState (s : State) : MidState where
  qdayProved := false
  base := s
  elements _ := none
  spends _ := none
  siafundTaxRevenue := s.siafundTaxRevenue
  foundationSubsidy := s.foundationSubsidyAddress
  foundationManagement := s.foundationManagementAddress
  sces := []
  sfes := []
  fces := []
  v2fces := []
  aes := []

namespace MidState

section Records

/-- The siacoin record that the map points to. -/
def record (ms : MidState) (id : SiacoinOutputID) : Option SiacoinElementDiff := RecordTable.find ms.elements ms.sces id

/-- `spends[id] = txid`. -/
def markSpent (ms : MidState) (id : Hash256) (txid : TransactionID) : MidState :=
  { ms with spends := Function.update ms.spends id (some txid) }

def recordSiacoinElement (ms : MidState) (id : SiacoinOutputID) (f : Option SiacoinElementDiff → SiacoinElementDiff) :
    Outcome MidState := do
  let (elements, sces) ← RecordTable.upsert ms.elements id ms.sces fun d => .ok (f d)
  return { ms with elements, sces }

def recordSiafundElement (ms : MidState) (id : Hash256) (f : Option SiafundElementDiff → SiafundElementDiff) :
    Outcome MidState := do
  let (elements, sfes) ← RecordTable.upsert ms.elements id ms.sfes fun d => .ok (f d)
  return { ms with elements, sfes }

def recordFileContractElement (ms : MidState) (id : Hash256)
    (f : Option FileContractElementDiff → FileContractElementDiff) : Outcome MidState := do
  let (elements, fces) ← RecordTable.upsert ms.elements id ms.fces fun d => .ok (f d)
  return { ms with elements, fces }

def recordV2FileContractElement (ms : MidState) (id : Hash256)
    (f : Option V2FileContractElementDiff → Outcome V2FileContractElementDiff) : Outcome MidState := do
  let (elements, v2fces) ← RecordTable.upsert ms.elements id ms.v2fces f
  return { ms with elements, v2fces }

end Records

def createSiacoinElementAt (ms : MidState) (maturityHeight : UInt64) (id : SiacoinOutputID) (sco : SiacoinOutput) :
    Outcome MidState :=
  ms.recordSiacoinElement id fun d =>
    { siacoinElement := ⟨id, StateElement.unassigned, sco, maturityHeight⟩
      created := true
      spent := d.elim false SiacoinElementDiff.spent }

/-- On a QDAY network an output's maturity height is the height it was created at. -/
def createSiacoinElement (ms : MidState) : SiacoinOutputID → SiacoinOutput → Outcome MidState :=
  ms.createSiacoinElementAt ms.base.childHeight

def createImmatureSiacoinElement (ms : MidState) : SiacoinOutputID → SiacoinOutput → Outcome MidState :=
  ms.createSiacoinElementAt ms.base.maturityHeight

/-- The record takes over the element as the transaction presents it. -/
def spendSiacoinElement (ms : MidState) (sce : SiacoinElement) (txid : TransactionID) : Outcome MidState := do
  let ms ← ms.recordSiacoinElement sce.id fun d =>
    { siacoinElement := sce, created := d.elim false SiacoinElementDiff.created, spent := true }
  return ms.markSpent sce.id txid

def createSiafundElement (ms : MidState) (id : Hash256) (sfo : SiafundOutput) : Outcome MidState :=
  ms.recordSiafundElement id fun d =>
    { siafundElement := ⟨id, StateElement.unassigned, sfo, ms.siafundTaxRevenue⟩
      created := true
      spent := d.elim false SiafundElementDiff.spent }

def spendSiafundElement (ms : MidState) (sfe : SiafundElement) (txid : TransactionID) : Outcome MidState := do
  let ms ← ms.recordSiafundElement sfe.id fun d =>
    { siafundElement := sfe, created := d.elim false SiafundElementDiff.created, spent := true }
  return ms.markSpent sfe.id txid

def createFileContractElement (ms : MidState) (id : Hash256) (fc : FileContract) : Outcome MidState := do
  let ms ← ms.recordFileContractElement id fun d =>
    { fileContractElement := ⟨id, StateElement.unassigned, fc⟩
      created := true
      revision := d.bind FileContractElementDiff.revision
      resolved := d.elim false FileContractElementDiff.resolved
      valid := d.elim false FileContractElementDiff.valid }
  let revenue ← ms.siafundTaxRevenue.add (State.fileContractTax fc)
  return { ms with siafundTaxRevenue := revenue }

def reviseFileContractElement (ms : MidState) (fce : FileContractElement) (rev : FileContract) : Outcome MidState :=
  let rev := { rev with payout := fce.fileContract.payout }
  ms.recordFileContractElement fce.id fun d =>
    match d with
    | some d =>
      if d.created then { d with fileContractElement.fileContract := rev }
      else if d.revision.isSome then { d with revision := some rev }
      else { d with fileContractElement := fce, revision := some rev }
    | none => ⟨fce, false, some rev, false, false⟩

def resolveFileContractElement (ms : MidState) (fce : FileContractElement) (valid : Bool) (txid : TransactionID) :
    Outcome MidState := do
  let ms ← ms.recordFileContractElement fce.id fun d =>
    { fileContractElement := fce
      created := d.elim false FileContractElementDiff.created
      revision := d.bind FileContractElementDiff.revision
      resolved := true
      valid := valid }
  return ms.markSpent fce.id txid

def createV2FileContractElement (ms : MidState) (id : Hash256) (fc : V2FileContract) : Outcome MidState := do
  let ms ← ms.recordV2FileContractElement id fun d => .ok
    { v2FileContractElement := ⟨id, StateElement.unassigned, fc⟩
      created := true
      revision := d.bind V2FileContractElementDiff.revision
      resolution := d.bind V2FileContractElementDiff.resolution }
  let tax ← State.v2FileContractTax fc
  let revenue ← ms.siafundTaxRevenue.add tax
  return { ms with siafundTaxRevenue := revenue }

def reviseV2FileContractElement (ms : MidState) (fce : V2FileContractElement) (rev : V2FileContract) :
    Outcome MidState :=
  ms.recordV2FileContractElement fce.id fun d =>
    match d with
    | some d =>
      if d.created then .ok { d with v2FileContractElement.v2FileContract := rev }
      else if d.revision.isSome then .ok { d with revision := some rev }
      else .ok { d with v2FileContractElement := fce, revision := some rev }
    | none => .ok ⟨fce, false, some rev, none⟩

def resolveV2FileContractElement (ms : MidState) (fce : V2FileContractElement) (res : V2FileContractResolutionType)
    (txid : TransactionID) : Outcome MidState := do
  let ms ← ms.recordV2FileContractElement fce.id fun d => do
    crashIf (d.elim false V2FileContractElementDiff.created = true)
      "consensus: resolved a newly-created v2 contract"
    return ⟨fce, false, d.bind V2FileContractElementDiff.revision, some res⟩
  return ms.markSpent fce.id txid

def createAttestationElement (ms : MidState) (id : Hash256) (a : Attestation) : MidState :=
  { ms with
    aes := ms.aes ++ [⟨id, StateElement.unassigned, a⟩]
    elements := Function.update ms.elements id (some ms.aes.length) }

section Lookup

def siacoinElement (ms : MidState) (ts : V1TransactionSupplement) (id : SiacoinOutputID) : Outcome SiacoinElement :=
  match ms.elements id with
  | some i => (ms.sces[i]?).elim (crash "index out of range") fun d => .ok d.siacoinElement
  | none => (ts.siacoinInputs.find? (·.id = id)).elim (crash "missing SiacoinElement") .ok

def siafundElement (ms : MidState) (ts : V1TransactionSupplement) (id : Hash256) : Outcome SiafundElement :=
  match ms.elements id with
  | some i => (ms.sfes[i]?).elim (crash "index out of range") fun d => .ok d.siafundElement
  | none => (ts.siafundInputs.find? (·.id = id)).elim (crash "missing SiafundElement") .ok

def fileContractElement (ms : MidState) (ts : V1TransactionSupplement) (id : Hash256) (missing : String) :
    Outcome FileContractElement :=
  match ms.elements id with
  | some i =>
    (ms.fces[i]?).elim (crash "index out of range") fun d =>
      .ok { d.fileContractElement with fileContract := d.revision.getD d.fileContractElement.fileContract }
  | none =>
    match ts.revisedFileContracts.find? (·.id = id) with
    | some fce => .ok fce
    | none =>
      (ts.storageProofs.find? (·.fileContract.id = id)).elim (crash missing) fun sps => .ok sps.fileContract

end Lookup

end MidState

end QdayNode
