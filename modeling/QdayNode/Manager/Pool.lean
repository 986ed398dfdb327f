import QdayNode.Consensus.Multiproof
import QdayNode.Consensus.Validation

/-!
# The transaction pool

The v2 pool of `coreutils/chain/manager.go` and what the manager does to it when a
block is applied or reverted.  A pool transaction spends siacoin elements only, but the
functions are written for every kind of element, as in the source.  The v1 pool stays
empty on a QDAY network and is left out.
-/
namespace QdayNode
open ByteString

structure TxPool where
  v2txns : List V2Transaction
  indices : AList fun _ : TransactionID => ℕ
  ms : Option MidState
  weight : UInt64

def TxPool.empty : TxPool := ⟨[], ∅, none, 0⟩

def txpoolMaxWeight : UInt64 := State.maxBlockWeight * 10

section Elements

variable (c : Crypto)

/-- Updates the elements of a transaction one by one.  An element beyond the accumulator makes the
transaction invalid, and the elements after it are left alone. -/
def updateElements (updateElementProof : StateElement → Outcome StateElement) (numLeaves : UInt64) :
    List StateElement → Outcome (Option (List StateElement))
  | [] => .ok (some [])
  | e :: es =>
    if e.leafIndex = unassignedLeafIndex then do
      let rest ← updateElements updateElementProof numLeaves es
      return rest.map (e :: ·)
    else if e.leafIndex < numLeaves then do
      let e' ← updateElementProof e
      let rest ← updateElements updateElementProof numLeaves es
      return rest.map (e' :: ·)
    else .ok none

def updateTxnProofs (txn : V2Transaction) (updateElementProof : StateElement → Outcome StateElement)
    (numLeaves : UInt64) : Outcome (Option V2Transaction) := do
  let updated ← updateElements updateElementProof numLeaves (((transactionPlaces c).get txn).map Prod.snd)
  return updated.map fun es => (transactionPlaces c).update (fun i e => es.getD i e) 0 txn

def updateAllProofs (updateElementProof : StateElement → Outcome StateElement) (numLeaves : UInt64) :
    List V2Transaction → Outcome (List V2Transaction)
  | [] => .ok []
  | txn :: txns => do
      let txn' ← updateTxnProofs c txn updateElementProof numLeaves
      let rest ← updateAllProofs updateElementProof numLeaves txns
      return txn'.toList ++ rest

def updateQdayEphemeralHeights (txns : List V2Transaction) (height : UInt64) : List V2Transaction :=
  txns.map fun txn => { txn with
    siacoinInputs := txn.siacoinInputs.map fun sci =>
      if sci.parent.stateElement.leafIndex = unassignedLeafIndex then { sci with parent.maturityHeight := height } else sci }

def V2SiacoinInput.replaceElement (f : Hash256 → StateElement → StateElement) (si : V2SiacoinInput) : V2SiacoinInput :=
  { si with parent.stateElement := f si.parent.id si.parent.stateElement }

/-- Replaces the state elements of the parents, looked up by the parents' IDs. -/
def V2Transaction.replaceElements (f : Hash256 → StateElement → StateElement) (txn : V2Transaction) : V2Transaction :=
  { txn with
    siacoinInputs := txn.siacoinInputs.map (V2SiacoinInput.replaceElement f)
    siafundInputs := txn.siafundInputs.map fun si => { si with parent.stateElement := f si.parent.id si.parent.stateElement }
    fileContractRevisions := txn.fileContractRevisions.map fun fcr =>
      { fcr with parent.stateElement := f fcr.parent.id fcr.parent.stateElement }
    fileContractResolutions := txn.fileContractResolutions.map fun fcr =>
      { fcr with parent.stateElement := f fcr.parent.id fcr.parent.stateElement } }

namespace BlockDiffs

def created (d : BlockDiffs) : List (Hash256 × StateElement) :=
  (d.sces.filter SiacoinElementDiff.created).map (fun sced => (sced.siacoinElement.id, sced.siacoinElement.stateElement)) ++
  ((d.sfes.filter SiafundElementDiff.created).map (fun sfed => (sfed.siafundElement.id, sfed.siafundElement.stateElement)) ++
  ((d.fces.filter FileContractElementDiff.created).map
    (fun fced => (fced.fileContractElement.id, fced.fileContractElement.stateElement)) ++
  (d.v2fces.filter V2FileContractElementDiff.created).map
    (fun v2fced => (v2fced.v2FileContractElement.id, v2fced.v2FileContractElement.stateElement))))

end BlockDiffs

def uncreate (created : List (Hash256 × StateElement)) (id : Hash256) (e : StateElement) : StateElement :=
  if e.leafIndex = unassignedLeafIndex then e
  else if id ∈ created.map Prod.fst then StateElement.unassigned
  else e

/-- The element that the block created for an ephemeral one; the last entry of a map wins. -/
def confirm (created : List (Hash256 × StateElement)) (id : Hash256) (e : StateElement) : StateElement :=
  if e.leafIndex ≠ unassignedLeafIndex then e
  else ((created.reverse.find? fun p => p.1 = id).map Prod.snd).getD e

def V2SiacoinInput.confirmAt (created : List (Hash256 × StateElement)) (height : UInt64) (si : V2SiacoinInput) :
    V2SiacoinInput :=
  let si' := si.replaceElement (confirm created)
  if si.parent.stateElement.leafIndex = unassignedLeafIndex ∧ si'.parent.stateElement.leafIndex ≠ unassignedLeafIndex then
    { si' with parent.maturityHeight := height }
  else si'

def V2Transaction.confirmAt (created : List (Hash256 × StateElement)) (height : UInt64) (txn : V2Transaction) :
    V2Transaction :=
  { txn.replaceElements (confirm created) with
    siacoinInputs := txn.siacoinInputs.map (V2SiacoinInput.confirmAt created height) }

def revertPoolUpdate (cru : RevertUpdate) (cs : State) (pool : TxPool) : Outcome TxPool := do
  let v2txns ← updateAllProofs c (cru.updateElementProof c) cs.elements.numLeaves
    (pool.v2txns.map (V2Transaction.replaceElements (uncreate cru.diffs.created)))
  return { pool with v2txns }

def applyPoolUpdate (cau : ApplyUpdate) (cs : State) (pool : TxPool) : Outcome TxPool := do
  let v2txns ← updateAllProofs c (cau.updateElementProof c) cs.elements.numLeaves
    (pool.v2txns.map (V2Transaction.confirmAt cau.diffs.created cs.index.height))
  return { pool with v2txns }

end Elements

section Restore

variable (c : Crypto)

/-- What `restoreQdayPool` has collected. -/
structure Restored where
  txns : List V2Transaction
  weight : UInt64

def Restored.add (r : Restored) (txn : V2Transaction) : Option Restored :=
  if txn.id c ∈ r.txns.map (V2Transaction.id c) ∨ txn.siacoinInputs.length = 0 then some r
  else if v2TransactionWeight txn > txpoolMaxWeight - r.weight then none
  else some ⟨r.txns ++ [txn], r.weight + v2TransactionWeight txn⟩

def Restored.addAll (r : Restored) : List V2Transaction → Restored
  | [] => r
  | txn :: txns =>
    match r.add c txn with
    | none => r
    | some r' => r'.addAll txns

def restoreQdayPool (txns : List V2Transaction) (pool : TxPool) : TxPool :=
  let restored := ((⟨[], 0⟩ : Restored).addAll c txns).addAll c pool.v2txns
  { pool with v2txns := restored.txns, weight := restored.weight, ms := none }

end Restore

section Revalidate

variable (c : Crypto)

/-- A pool transaction with its position and its fee for each unit of weight. -/
structure FeeTxn where
  index : ℕ
  rate : Currency
  weight : UInt64
  txn : V2Transaction

def feeTxns : List V2Transaction → ℕ → Outcome (List FeeTxn)
  | [], _ => .ok []
  | txn :: txns, i => do
      let rate ← txn.minerFee.div64 (v2TransactionWeight txn)
      let rest ← feeTxns txns (i+1)
      return ⟨i, rate, v2TransactionWeight txn, txn⟩ :: rest

/-- Drops from the front until the pool is below three quarters of its limit. -/
def dropCheapest : List FeeTxn → UInt64 → List FeeTxn
  | [], _ => []
  | ft :: fts, weight =>
    if weight ≥ txpoolMaxWeight * 3 / 4 then dropCheapest fts (weight - ft.weight) else ft :: fts

/-- The part of `revalidatePool` that makes room in a full pool, with stable sorts. -/
def evict (pool : TxPool) : Outcome (List V2Transaction) :=
  if pool.weight ≥ txpoolMaxWeight then do
    let fts ← feeTxns pool.v2txns 0
    let kept := dropCheapest (fts.insertionSort fun a b => a.rate.toNat ≤ b.rate.toNat) pool.weight
    return (kept.insertionSort fun a b => a.index ≤ b.index).map FeeTxn.txn
  else .ok pool.v2txns

/-- What `revalidatePool` has put back into the pool. -/
structure Revalidated where
  txns : List V2Transaction
  indices : AList fun _ : TransactionID => ℕ
  ms : MidState
  weight : UInt64

def Revalidated.add (r : Revalidated) (txn : V2Transaction) : Outcome Revalidated :=
  if (r.indices.lookup (txn.id c)).isSome then .ok r
  else do
    match ← Outcome.attempt (validateV2Transaction c r.ms txn) with
    | none => return r
    | some () =>
      let ms ← r.ms.applyV2Transaction c txn
      return ⟨r.txns ++ [txn], r.indices.insert (txn.id c) r.txns.length, ms, r.weight + v2TransactionWeight txn⟩

def revalidatePool (tipState : State) (pool : TxPool) : Outcome TxPool :=
  if pool.ms.isSome ∧ pool.weight < txpoolMaxWeight then .ok pool
  else do
    let v2txns ← evict pool
    let r ← (updateQdayEphemeralHeights v2txns (tipState.index.height + 1)).foldlM (Revalidated.add c)
      ⟨[], ∅, newMidState tipState, 0⟩
    return ⟨r.txns, r.indices, some r.ms, r.weight⟩

end Revalidate

end QdayNode
