import QdayNode.Library.Procedure
import QdayNode.Manager.Pool
import QdayNode.Manager.Store

/-!
# The chain manager

`Manager` of `coreutils/chain/manager.go`: it ingests blocks, follows the heaviest chain
by reverting and applying blocks at its tip, and keeps the transaction pool in step.
A method is a procedure on the manager, so that a reorganization that fails half way
leaves behind what it has done.
-/
namespace QdayNode
open ByteString Procedure Outcome

/-- What a manager is configured with. -/
structure Config where
  crypto : Crypto
  /-- `expiringFileContractOrder`. -/
  order : BlockID → Option (List Hash256)
  /-- `SupplementTipTransaction`, the store's answer to v1 transactions. -/
  supplementTipTransaction : Store → Transaction → V1TransactionSupplement

/-- A block as it was taken in: when, and on which state of its parent. -/
structure Ingestion where
  block : Block
  now : Time
  parent : State

structure Manager where
  store : Store
  tipState : State
  pool : TxPool
  /-- What has been taken in, for the record: no function reads it. -/
  ingested : List Ingestion

def TxPool.push (c : Crypto) (pool : TxPool) (ms : MidState) (txn : V2Transaction) : TxPool where
  v2txns := pool.v2txns ++ [txn]
  indices := pool.indices.insert (txn.id c) pool.v2txns.length
  ms := some ms
  weight := pool.weight + v2TransactionWeight txn

namespace Manager

section Reorg

variable (cfg : Config)

def overwriteExpirations (b : Block) (bs : V1BlockSupplement) : Outcome V1BlockSupplement :=
  match cfg.order (b.id cfg.crypto) with
  | none => .ok bs
  | some order => do
      rejectIf (bs.expiringFileContracts.length ≠ order.length) "expiring file contract order length mismatch"
      -- of two elements with one ID the map keeps the later
      let fces ← order.mapM fun fcID =>
        match bs.expiringFileContracts.reverse.find? (fun fce => fce.id = fcID) with
        | some fce => .ok fce
        | none => fail "missing expiring file contract"
      return { bs with expiringFileContracts := fces }

def blockAndParent (st : Store) (id : BlockID) : Option (Block × Option V1BlockSupplement × State) := do
  let (b, bs) ← st.block id
  let cs ← st.state b.parentID
  return (b, bs, cs)

def revertTip : Procedure Manager Unit := do
  let m ← get
  match blockAndParent m.store m.tipState.index.id with
  | none => throw "missing block at index"
  | some (_, none, _) => must (crash "invalid memory address or nil pointer dereference")
  | some (b, some bs, cs) => do
      let cru ← must (revertBlock cfg.crypto cs b bs)
      let pool ← must (revertPoolUpdate cfg.crypto cru cs m.pool)
      set { m with
        store := m.store.revertState cs
        tipState := cs
        pool := restoreQdayPool cfg.crypto b.v2Transactions pool }

def advanceTip (store : Store) (cs : State) (cau : ApplyUpdate) : Procedure Manager Unit := do
  let m ← get
  let pool ← must (applyPoolUpdate cfg.crypto cau cs m.pool)
  set { m with
    store := store.applyState cs
    tipState := cs
    pool }

def applyTip (index : ChainIndex) : Procedure Manager Unit := do
  let m ← get
  match m.store.block index.id with
  | none => throw "missing block at index"
  | some (b, stored) =>
    if b.parentID ≠ m.tipState.index.id then must (crash "applyTip called with non-attaching block")
    else
      match stored with
      | none => do
          let bs ← call (overwriteExpirations cfg b
            (m.store.supplementTipBlock (cfg.supplementTipTransaction m.store) b))
          call (validateBlock cfg.crypto m.tipState b bs)
          match m.store.ancestorTimestamp b.parentID with
          | none => throw "missing ancestor timestamp for block"
          | some ancestorTimestamp => do
              let (cs, cau) ← must (applyBlock cfg.crypto m.tipState b bs ancestorTimestamp)
              advanceTip cfg ((m.store.addState cs).addBlock cfg.crypto b (some bs)) cs cau
      | some bs =>
        match m.store.ancestorTimestamp b.parentID with
        | none => throw "missing ancestor timestamp for block"
        | some ancestorTimestamp => do
            let bs ← call (overwriteExpirations cfg b bs)
            let (cs, cau) ← must (applyBlock cfg.crypto m.tipState b bs ancestorTimestamp)
            advanceTip cfg m.store cs cau

end Reorg

section Path

variable (st : Store)

/-- The `rewind` of `reorgPath`, after `len` indices have been collected. -/
def rewind (maxLen len : ℕ) (index : ChainIndex) : Outcome ChainIndex := do
  rejectIf (len > maxLen) "reorg path is too long"
  match st.header index.id with
  | none => fail "missing block at index"
  | some bh => .ok ⟨index.height - 1, bh.parentID⟩

/-- Rewinds `n` times; `other` indices have been collected on the other side. -/
def descend (maxLen other : ℕ) : ℕ → ChainIndex → List ChainIndex → Outcome (ChainIndex × List ChainIndex)
  | 0, index, passed => .ok (index, passed)
  | n+1, index, passed => do
      let parent ← rewind st maxLen (passed.length + 1 + other) index
      descend maxLen other n parent (passed ++ [index])

/-- Rewinds both sides until they meet.  The limit on the length ends the loop before the fuel does. -/
def meet (maxLen : ℕ) : ℕ → ChainIndex → ChainIndex → List ChainIndex → List ChainIndex →
    Outcome (List ChainIndex × List ChainIndex)
  | fuel, a, b, revert, apply =>
    if a = b then .ok (revert, apply)
    else
      match fuel with
      | 0 => fail "reorg path is too long"
      | fuel+1 => do
          let len := revert.length + 1 + (apply.length + 1)
          let a' ← rewind st maxLen len a
          let b' ← rewind st maxLen len b
          meet maxLen fuel a' b' (revert ++ [a]) (apply ++ [b])

def reorgPath (a b : ChainIndex) (maxLen : ℕ) : Outcome (List ChainIndex × List ChainIndex) := do
  let (a', revert) ← descend st maxLen 0 (a.height.toNat - b.height.toNat) a []
  let (b', apply) ← descend st maxLen revert.length (b.height.toNat - a.height.toNat) b []
  -- an index that was never set stands for the time before the genesis block
  let (a', apply) := if a' = ⟨0, default⟩ then
      let genesis := (st.bestIndex 0).getD ⟨0, default⟩
      (genesis, apply ++ [genesis])
    else (a', apply)
  let (revert, apply) ← meet st maxLen (maxLen + 1) a' b' revert apply
  return (revert, apply.reverse)

end Path

section Blocks

variable (cfg : Config)

def maxInt : ℕ := 2^63 - 1

def reorgTo (index : ChainIndex) : Procedure Manager Unit := do
  let m ← get
  let (revert, apply) ← call (reorgPath m.store m.tipState.index index maxInt)
  revert.foldlM (fun _ _ => revertTip cfg) ()
  apply.foldlM (fun _ index => applyTip cfg index) ()
  modify fun m => { m with pool.ms := none }

/-- The end of `AddBlocks` and `AddValidatedV2Blocks`: follows the chain of `cs` if it is the best. -/
def followBest (cs : State) : Procedure Manager Unit := do
  let m ← get
  let heavier ← must (cs.sufficientlyHeavierThan m.tipState)
  if heavier then
    tryCatch (reorgTo cfg cs.index) fun _ => do
      reorgTo cfg m.tipState.index
      throw "reorg failed"
  else return ()

/-- The part of the loop of `AddBlocks` that takes a block in on the state of its parent. -/
def ingestOn (cs : State) (now : Time) (b : Block) : Procedure Manager State := do
  let m ← get
  if b.timestamp.after (cs.maxFutureTimestamp now) then throw "block's timestamp is too far in the future"
  else do
    call (validateOrphan cfg.crypto cs b)
    match m.store.ancestorTimestamp b.parentID with
    | none => throw "missing ancestor timestamp for block"
    | some ancestorTimestamp => do
        let next ← must (applyHeader cfg.crypto cs (b.header cfg.crypto) ancestorTimestamp)
        set { m with
          store := (m.store.addState next).addBlock cfg.crypto b none
          ingested := m.ingested ++ [Ingestion.mk b now cs] }
        return next

def ingest (cs : State) (now : Time) (b : Block) : Procedure Manager State := do
  let m ← get
  if ((m.store.block (b.id cfg.crypto)).bind Prod.snd).isSome then
    match m.store.state (b.id cfg.crypto) with
    | some cs => return cs
    -- a block is always stored together with a state
    | none => must (crash "missing state of a known block")
  else if b.parentID = cs.index.id then ingestOn cfg cs now b
  else
    match m.store.state b.parentID with
    | none => throw "missing parent state for block"
    | some cs => ingestOn cfg cs now b

def addBlocks (blocks : List (Time × Block)) : Procedure Manager Unit :=
  if blocks.isEmpty then return () else do
    let m ← get
    let cs ← blocks.foldlM (fun cs p => ingest cfg cs p.1 p.2) m.tipState
    followBest cfg cs

/-- The body of the loop of `AddValidatedV2Blocks`, with the state of the block's parent. -/
def ingestValidated (now : Time) (parent : State) (p : Block × State) : Procedure Manager State := do
  if p.1.v2.isNone then throw "only v2 blocks can be pre-validated" else do
    modify fun m => { m with
      store := (m.store.addBlock cfg.crypto p.1 (some {})).addState p.2
      ingested := m.ingested ++ [⟨p.1, now, parent⟩] }
    return p.2

def addValidatedV2Blocks (now : Time) (blocks : List Block) (states : List State) : Procedure Manager Unit :=
  match blocks with
  | [] => return ()
  | first :: _ =>
    if states.length ≠ blocks.length then throw "chain: expected same number of blocks and states" else do
      let m ← get
      match m.store.state first.parentID with
      | none => throw "missing parent for block"
      | some parent => do
          let cs ← (blocks.zip states).foldlM (ingestValidated cfg now) parent
          followBest cfg cs

def pruneStore (st : Store) : ℕ → Store
  | 0 => st
  | h+1 =>
    match st.bestIndex (UInt64.ofNat h) with
    | none => st
    | some index =>
      match st.block index.id with
      | none => st
      | some _ => pruneStore (st.pruneBlock cfg.crypto index.id) h

def pruneBlocks (height : UInt64) : Procedure Manager Unit :=
  modify fun m => { m with store := pruneStore cfg m.store height.toNat }

end Blocks

section PoolMethods

variable (cfg : Config)

/-- An ephemeral input of `checkEphemeralOutputs`, after outputs `sces` have been created. -/
def checkEphemeralInput (sces : List (SiacoinOutputID × SiacoinOutput)) (sci : V2SiacoinInput) : Outcome Unit :=
  if sci.parent.stateElement.leafIndex ≠ unassignedLeafIndex then .ok ()
  else
    match sces.reverse.find? fun p => p.1 = sci.parent.id with
    | none => fail "siacoin input claims unknown ephemeral output"
    | some sco => rejectIf (sci.parent.siacoinOutput ≠ sco.2)
        "siacoin input claims incorrect value for ephemeral output"

def checkEphemeralOutputs : List V2Transaction → List (SiacoinOutputID × SiacoinOutput) → Outcome Unit
  | [], _ => .ok ()
  | txn :: txns, sces => do
      txn.siacoinInputs.forM (checkEphemeralInput sces)
      rejectIf (∃ sfi ∈ txn.siafundInputs, sfi.parent.stateElement.leafIndex = unassignedLeafIndex)
        "siafund input spends ephemeral output"
      checkEphemeralOutputs txns
        (sces ++ txn.siacoinOutputs.mapIdx fun i sco => (siacoinOutputID cfg.crypto (txn.id cfg.crypto) i, sco))

def checkFileContractRevisions (txns : List V2Transaction) : Outcome Unit :=
  txns.forM fun txn => do
    rejectIf (∃ fcr ∈ txn.fileContractRevisions,
      fcr.revision.hostOutput.value.lt fcr.revision.missedHostValue = true) "missed host value exceeds host value"
    rejectIf (∃ fcr ∈ txn.fileContractResolutions, (match fcr.resolution with
      | .expiration => fcr.parent.v2FileContract.hostOutput.value.lt fcr.parent.v2FileContract.missedHostValue
      | _ => false) = true) "resolution expires a contract with missed host value exceeding host value"

/-- `checkTxnSet` without v1 transactions: whether all are in the pool, if the set is valid on its own. -/
def checkTxnSet (m : Manager) (v2txns : List V2Transaction) : Outcome Bool := do
  checkEphemeralOutputs cfg v2txns []
  checkFileContractRevisions v2txns
  let _ ← v2txns.foldlM (fun ms txn => do
    validateV2Transaction cfg.crypto ms txn
    ms.applyV2Transaction cfg.crypto txn) (newMidState m.tipState)
  return v2txns.all fun txn => (m.pool.indices.lookup (txn.id cfg.crypto)).isSome

def validateTransactionElements (acc : ElementAccumulator) (txn : V2Transaction) : Outcome Unit :=
  rejectIf (∃ l ∈ forEachElementLeaf cfg.crypto [txn], acc.containsLeaf cfg.crypto l = false)
    "parent has invalid Merkle proof"

/-- A block on the path with its supplement and the state of its parent. -/
def pathBlock (st : Store) (index : ChainIndex) : Outcome (Block × V1BlockSupplement × State) :=
  match blockAndParent st index.id with
  | none => fail "missing block at index"
  | some (_, none, _) => fail "missing block supplement at index"
  | some (b, some bs, cs) => do
      let bs ← overwriteExpirations cfg b bs
      return (b, bs, cs)

/-- Updates all transactions of a set, none of which may become invalid. -/
def updateSetProofs (updateElementProof : StateElement → Outcome StateElement) (numLeaves : UInt64)
    (txns : List V2Transaction) : Outcome (List V2Transaction) :=
  txns.mapM fun txn => do
    match ← updateTxnProofs cfg.crypto txn updateElementProof numLeaves with
    | some txn => .ok txn
    | none => fail "transaction references element that does not exist in our chain"

def revertSet (st : Store) (txns : List V2Transaction) (index : ChainIndex) : Outcome (List V2Transaction) := do
  let (b, bs, cs) ← pathBlock cfg st index
  let cru ← revertBlock cfg.crypto cs b bs
  updateSetProofs cfg (cru.updateElementProof cfg.crypto) cs.elements.numLeaves txns

def applySet (st : Store) (txns : List V2Transaction) (index : ChainIndex) : Outcome (List V2Transaction) := do
  let (b, bs, cs) ← pathBlock cfg st index
  let (cs, cau) ← applyBlock cfg.crypto cs b bs ((st.ancestorTimestamp b.parentID).getD default)
  let confirmed := b.v2Transactions.map (V2Transaction.id cfg.crypto)
  let created := { cau.diffs with fces := [], v2fces := [] }.created
  let remaining := (txns.filter fun txn => txn.id cfg.crypto ∉ confirmed).map fun txn =>
    { txn with
      siacoinInputs := txn.siacoinInputs.map (V2SiacoinInput.confirmAt created cs.index.height)
      siafundInputs := txn.siafundInputs.map fun si =>
        { si with parent.stateElement := confirm created si.parent.id si.parent.stateElement } }
  updateSetProofs cfg (cau.updateElementProof cfg.crypto) cs.elements.numLeaves remaining

def updateV2TransactionProofs (st : Store) (txns : List V2Transaction) (source target : ChainIndex) :
    Outcome (List V2Transaction) :=
  match st.state source.id with
  | none => fail "couldn't find state for basis"
  | some basisState => do
      txns.forM (validateTransactionElements cfg basisState.elements)
      let (revert, apply) ← reorgPath st source target 144
      let txns ← revert.foldlM (revertSet cfg st) txns
      let txns ← apply.foldlM (applySet cfg st) txns
      return if source ≠ target then updateQdayEphemeralHeights txns (target.height + 1) else txns

def revalidate : Procedure Manager Unit := do
  let m ← get
  let pool ← must (revalidatePool cfg.crypto m.tipState m.pool)
  set { m with pool }

def v2PoolTransactions : Procedure Manager (List V2Transaction) := do
  revalidate cfg
  let m ← get
  return m.pool.v2txns

/-- `PoolTransaction` and `V2PoolTransaction`: one map has the positions in both slices. -/
def lookupPool {α : Type} (slice : TxPool → List α) (id : TransactionID) : Procedure Manager (Option α) := do
  revalidate cfg
  let m ← get
  match m.pool.indices.lookup id with
  | none => return none
  | some i =>
    match (slice m.pool)[i]? with
    | some txn => return some txn
    | none => must (crash "index out of range")

/-- The v1 pool is empty. -/
def poolTransaction : TransactionID → Procedure Manager (Option Transaction) := lookupPool cfg fun _ => []

def v2PoolTransaction : TransactionID → Procedure Manager (Option V2Transaction) := lookupPool cfg TxPool.v2txns

/-- The body of the loop of `AddV2PoolTransactions`; `start` is the pool before the set. -/
def addTxn (start : TxPool) (txn : V2Transaction) : Procedure Manager Unit := do
  let m ← get
  if (m.pool.indices.lookup (txn.id cfg.crypto)).isSome then return ()
  else
    match m.pool.ms with
    | none => must (crash "invalid memory address or nil pointer dereference")
    | some ms => do
        match ← must (attempt (validateV2Transaction cfg.crypto ms txn)) with
        | none => do
            -- the set conflicts with the pool and is taken back as a whole
            let added := m.pool.v2txns.drop start.v2txns.length
            set { m with pool := {
              v2txns := m.pool.v2txns.take start.v2txns.length
              indices := added.foldl (fun indices txn => indices.erase (V2Transaction.id cfg.crypto txn)) m.pool.indices
              ms := none
              weight := start.weight } }
            throw "transaction conflicts with pool"
        | some () => do
            let ms ← must (ms.applyV2Transaction cfg.crypto txn)
            set { m with pool := m.pool.push cfg.crypto ms txn }

def addV2PoolTransactions (basis : ChainIndex) (txns : List V2Transaction) : Procedure Manager Bool := do
  revalidate cfg
  let m ← get
  if txns ≠ [] ∧ ∀ txn ∈ txns, (m.pool.indices.lookup (txn.id cfg.crypto)).isSome then return true
  else do
    let txns ← call (updateV2TransactionProofs cfg m.store txns basis m.tipState.index)
    if ← call (checkTxnSet cfg m txns) then return true
    else do
      txns.foldlM (fun _ txn => addTxn cfg m.pool txn) ()
      return false

end PoolMethods

end Manager

def newManager (c : Crypto) (m : QdayManifest) : Outcome Manager := do
  let (store, tipState) ← newDBStore c m
  return ⟨store, tipState, TxPool.empty, []⟩

end QdayNode
