import QdayNode.Consensus.Chain

/-!
# The store of the chain manager

`DBStore` of `coreutils/chain/db.go` keeps the encodings of blocks and states under
block IDs, and the index of the best chain.  A time read back has no fraction of a
second; the timestamps and trees that a state has no use for, which its encoding leaves
out, are kept here, since nothing reads them.  The tables of elements, which only
v1 transactions look at, are left out.
-/
namespace QdayNode
open ByteString

section Stored

def Time.truncate (t : Time) : Time := ⟨t.sec, 0⟩

def BlockHeader.stored (bh : BlockHeader) : BlockHeader := { bh with timestamp := bh.timestamp.truncate }

def Block.stored (b : Block) : Block := { b with timestamp := b.timestamp.truncate }

def State.stored (s : State) : State :=
  { s with prevTimestamps := ⟨s.prevTimestamps.val.map Time.truncate, by simp [s.prevTimestamps.property]⟩ }

@[simp] theorem Time.truncate_encode (t : Time) : t.truncate.encode = t.encode := rfl

@[simp] theorem Block.stored_parentID (b : Block) : b.stored.parentID = b.parentID := rfl

@[simp] theorem Block.stored_header (c : Crypto) (b : Block) : b.stored.header c = (b.header c).stored := rfl

@[simp] theorem Block.stored_id (c : Crypto) (b : Block) : b.stored.id c = b.id c := rfl

@[simp] theorem State.stored_index (s : State) : s.stored.index = s.index := rfl

theorem Time.truncate_eq {t : Time} (h : t.WholeSecond) : t.truncate = t := by
  cases t
  cases h
  rfl

theorem Time.wholeSecond_truncate (t : Time) : t.truncate.WholeSecond := rfl

end Stored

namespace State

def maxFutureTimestamp (s : State) (currentTime : Time) : Time :=
  if s.childHeight = 1 ∧ currentTime.before s.network.genesisTimestamp = true then currentTime
  else currentTime.add 10800000000000

def sufficientlyHeavierThan (s t : State) : Outcome Bool := do
  let margin ← t.difficulty.div64 5
  let threshold ← t.totalWork.add margin
  return threshold.lt s.totalWork

end State

/-- `supplementedBlock`; of a pruned block only the header is left. -/
structure StoredBlock where
  header : BlockHeader
  block : Option Block
  supplement : Option V1BlockSupplement

structure Store where
  states : AList fun _ : BlockID => State
  blocks : AList fun _ : BlockID => StoredBlock
  best : AList fun _ : UInt64 => BlockID
  height : UInt64

namespace Store

def state (st : Store) (id : BlockID) : Option State := st.states.lookup id

def stored (st : Store) (id : BlockID) : Option StoredBlock := st.blocks.lookup id

def block (st : Store) (id : BlockID) : Option (Block × Option V1BlockSupplement) :=
  (st.stored id).bind fun sb => sb.block.map fun b => (b, sb.supplement)

def header (st : Store) (id : BlockID) : Option BlockHeader := (st.stored id).map StoredBlock.header

def bestIndex (st : Store) (height : UInt64) : Option ChainIndex := (st.best.lookup height).map fun id => ⟨height, id⟩

def addState (st : Store) (s : State) : Store := { st with states := st.states.insert s.index.id s.stored }

def addBlock (c : Crypto) (st : Store) (b : Block) (bs : Option V1BlockSupplement) : Store :=
  { st with blocks := st.blocks.insert (b.id c) ⟨(b.header c).stored, some b.stored, bs⟩ }

def pruneBlock (c : Crypto) (st : Store) (id : BlockID) : Store :=
  match st.header id with
  | none => st
  | some bh => { st with blocks := st.blocks.insert (bh.id c) ⟨bh, none, none⟩ }

def applyState (st : Store) (next : State) : Store :=
  { st with
    best := st.best.insert next.index.height next.index.id
    height := next.index.height }

def revertState (st : Store) (prev : State) : Store :=
  { st with
    best := st.best.erase (prev.index.height + 1)
    height := prev.index.height }

/-- `DBStore.AncestorTimestamp` with `HardforkOak.Height = 0`; a state that is missing has height 0. -/
def ancestorTimestamp (st : Store) (id : BlockID) : Option Time :=
  if (st.state id).any (fun s => s.index.height > 0) then some default
  else (st.header id).map BlockHeader.timestamp

/-- `DBStore.SupplementTipBlock`.  No contract of the genesis block can expire. -/
def supplementTipBlock (st : Store) (supplementTipTransaction : Transaction → V1TransactionSupplement) (b : Block) :
    V1BlockSupplement :=
  if st.height ≥ Network.v2Height then { transactions := b.transactions.map fun _ => {} }
  else { transactions := b.transactions.map supplementTipTransaction }

def empty : Store := ⟨∅, ∅, ∅, 0⟩

section Lookup

variable {c : Crypto} {st : Store} {s : State} {b : Block} {bs : Option V1BlockSupplement} {id : BlockID}

@[simp] theorem state_addState_self : (st.addState s).state s.index.id = some s.stored := AList.lookup_insert _

theorem state_addState_of_ne (h : id ≠ s.index.id) : (st.addState s).state id = st.state id := AList.lookup_insert_ne h

theorem state_addState (id : BlockID) :
    (st.addState s).state id = if id = s.index.id then some s.stored else st.state id := by
  split_ifs with h
  · rw [h,state_addState_self]
  · exact state_addState_of_ne h

@[simp] theorem stored_addState : (st.addState s).stored = st.stored := rfl

@[simp] theorem stored_addBlock_self :
    (st.addBlock c b bs).stored (b.id c) = some ⟨(b.header c).stored, some b.stored, bs⟩ := AList.lookup_insert _

theorem stored_addBlock_of_ne (h : id ≠ b.id c) : (st.addBlock c b bs).stored id = st.stored id :=
  AList.lookup_insert_ne h

theorem stored_addBlock (id : BlockID) : (st.addBlock c b bs).stored id =
    if id = b.id c then some ⟨(b.header c).stored, some b.stored, bs⟩ else st.stored id := by
  split_ifs with h
  · rw [h,stored_addBlock_self]
  · exact stored_addBlock_of_ne h

@[simp] theorem state_addBlock : (st.addBlock c b bs).state = st.state := rfl

@[simp] theorem state_applyState : (st.applyState s).state = st.state := rfl

@[simp] theorem stored_applyState : (st.applyState s).stored = st.stored := rfl

@[simp] theorem state_revertState : (st.revertState s).state = st.state := rfl

@[simp] theorem stored_revertState : (st.revertState s).stored = st.stored := rfl

@[simp] theorem best_addState : (st.addState s).best = st.best := rfl

@[simp] theorem best_addBlock : (st.addBlock c b bs).best = st.best := rfl

end Lookup

end Store

/-- `NewDBStore` on an empty database: the store with the genesis block, and the tip state. -/
def newDBStore (c : Crypto) (m : QdayManifest) : Outcome (Store × State) := do
  let genesisState ← m.network.genesisState
  let (cs, _) ← m.start c
  let st := (((Store.empty.addState genesisState).addBlock c m.genesis (some { transactions := [{}] })).addState cs).applyState cs
  match st.bestIndex st.height with
  | none => Outcome.crash "missing tip"
  | some index =>
    match st.state index.id with
    | none => Outcome.crash "missing tip state"
    | some tip => .ok (st, tip)

end QdayNode
