import QdayNode.Types.Transaction

/-!
# The element accumulator

The Merkle forest of `consensus/merkle.go`.  Go's leaves point into the records of
the block being applied and are updated in place; here a leaf carries the number of
the record it belongs to, and every function returns the leaves it changed.
The in-memory `shared` flag of a `StateElement` is not modelled.
-/
namespace QdayNode
open ByteString Word64 MerkleForest Outcome

def shl1 (n : ℕ) : ℕ := if n < 64 then 2^n else 0

def clearBits (x n : ℕ) : ℕ := x / 2^n * 2^n

def proofRoot (c : Crypto) (leafHash : Hash256) (leafIndex : UInt64) (proof : List Hash256) : Hash256 :=
  climb c.sumPair leafIndex.toNat 0 leafHash proof

structure ElementLeaf where
  /-- The record this leaf points into. -/
  ref : ℕ
  stateElement : StateElement
  elementHash : Hash256
  spent : Bool
  deriving DecidableEq

namespace ElementLeaf

def leafIndex (l : ElementLeaf) : ℕ := l.stateElement.leafIndex.toNat

def merkleProof (l : ElementLeaf) : List Hash256 := l.stateElement.merkleProof

def preimage (elementHash : Hash256) (leafIndex : UInt64) (spent : Bool) : Bytes :=
  0 :: (elementHash.val ++ encodeUint64 leafIndex ++ encodeBool spent)

def hash (c : Crypto) (l : ElementLeaf) : Hash256 :=
  c.sum256 (preimage l.elementHash l.stateElement.leafIndex l.spent)

def proofRoot (c : Crypto) (l : ElementLeaf) : Hash256 :=
  QdayNode.proofRoot c (l.hash c) l.stateElement.leafIndex l.merkleProof

def withIndex (l : ElementLeaf) (i : UInt64) : ElementLeaf := { l with stateElement.leafIndex := i }

def withProof (l : ElementLeaf) (p : List Hash256) : ElementLeaf := { l with stateElement.merkleProof := p }

def extend (l : ElementLeaf) (p : List Hash256) : ElementLeaf := l.withProof (l.merkleProof ++ p)

@[simp] theorem withProof_ref (l : ElementLeaf) (p : List Hash256) : (l.withProof p).ref = l.ref := rfl
@[simp] theorem withProof_leafIndex (l : ElementLeaf) (p : List Hash256) :
    (l.withProof p).leafIndex = l.leafIndex := rfl
@[simp] theorem withProof_merkleProof (l : ElementLeaf) (p : List Hash256) : (l.withProof p).merkleProof = p := rfl
@[simp] theorem withProof_hash (c : Crypto) (l : ElementLeaf) (p : List Hash256) :
    (l.withProof p).hash c = l.hash c := rfl
@[simp] theorem withProof_withProof (l : ElementLeaf) (p q : List Hash256) :
    (l.withProof p).withProof q = l.withProof q := rfl
@[simp] theorem withProof_self (l : ElementLeaf) : l.withProof l.merkleProof = l := rfl

end ElementLeaf

structure ElementAccumulator where
  trees : ℕ → Hash256
  numLeaves : UInt64

namespace ElementAccumulator

def hasTreeAtHeight (acc : ElementAccumulator) (height : ℕ) : Bool := acc.numLeaves.toNat.testBit height

def encode (acc : ElementAccumulator) : Bytes :=
  encodeUint64 acc.numLeaves ++
    (List.range 64).flatMap fun i => if acc.hasTreeAtHeight i then (acc.trees i).val else []

def containsLeaf (c : Crypto) (acc : ElementAccumulator) (l : ElementLeaf) : Bool :=
  acc.hasTreeAtHeight l.merkleProof.length && acc.trees l.merkleProof.length = l.proofRoot c

end ElementAccumulator

section AddLeaves

/-- The accumulator, the batch and the recorded growth while leaves are added. -/
structure AddState where
  acc : ElementAccumulator
  leaves : List ElementLeaf
  treeGrowth : ℕ → List Hash256

variable (c : Crypto) (initialLeaves : UInt64) (i : ℕ)

/-- Before two trees of one height are merged, each root is appended to the proofs under the
other tree: the last `2^height` leaves of the batch up to `i` are under the new tree, the
`2^height` before them under the old one. -/
def appendRoots (height : ℕ) (oldRoot h : Hash256) (leaves : List ElementLeaf) : List ElementLeaf :=
  leaves.mapIdx fun j l =>
    if i < j + shl1 height ∧ j ≤ i then l.extend [oldRoot]
    else if i < j + shl1 (height+1) ∧ j ≤ i then l.extend [h]
    else l

/-- The same for the trees that existed before the batch. -/
def recordGrowth (numLeaves : UInt64) (height : ℕ) (oldRoot h : Hash256)
    (treeGrowth : ℕ → List Hash256) : ℕ → List Hash256 := fun bit =>
  let curTreeIndex := numLeaves + 1 - UInt64.ofNat (shl1 height)
  let prevTreeIndex := numLeaves + 1 - UInt64.ofNat (shl1 (height+1))
  let treeStartIndex := UInt64.ofNat (clearBits initialLeaves.toNat (bit+1))
  if ¬ initialLeaves.toNat.testBit bit then treeGrowth bit
  else if treeStartIndex ≥ curTreeIndex then treeGrowth bit ++ [oldRoot]
  else if treeStartIndex ≥ prevTreeIndex then treeGrowth bit ++ [h]
  else treeGrowth bit

/-- The walk up the forest: merge with the tree at each height until one is free. -/
def mergeUp : ℕ → ℕ → Hash256 → AddState → AddState
  | 0, _, _, st => st
  | fuel+1, height, h, st =>
    if ¬ st.acc.hasTreeAtHeight height then
      { st with
        acc := { trees := Function.update st.acc.trees height h, numLeaves := st.acc.numLeaves + 1 } }
    else
      let oldRoot := st.acc.trees height
      mergeUp fuel (height+1) (c.sumPair oldRoot h)
        { st with
          leaves := appendRoots i height oldRoot h st.leaves
          treeGrowth := recordGrowth initialLeaves st.acc.numLeaves height oldRoot h st.treeGrowth }

def addLeaf (st : AddState) : AddState :=
  match st.leaves[i]? with
  | none => st
  | some el =>
    let el := el.withIndex st.acc.numLeaves
    mergeUp c initialLeaves i 64 0 (el.hash c) { st with leaves := st.leaves.set i el }

def addLeavesFrom : ℕ → ℕ → AddState → AddState
  | 0, _, st => st
  | n+1, i, st => addLeavesFrom n (i+1) (addLeaf c initialLeaves i st)

def addLeaves (acc : ElementAccumulator) (leaves : List ElementLeaf) : AddState :=
  addLeavesFrom c acc.numLeaves leaves.length 0 ⟨acc, leaves, fun _ => []⟩

end AddLeaves

section UpdateLeaves

variable (c : Crypto)

/-- `sort.Search` on leaves sorted by index: those below `mid`, and the rest. -/
def splitLeaves (ls : List ElementLeaf) (mid : ℕ) : List ElementLeaf × List ElementLeaf :=
  (ls.takeWhile fun l => l.leafIndex < mid, ls.dropWhile fun l => l.leafIndex < mid)

def firstSibling (ls : List ElementLeaf) (k : ℕ) : Outcome Hash256 :=
  match ls with
  | [] => crash "index out of range"
  | l :: _ =>
    match l.merkleProof[k]? with
    | none => crash "index out of range"
    | some h => .ok h

def setSiblings (ls : List ElementLeaf) (k : ℕ) (h : Hash256) : Outcome (List ElementLeaf) := do
  crashIf (∃ l ∈ ls, l.merkleProof.length ≤ k) "index out of range"
  return ls.map fun l => l.withProof (l.merkleProof.set k h)

/-- One half of `recompute`: the root over `half`, by recursion or from a proof in the other
half, and the other half with that root as its sibling. -/
def recomputeHalf (recurse : List ElementLeaf → Outcome (Hash256 × List ElementLeaf)) (height : ℕ)
    (half other : List ElementLeaf) : Outcome (Hash256 × List ElementLeaf × List ElementLeaf) :=
  if half.isEmpty then do
    let root ← firstSibling other (height - 1)
    return (root, half, other)
  else do
    let (root, half) ← recurse half
    let other ← setSiblings other (height - 1) root
    return (root, half, other)

/-- `recompute(i, j, leaves)`: the root of the subtree over `i, …, j-1`, and the leaves with
their proofs brought up to date below it. -/
def recompute : ℕ → ℕ → ℕ → List ElementLeaf → Outcome (Hash256 × List ElementLeaf)
  | 0, _, _, _ => crash "recursion depth exceeded"
  | fuel+1, i, j, leaves =>
    let height := trailingZeros64 ((j + 2^64 - i) % 2^64)
    if height = 0 then
      match leaves with
      | [] => crash "index out of range"
      | [l] => .ok (l.hash c, [l])
      | _ => crash "consensus: multiple leaves with same accumulator index"
    else do
      let mid := (i + j) % 2^64 / 2
      let (left, right) := splitLeaves leaves mid
      let (leftRoot, left, right) ← recomputeHalf (recompute fuel i mid) height left right
      let (rightRoot, right, left) ← recomputeHalf (recompute fuel mid j) height right left
      return (c.sumPair leftRoot rightRoot, left ++ right)

def leafOrder (l m : ElementLeaf) : Prop :=
  l.merkleProof.length < m.merkleProof.length ∨
    (l.merkleProof.length = m.merkleProof.length ∧ l.leafIndex ≤ m.leafIndex)

instance : DecidableRel leafOrder := fun _ _ => inferInstanceAs (Decidable (_ ∨ _))

def groupAt (leaves : List ElementLeaf) (height : ℕ) : List ElementLeaf :=
  (leaves.insertionSort leafOrder).filter fun l => l.merkleProof.length = height

def updateTree (leaves : List ElementLeaf) (height : ℕ) : Outcome (List ElementLeaf) :=
  match groupAt leaves height with
  | [] => .ok []
  | l :: ls => do
      let start := clearBits l.leafIndex height
      let stop := (start + 2^height) % 2^64
      let (_, group) ← recompute c 65 start stop (l :: ls)
      return group

def updateTrees (leaves : List ElementLeaf) : List ℕ → Outcome (List (List ElementLeaf))
  | [] => .ok []
  | height :: heights => do
      let group ← updateTree c leaves height
      let groups ← updateTrees leaves heights
      return group :: groups

def updateLeaves (leaves : List ElementLeaf) : Outcome (List (List ElementLeaf)) := do
  crashIf (∃ l ∈ leaves, 64 ≤ l.merkleProof.length) "index out of range"
  updateTrees c leaves (List.range 64)

end UpdateLeaves

structure ElementApplyUpdate where
  updated : List (List ElementLeaf)
  treeGrowth : ℕ → List Hash256
  oldNumLeaves : UInt64
  numLeaves : UInt64

structure ElementRevertUpdate where
  updated : List (List ElementLeaf)
  numLeaves : UInt64

section Blocks

variable (c : Crypto)

/-- What `applyBlock` leaves behind: the accumulator, the update and the added leaves. -/
structure AppliedLeaves where
  acc : ElementAccumulator
  eau : ElementApplyUpdate
  added : List ElementLeaf

def replaceRoots (trees : ℕ → Hash256) (groups : List (List ElementLeaf)) : ℕ → Hash256 := fun height =>
  match groups.getD height [] with
  | [] => trees height
  | l :: _ => l.proofRoot c

def ElementAccumulator.applyBlock (acc : ElementAccumulator) (updated added : List ElementLeaf) :
    Outcome AppliedLeaves := do
  let groups ← updateLeaves c updated
  let acc := { acc with trees := replaceRoots c acc.trees groups }
  let st := addLeaves c acc added
  return {
    acc := st.acc
    eau := {
      updated := groups.map fun group => group.map fun e => e.extend (st.treeGrowth e.merkleProof.length)
      treeGrowth := st.treeGrowth
      oldNumLeaves := acc.numLeaves
      numLeaves := st.acc.numLeaves }
    added := st.leaves }

/-- What `revertBlock` leaves behind. -/
structure RevertedLeaves where
  eru : ElementRevertUpdate
  added : List ElementLeaf

def ElementAccumulator.revertBlock (acc : ElementAccumulator) (updated added : List ElementLeaf) :
    Outcome RevertedLeaves := do
  let groups ← updateLeaves c updated
  return {
    eru := { updated := groups, numLeaves := acc.numLeaves }
    added := added.mapIdx fun i l => l.withIndex (acc.numLeaves + UInt64.ofNat i) }

end Blocks

section UpdateProof

variable (c : Crypto)

/-- The first updated leaf with the lowest merge height. -/
def closestLeaf (leafIndex : ℕ) : ElementLeaf → List ElementLeaf → ElementLeaf
  | best, [] => best
  | best, ul :: uls =>
    closestLeaf leafIndex
      (if mergeHeight leafIndex ul.leafIndex < mergeHeight leafIndex best.leafIndex then ul else best) uls

/-- `copy(dst, src)` overwrites as many entries as both slices have. -/
def copySlice {α : Type*} (dst src : List α) : List α := src.take dst.length ++ dst.drop src.length

def updateProof (e : StateElement) (updated : List (List ElementLeaf)) : Outcome StateElement := do
  crashIf (64 ≤ e.merkleProof.length) "index out of range"
  match updated.getD e.merkleProof.length [] with
  | [] => return e
  | l :: ls =>
    let best := closestLeaf e.leafIndex.toNat l ls
    if best.stateElement.leafIndex = e.leafIndex then
      return { e with merkleProof := copySlice e.merkleProof best.merkleProof }
    else do
      let mh := mergeHeight e.leafIndex.toNat best.leafIndex
      crashIf (e.merkleProof.length < mh ∨ best.merkleProof.length < mh) "slice bounds out of range"
      let tail := copySlice (e.merkleProof.drop mh) (best.merkleProof.drop mh)
      let sibling := proofRoot c (best.hash c) best.stateElement.leafIndex (best.merkleProof.take (mh - 1))
      return { e with merkleProof := (e.merkleProof.take mh ++ tail).set (mh - 1) sibling }

def ElementApplyUpdate.updateElementProof (eau : ElementApplyUpdate) (e : StateElement) :
    Outcome StateElement := do
  crashIf (e.leafIndex = unassignedLeafIndex) "cannot update an ephemeral element"
  if e.leafIndex ≥ eau.oldNumLeaves then return e
  else do
    let e ← updateProof c e eau.updated
    if mergeHeight eau.numLeaves.toNat e.leafIndex.toNat ≠ e.merkleProof.length then do
      crashIf (64 ≤ e.merkleProof.length) "index out of range"
      return { e with merkleProof := e.merkleProof ++ eau.treeGrowth e.merkleProof.length }
    else return e

def ElementRevertUpdate.updateElementProof (eru : ElementRevertUpdate) (e : StateElement) :
    Outcome StateElement := do
  crashIf (e.leafIndex = unassignedLeafIndex) "cannot update an ephemeral element"
  crashIf (e.leafIndex ≥ eru.numLeaves)
    "cannot update an element that is not present in the accumulator"
  let mh := mergeHeight eru.numLeaves.toNat e.leafIndex.toNat
  if mh ≤ e.merkleProof.length then
    updateProof c { e with merkleProof := e.merkleProof.take (mh - 1) } eru.updated
  else updateProof c e eru.updated

end UpdateProof

end QdayNode
