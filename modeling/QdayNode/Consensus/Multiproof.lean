import QdayNode.Library.Places
import QdayNode.Types.Decoding
import QdayNode.Consensus.Membership
import QdayNode.Consensus.Application

/-!
# Multiproofs

`types/multiproof.go` writes a list of transactions without their Merkle proofs,
then a number of leaves and the nodes that the proofs do not share.  All three
recursions of the file walk the trees of the accumulator in the same order: with
the positions of the elements given, what is emitted, counted and consumed is the
same list of missing nodes of each tree.
-/
namespace QdayNode
open ByteString Decoder Word64 MerkleForest
open Outcome hiding fail

variable {h i j a b n k fuel : ℕ} {leaves' ls : List ElementLeaf} {l : ElementLeaf} {txns : List V2Transaction}

section Elements

variable (c : Crypto)

def siacoinInputPlaces : Places V2SiacoinInput Hash256 StateElement :=
  Places.field (fun sci => (siacoinLeaf c 0 sci.parent false).elementHash) (fun sci => sci.parent.stateElement)
    (fun sci se => { sci with parent.stateElement := se }) (fun _ _ => rfl) (fun _ _ => rfl) (fun _ _ _ => rfl)
    (fun _ => rfl)

def siafundInputPlaces : Places V2SiafundInput Hash256 StateElement :=
  Places.field (fun sfi => (siafundLeaf c 0 sfi.parent false).elementHash) (fun sfi => sfi.parent.stateElement)
    (fun sfi se => { sfi with parent.stateElement := se }) (fun _ _ => rfl) (fun _ _ => rfl) (fun _ _ _ => rfl)
    (fun _ => rfl)

def contractPlaces : Places V2FileContractElement Hash256 StateElement :=
  Places.field (fun fce => (v2FileContractLeaf c 0 fce none false).elementHash) (fun fce => fce.stateElement)
    (fun fce se => { fce with stateElement := se }) (fun _ _ => rfl) (fun _ _ => rfl) (fun _ _ _ => rfl) (fun _ => rfl)

def revisionPlaces : Places V2FileContractRevision Hash256 StateElement :=
  (contractPlaces c).within (fun fcr => fcr.parent) (fun fcr fce => { fcr with parent := fce })
    (fun _ _ => rfl) (fun _ _ _ => rfl) (fun _ => rfl)

/-- A storage proof points at the block it was made for; the other resolutions hold no element. -/
def resolutionTypePlaces : Places V2FileContractResolutionType Hash256 StateElement where
  get
    | .storageProof sp => [((chainIndexLeaf c 0 sp.proofIndex).elementHash, sp.proofIndex.stateElement)]
    | _ => []
  update f s
    | .storageProof sp => .storageProof { sp with proofIndex.stateElement := f s sp.proofIndex.stateElement }
    | .renewal r => .renewal r
    | .expiration => .expiration
  get_update f s x := by cases x <;> rfl
  update_update f g s x := by cases x <;> rfl
  update_kept f s x h := by
    cases x with
    | storageProof sp =>
      have hsame := h 0 _ rfl
      rw [Nat.add_zero] at hsame
      simp only [hsame]
    | renewal r => rfl
    | expiration => rfl

def resolutionPlaces : Places V2FileContractResolution Hash256 StateElement :=
  ((contractPlaces c).prod (resolutionTypePlaces c)).within (fun fcr => (fcr.parent, fcr.resolution))
    (fun _ p => ⟨p.1, p.2⟩) (fun _ _ => rfl) (fun _ _ _ => rfl) (fun _ => rfl)

def transactionPlaces : Places V2Transaction Hash256 StateElement :=
  ((siacoinInputPlaces c).list.prod ((siafundInputPlaces c).list.prod
    ((revisionPlaces c).list.prod (resolutionPlaces c).list))).within
    (fun txn => (txn.siacoinInputs, txn.siafundInputs, txn.fileContractRevisions, txn.fileContractResolutions))
    (fun txn p =>
      { txn with
        siacoinInputs := p.1
        siafundInputs := p.2.1
        fileContractRevisions := p.2.2.1
        fileContractResolutions := p.2.2.2 })
    (fun _ _ => rfl) (fun _ _ _ => rfl) (fun _ => rfl)

def elementPlaces : Places (List V2Transaction) Hash256 StateElement := (transactionPlaces c).list

/-- `forEachElementLeaf`: the elements that are in the accumulator, each with the number of its place. -/
def forEachElementLeaf (txns : List V2Transaction) : List ElementLeaf :=
  (((elementPlaces c).get txns).mapIdx fun i p => (⟨i, p.2, p.1, false⟩ : ElementLeaf)).filter fun l =>
    l.stateElement.leafIndex ≠ unassignedLeafIndex

def mapElements (g : StateElement → StateElement) (txns : List V2Transaction) : List V2Transaction :=
  (elementPlaces c).update (fun _ se => if se.leafIndex = unassignedLeafIndex then se else g se) 0 txns

end Elements

section Trees

def treeLeaves (leaves : List ElementLeaf) (height : ℕ) : List ElementLeaf :=
  (leaves.filter fun l => l.merkleProof.length = height).insertionSort fun l m => l.leafIndex ≤ m.leafIndex

/-- `forEachTree`: runs `fn` on the range and the leaves of each tree that has any. -/
def forEachTree {σ : Type} (leaves : List ElementLeaf) (fn : ℕ → ℕ → List ElementLeaf → σ → Outcome σ) (st : σ) :
    Outcome σ := do
  crashIf (∃ l ∈ leaves, 64 ≤ l.merkleProof.length) "index out of range"
  (List.range 64).foldlM (fun st height =>
    match treeLeaves leaves height with
    | [] => .ok st
    | l :: ls =>
      let start := clearBits l.leafIndex (height+1)
      fn start ((start + 2^height) % 2^64) (l :: ls) st) st

def proofSize : ℕ → ℕ → ℕ → List ElementLeaf → Outcome ℕ
  | 0, _, _, _ => crash "recursion depth exceeded"
  | fuel+1, i, j, leaves =>
    let height := trailingZeros64 ((j + 2^64 - i) % 2^64)
    if leaves.isEmpty then .ok 1
    else if height = 0 then .ok 0
    else do
      let mid := (i + j) % 2^64 / 2
      let (left, right) := splitLeaves leaves mid
      let l ← proofSize fuel i mid left
      let r ← proofSize fuel mid j right
      return l + r

/-- One half of the recursion of `computeMultiproof`: a half without leaves is emitted as a
sibling of the other half. -/
def computeHalf (recurse : List ElementLeaf → Outcome (List Hash256)) (height : ℕ) (half other : List ElementLeaf) :
    Outcome (List Hash256) :=
  if half.isEmpty then do
    let h ← firstSibling other (height - 1)
    return [h]
  else recurse half

def computeVisit : ℕ → ℕ → ℕ → List ElementLeaf → Outcome (List Hash256)
  | 0, _, _, _ => crash "recursion depth exceeded"
  | fuel+1, i, j, leaves =>
    let height := trailingZeros64 ((j + 2^64 - i) % 2^64)
    if height = 0 then .ok []
    else do
      let mid := (i + j) % 2^64 / 2
      let (left, right) := splitLeaves leaves mid
      let l ← computeHalf (computeVisit fuel i mid) height left right
      let r ← computeHalf (computeVisit fuel mid j) height right left
      return l ++ r

/-- The recursion of `expandMultiproof`: the root of the subtree, its leaves with their proofs
written up to it, and the hashes that were not used. -/
def expandVisit (c : Crypto) :
    ℕ → ℕ → ℕ → List ElementLeaf → List Hash256 → Outcome (Hash256 × List ElementLeaf × List Hash256)
  | 0, _, _, _, _ => crash "recursion depth exceeded"
  | fuel+1, i, j, leaves, proof =>
    let height := trailingZeros64 ((j + 2^64 - i) % 2^64)
    match leaves with
    | [] =>
      match proof with
      | [] => crash "index out of range"
      | h :: proof => .ok (h, [], proof)
    | first :: _ =>
      if height = 0 then .ok (first.hash c, leaves, proof)
      else do
        let mid := (i + j) % 2^64 / 2
        let (left, right) := splitLeaves leaves mid
        let (leftRoot, left, proof) ← expandVisit c fuel i mid left proof
        let (rightRoot, right, proof) ← expandVisit c fuel mid j right proof
        let right ← setSiblings right (height - 1) leftRoot
        let left ← setSiblings left (height - 1) rightRoot
        return (c.sumPair leftRoot rightRoot, left ++ right, proof)

end Trees

section Codec

variable (c : Crypto)

def multiproofSize (txns : List V2Transaction) : Outcome ℕ :=
  forEachTree (forEachElementLeaf c txns) (fun i j leaves size => do
    let n ← proofSize 65 i j leaves
    return size + n) 0

def computeMultiproof (txns : List V2Transaction) : Outcome (List Hash256) :=
  forEachTree (forEachElementLeaf c txns) (fun i j leaves proof => do
    let hashes ← computeVisit 65 i j leaves
    return proof ++ hashes) []

def expandMultiproof (txns : List V2Transaction) (proof : List Hash256) : Outcome (List V2Transaction) := do
  let (_, written) ← forEachTree (forEachElementLeaf c txns) (fun i j leaves (st : List Hash256 × List ElementLeaf) => do
    let (_, leaves, proof) ← expandVisit c 65 i j leaves st.1
    return (proof, st.2 ++ leaves)) (proof, [])
  return (elementPlaces c).update (BlockDiffs.readBack written) 0 txns

/-- The number of leaves that the encoder infers from the positions and proof lengths. -/
def inferLeaves (leaves : List ElementLeaf) : ℕ :=
  leaves.foldl (fun numLeaves l =>
    numLeaves ||| (clearBits l.leafIndex l.merkleProof.length ||| shl1 l.merkleProof.length)) 0

/-- The transactions as they are written, without proofs of elements in the accumulator. -/
def prooflessTxns (txns : List V2Transaction) : List V2Transaction :=
  mapElements c (fun se => { se with merkleProof := [] }) txns

def encodeMultiproof (txns : List V2Transaction) : Outcome Bytes := do
  let multiproof ← computeMultiproof c txns
  return encodeList V2Transaction.encode (prooflessTxns c txns) ++
    (encodeUint64 (UInt64.ofNat (inferLeaves (forEachElementLeaf c txns))) ++ multiproof.flatMap Subtype.val)

/-- The decoder's room for the proofs: every element gets as many zero hashes as its tree has rows. -/
def sizeProofs (numLeaves : UInt64) (txns : List V2Transaction) : List V2Transaction :=
  mapElements c (fun se =>
    { se with merkleProof := List.replicate (mergeHeight se.leafIndex.toNat numLeaves.toNat - 1) default }) txns

def decodeMultiproof : Decoder (List V2Transaction) := do
  let txns ← readList V2Transaction.decode
  let numLeaves ← readUint64
  if ∃ l ∈ forEachElementLeaf c txns, numLeaves ≤ l.stateElement.leafIndex then Decoder.fail "invalid leaf index"
  else
    let txns := sizeProofs c numLeaves txns
    let size ← call (multiproofSize c txns)
    let multiproof ← readCount (readFixed 32) size
    call (expandMultiproof c txns multiproof)

end Codec

section Ranges

/-- A range of positions whose width is an odd multiple of `2^h`, as the recursions over a tree
meet them, also where the sum of the bounds wraps. -/
structure AlignedRange (h a b : ℕ) : Prop where
  height : h < 64
  odd : (a + b) % 2 = 1
  start_lt : a * 2^h < 2^64
  stop_lt : b * 2^h < 2^64

theorem two_pow_64_eq (hh : h < 64) : ∃ m, 2^64 = 2 * m * 2^h := by
  refine ⟨2^(63-h),?_⟩
  rw [← pow_succ',← pow_add]
  congr 1
  omega

theorem AlignedRange.trailingZeros (v : AlignedRange h a b) :
    trailingZeros64 ((b * 2^h + 2^64 - a * 2^h) % 2^64) = h := by
  obtain ⟨m,hm⟩ := two_pow_64_eq v.height
  have hpos := Nat.two_pow_pos h
  have ha : a < 2 * m := by
    have := v.start_lt
    rw [hm] at this
    exact Nat.lt_of_mul_lt_mul_right this
  have hdiff : (b * 2^h + 2^64 - a * 2^h) % 2^64 = (b + 2 * m - a) % (2 * m) * 2^h := by
    rw [hm,← Nat.add_mul,← Nat.sub_mul,Nat.mul_mod_mul_right]
  have hodd := v.odd
  rw [hdiff]
  refine trailingZeros64_eq v.height (Nat.dvd_mul_left _ _) ?_
  rw [Nat.mul_div_cancel _ hpos,Nat.mod_mod_of_dvd _ (Nat.dvd_mul_right 2 m)]
  omega

theorem AlignedRange.mid (v : AlignedRange (h+1) a b) :
    ∃ m, (a * 2^(h+1) + b * 2^(h+1)) % 2^64 / 2 = m * 2^h ∧ AlignedRange h (2*a) m ∧ AlignedRange h m (2*b) := by
  obtain ⟨m,hm⟩ := two_pow_64_eq v.height
  have hodd := v.odd
  have hh := v.height
  have hmid : (a * 2^(h+1) + b * 2^(h+1)) % 2^64 / 2 = (a + b) % (2 * m) * 2^h := by
    rw [hm,← Nat.add_mul,Nat.mul_mod_mul_right,pow_succ,← Nat.mul_assoc,Nat.mul_div_cancel _ (by omega)]
  have hmidOdd : (a + b) % (2 * m) % 2 = 1 := by rw [Nat.mod_mod_of_dvd _ (Nat.dvd_mul_right 2 m),hodd]
  have hmidLt : (a + b) % (2 * m) * 2^h < 2^64 := by
    rw [← hmid]
    have := Nat.mod_lt (a * 2^(h+1) + b * 2^(h+1)) (Nat.two_pow_pos 64)
    omega
  have hstart : 2*a * 2^h = a * 2^(h+1) := by ring
  have hstop : 2*b * 2^h = b * 2^(h+1) := by ring
  exact ⟨_,hmid,⟨by omega,by omega,by rw [hstart]; exact v.start_lt,hmidLt⟩,
    ⟨by omega,by omega,hmidLt,by rw [hstop]; exact v.stop_lt⟩⟩

/-- A range between multiples of `2^h`, an odd number of them apart. -/
def SpansRows (h i j : ℕ) : Prop := ∃ a b, i = a * 2^h ∧ j = b * 2^h ∧ AlignedRange h a b

theorem SpansRows.trailingZeros (v : SpansRows h i j) : trailingZeros64 ((j + 2^64 - i) % 2^64) = h := by
  obtain ⟨a,b,rfl,rfl,v⟩ := v
  exact v.trailingZeros

theorem SpansRows.halves (v : SpansRows (h+1) i j) :
    SpansRows h i ((i + j) % 2^64 / 2) ∧ SpansRows h ((i + j) % 2^64 / 2) j := by
  obtain ⟨a,b,rfl,rfl,v⟩ := v
  obtain ⟨m,hmid,vL,vR⟩ := v.mid
  exact ⟨⟨2*a,m,by ring,hmid,vL⟩,⟨m,2*b,hmid,by ring,vR⟩⟩

theorem spansRows_tree (hn : n < 2^64) (hodd : n / 2^k % 2 = 1) :
    SpansRows k ((n / 2^k - 1) * 2^k) (n / 2^k * 2^k) := by
  have hstop : n / 2^k * 2^k ≤ n := Nat.div_mul_le_self n (2^k)
  generalize n / 2^k = col at hodd hstop ⊢
  have hstart : (col - 1) * 2^k ≤ col * 2^k := Nat.mul_le_mul_right _ (Nat.sub_le col 1)
  have hk : k < 64 := by
    have hpow : 2^k ≤ col * 2^k := Nat.le_mul_of_pos_left _ (by omega)
    exact (Nat.pow_lt_pow_iff_right (by omega : 1 < 2)).mp (hpow.trans_lt (hstop.trans_lt hn))
  exact ⟨_,_,rfl,rfl,hk,by omega,by omega,by omega⟩

end Ranges

section ProofsFit

variable {c : Crypto}

/-- The proofs of the leaves in a range of height `h` agree with one another and with the
root, as far as the recursions over the range look at them. -/
def ProofsFit (c : Crypto) : ℕ → ℕ → ℕ → List ElementLeaf → Hash256 → Prop
  | 0, _, _, leaves, root => ∀ l ∈ leaves, l.hash c = root
  | h+1, i, j, leaves, root =>
    let mid := (i + j) % 2^64 / 2
    ∃ leftRoot rightRoot, (leaves ≠ [] → root = c.sumPair leftRoot rightRoot) ∧
      ProofsFit c h i mid (leaves.filter (·.leafIndex < mid)) leftRoot ∧
      ProofsFit c h mid j (leaves.filter (mid ≤ ·.leafIndex)) rightRoot ∧
      ∀ l ∈ leaves, l.merkleProof[h]? = some (if l.leafIndex < mid then rightRoot else leftRoot)

/-- The leaf shows the same as some leaf of the list, on the rows below `h`. -/
def ShownBelow (c : Crypto) (h : ℕ) (leaves : List ElementLeaf) (l' : ElementLeaf) : Prop :=
  ∃ l ∈ leaves, l'.leafIndex = l.leafIndex ∧ l'.hash c = l.hash c ∧ ∀ r < h, l'.merkleProof[r]? = l.merkleProof[r]?

theorem ShownBelow.filter {leaves : List ElementLeaf} {l' : ElementLeaf} {p : ℕ → Bool}
    (hshown : ShownBelow c (h+1) leaves l') (hp : p l'.leafIndex = true) :
    ShownBelow c h (leaves.filter fun l => p l.leafIndex) l' := by
  obtain ⟨l,hl,hindex,hhash,hrows⟩ := hshown
  refine ⟨l,List.mem_filter.mpr ⟨hl,?_⟩,hindex,hhash,fun r hr => hrows r (by omega)⟩
  rwa [hindex] at hp

theorem ProofsFit.mono {leaves : List ElementLeaf} {root : Hash256}
    (hfit : ProofsFit c h i j leaves root) (hshown : ∀ l' ∈ leaves', ShownBelow c h leaves l') :
    ProofsFit c h i j leaves' root := by
  induction h generalizing i j leaves leaves' root with
  | zero =>
    intro l' hl'
    obtain ⟨l,hl,-,hhash,-⟩ := hshown l' hl'
    rw [hhash]
    exact hfit l hl
  | succ h ih =>
    obtain ⟨leftRoot,rightRoot,hroot,hL,hR,hrow⟩ := hfit
    refine ⟨leftRoot,rightRoot,fun hne => ?_,ih hL fun l' hl' => ?_,ih hR fun l' hl' => ?_,fun l' hl' => ?_⟩
    · obtain ⟨l',hl'⟩ := List.exists_mem_of_ne_nil _ hne
      obtain ⟨l,hl,-⟩ := hshown l' hl'
      exact hroot (List.ne_nil_of_mem hl)
    · obtain ⟨hmem,hside⟩ := List.mem_filter.mp hl'
      exact (hshown l' hmem).filter (p := fun x => decide (x < (i + j) % 2^64 / 2)) hside
    · obtain ⟨hmem,hside⟩ := List.mem_filter.mp hl'
      exact (hshown l' hmem).filter (p := fun x => decide ((i + j) % 2^64 / 2 ≤ x)) hside
    · obtain ⟨l,hl,hindex,-,hrows⟩ := hshown l' hl'
      rw [hrows h (Nat.lt_succ_self h),hindex]
      exact hrow l hl

theorem proofsFit_nil (h i j : ℕ) (root : Hash256) : ProofsFit c h i j [] root := by
  induction h generalizing i j root with
  | zero => exact fun l hl => absurd hl List.not_mem_nil
  | succ h ih =>
    exact ⟨default,default,fun hne => absurd rfl hne,ih i _ default,ih _ j default,
      fun l hl => absurd hl List.not_mem_nil⟩

/-- The leaf with the rows of its proof from `h` on still to be written. -/
def ElementLeaf.upTo (h : ℕ) (l : ElementLeaf) : ElementLeaf :=
  l.withProof (l.merkleProof.take h ++ List.replicate (l.merkleProof.length - h) default)

@[simp] theorem ElementLeaf.upTo_leafIndex (h : ℕ) (l : ElementLeaf) : (l.upTo h).leafIndex = l.leafIndex := rfl

@[simp] theorem ElementLeaf.upTo_hash (h : ℕ) (l : ElementLeaf) : (l.upTo h).hash c = l.hash c := rfl

@[simp] theorem ElementLeaf.length_upTo (h : ℕ) (l : ElementLeaf) :
    (l.upTo h).merkleProof.length = l.merkleProof.length := by
  simp only [ElementLeaf.upTo,ElementLeaf.withProof_merkleProof,List.length_append,List.length_take,
    List.length_replicate]
  omega

theorem ElementLeaf.upTo_length (l : ElementLeaf) : l.upTo l.merkleProof.length = l := by
  simp [ElementLeaf.upTo]

theorem ElementLeaf.setSibling_upTo {root : Hash256} (hrow : l.merkleProof[h]? = some root) :
    setSibling h root (l.upTo h) = l.upTo (h+1) := by
  obtain ⟨hlt,hget⟩ := List.getElem?_eq_some_iff.mp hrow
  obtain ⟨m,hm⟩ := Nat.exists_eq_add_of_lt hlt
  have hleft : l.merkleProof.length - h = m + 1 := by omega
  have hright : l.merkleProof.length - (h+1) = m := by omega
  have hlen : (l.merkleProof.take h).length = h := List.length_take_of_le hlt.le
  unfold setSibling ElementLeaf.upTo
  rw [ElementLeaf.withProof_merkleProof,ElementLeaf.withProof_withProof,hleft,hright,List.replicate_succ,
    List.set_append_right _ _ hlen.le,hlen,Nat.sub_self,List.set_cons_zero,List.take_succ_eq_append_getElem hlt,hget,
    List.append_assoc,List.singleton_append]

theorem setSiblings_eq (root : Hash256) (hlen : ∀ l ∈ ls, h < l.merkleProof.length) :
    setSiblings ls h root = .ok (ls.map (setSibling h root)) := by
  have hno : ¬ ∃ l ∈ ls, l.merkleProof.length ≤ h := by
    rintro ⟨l,hl,hle⟩
    have := hlen l hl
    omega
  simp only [setSiblings,crashIf,hno,if_false]
  rfl

theorem setSiblings_upTo {root : Hash256}
    (hrow : ∀ l ∈ ls, l.merkleProof[h]? = some root) :
    setSiblings (ls.map (ElementLeaf.upTo h)) h root = .ok (ls.map (ElementLeaf.upTo (h+1))) := by
  rw [setSiblings_eq root (List.forall_mem_map.mpr fun l hl => ?_),List.map_map]
  · exact congrArg Except.ok (List.map_congr_left fun l hl => ElementLeaf.setSibling_upTo (hrow l hl))
  · rw [ElementLeaf.length_upTo]
    exact (List.getElem?_eq_some_iff.mp (hrow l hl)).1

abbrev SortedLeaves (leaves : List ElementLeaf) : Prop := leaves.Pairwise fun l m => l.leafIndex ≤ m.leafIndex

/-- What the three recursions do on a range of height `h`: the hashes that are emitted are as many
as are counted, and reading them completes the proofs up to row `h`. -/
structure Recovers (c : Crypto) (fuel h i j : ℕ) (leaves : List ElementLeaf) (root : Hash256) (hashes : List Hash256) :
    Prop where
  size : proofSize fuel i j (leaves.map (ElementLeaf.upTo 0)) = .ok hashes.length
  expand : ∀ rest, expandVisit c fuel i j (leaves.map (ElementLeaf.upTo 0)) (hashes ++ rest) =
    .ok (root, leaves.map (ElementLeaf.upTo h), rest)

theorem computeHalf_recovers {half other : List ElementLeaf} {root : Hash256}
    {recurse : List ElementLeaf → Outcome (List Hash256)} (hfuel : 0 < fuel) (hne : half = [] → other ≠ [])
    (hrow : ∀ l ∈ other, l.merkleProof[h]? = some root)
    (hrec : half ≠ [] → ∃ hashes, recurse half = .ok hashes ∧ Recovers c fuel h i j half root hashes) :
    ∃ hashes, computeHalf recurse (h+1) half other = .ok hashes ∧ Recovers c fuel h i j half root hashes := by
  by_cases hempty : half = []
  · obtain ⟨l,ls,rfl⟩ := List.exists_cons_of_ne_nil (hne hempty)
    obtain ⟨fuel,rfl⟩ := Nat.exists_eq_succ_of_ne_zero hfuel.ne'
    have hfirst := hrow l List.mem_cons_self
    subst hempty
    refine ⟨[root],by simp [computeHalf,firstSibling,hfirst],?_,fun rest => ?_⟩
    · simp [proofSize]
    · simp [expandVisit]
  · rw [computeHalf,if_neg (by simpa using hempty)]
    exact hrec hempty

theorem ProofsFit.recovers {leaves : List ElementLeaf} {root : Hash256} (hfuel : h < fuel)
    (v : SpansRows h i j) (hsorted : SortedLeaves leaves) (hne : leaves ≠ []) (hfit : ProofsFit c h i j leaves root) :
    ∃ hashes, computeVisit fuel i j leaves = .ok hashes ∧ Recovers c fuel h i j leaves root hashes := by
  induction fuel generalizing h i j leaves root with
  | zero => omega
  | succ fuel ih =>
    have hblank : (leaves.map (ElementLeaf.upTo 0)).isEmpty = false := by simpa using hne
    cases h with
    | zero =>
      obtain ⟨l,ls,rfl⟩ := List.exists_cons_of_ne_nil hne
      refine ⟨[],by simp only [computeVisit,v.trailingZeros,if_true],?_,fun rest => ?_⟩
      · simp only [proofSize,v.trailingZeros,hblank,Bool.false_eq_true,if_true,if_false,List.length_nil]
      · simp only [expandVisit,List.map_cons,v.trailingZeros,if_true,ElementLeaf.upTo_hash,
          hfit l List.mem_cons_self,List.nil_append]
    | succ h =>
      obtain ⟨vL,vR⟩ := v.halves
      obtain ⟨leftRoot,rightRoot,hroot,hfitL,hfitR,hrow⟩ := hfit
      set mid := (i + j) % 2^64 / 2 with hmid
      have hsplit := splitLeaves_eq_filter mid hsorted
      have happend := splitLeaves_append leaves mid
      have hsplitBlank : splitLeaves (leaves.map (ElementLeaf.upTo 0)) mid =
          ((leaves.filter (·.leafIndex < mid)).map (ElementLeaf.upTo 0),
            (leaves.filter (mid ≤ ·.leafIndex)).map (ElementLeaf.upTo 0)) := by
        have hblankSorted : SortedLeaves (leaves.map (ElementLeaf.upTo 0)) := List.pairwise_map.mpr hsorted
        rw [splitLeaves_eq_filter mid hblankSorted,List.filter_map,List.filter_map]
        rfl
      have hrowL : ∀ l ∈ leaves.filter (·.leafIndex < mid), l.merkleProof[h]? = some rightRoot := by
        intro l hl
        obtain ⟨hmem,hside⟩ := List.mem_filter.mp hl
        rw [hrow l hmem,if_pos (of_decide_eq_true hside)]
      have hrowR : ∀ l ∈ leaves.filter (mid ≤ ·.leafIndex), l.merkleProof[h]? = some leftRoot := by
        intro l hl
        obtain ⟨hmem,hside⟩ := List.mem_filter.mp hl
        rw [hrow l hmem,if_neg (not_lt.mpr (of_decide_eq_true hside))]
      rw [hsplit] at happend
      dsimp only at happend
      set left := leaves.filter (·.leafIndex < mid) with hleft
      set right := leaves.filter (mid ≤ ·.leafIndex) with hright
      have hboth : ¬ (left = [] ∧ right = []) := fun hnil => hne (by rw [← happend,hnil.1,hnil.2,List.nil_append])
      obtain ⟨hashesL,hcomputeL,hsizeL,hexpandL⟩ := computeHalf_recovers (by omega)
        (fun hL hR => hboth ⟨hL,hR⟩) hrowR fun hL => ih (by omega) vL (hsorted.filter _) hL hfitL
      obtain ⟨hashesR,hcomputeR,hsizeR,hexpandR⟩ := computeHalf_recovers (by omega)
        (fun hR hL => hboth ⟨hL,hR⟩) hrowL fun hR => ih (by omega) vR (hsorted.filter _) hR hfitR
      refine ⟨hashesL ++ hashesR,?_,?_,fun rest => ?_⟩
      · simp only [computeVisit,v.trailingZeros,Nat.succ_ne_zero,if_false,← hmid,hsplit,hcomputeL,hcomputeR,
          ok_bind]
        rfl
      · simp only [proofSize,v.trailingZeros,hblank,Bool.false_eq_true,Nat.succ_ne_zero,if_false,← hmid,
          hsplitBlank,hsizeL,hsizeR,ok_bind,List.length_append]
        rfl
      · obtain ⟨first,others,hcons⟩ := List.exists_cons_of_ne_nil (l := leaves.map (ElementLeaf.upTo 0))
          (by simpa using hne)
        simp only [expandVisit,hcons,v.trailingZeros,Nat.succ_ne_zero,if_false,← hmid]
        rw [← hcons,hsplitBlank,List.append_assoc]
        simp only [hexpandL,hexpandR,ok_bind,Nat.add_sub_cancel,setSiblings_upTo hrowL,
          setSiblings_upTo hrowR,← List.map_append,happend,hroot hne]
        rfl

end ProofsFit

section Forest

variable {c : Crypto} {leaves : List ElementLeaf}

/-- Leaves of a forest of `n` leaves, with proofs as long as their trees are high. -/
structure InForest (n : ℕ) (leaves : List ElementLeaf) : Prop where
  bound : n < 2^64
  inTree : ∀ l ∈ leaves, InTree n l.merkleProof.length l.leafIndex

theorem mem_treeLeaves :
    l ∈ treeLeaves leaves k ↔ l ∈ leaves ∧ l.merkleProof.length = k := by
  simp [treeLeaves,List.mem_filter]

instance : Std.Total fun l m : ElementLeaf => l.leafIndex ≤ m.leafIndex := ⟨fun l m => by omega⟩

instance : IsTrans ElementLeaf fun l m => l.leafIndex ≤ m.leafIndex := ⟨fun l m o => by omega⟩

theorem sorted_treeLeaves (leaves : List ElementLeaf) (k : ℕ) : SortedLeaves (treeLeaves leaves k) :=
  List.pairwise_insertionSort _ _

theorem treeLeaves_map {g : ElementLeaf → ElementLeaf} (hindex : ∀ l, (g l).leafIndex = l.leafIndex)
    (hlen : ∀ l, (g l).merkleProof.length = l.merkleProof.length) (leaves : List ElementLeaf) (k : ℕ) :
    treeLeaves (leaves.map g) k = (treeLeaves leaves k).map g := by
  have hsort := List.map_insertionSort (fun l m : ElementLeaf => l.leafIndex ≤ m.leafIndex)
    (fun l m : ElementLeaf => l.leafIndex ≤ m.leafIndex) g (leaves.filter fun l => l.merkleProof.length = k)
    fun l _ m _ => by rw [hindex,hindex]
  rw [treeLeaves,List.filter_map,treeLeaves,hsort]
  simp only [Function.comp_def,hlen]

theorem InForest.inTree_treeLeaves (v : InForest n leaves) (hl : l ∈ treeLeaves leaves k) :
    InTree n k l.leafIndex := by
  obtain ⟨hmem,rfl⟩ := mem_treeLeaves.mp hl
  exact v.inTree l hmem

theorem InForest.height_lt (v : InForest n leaves) (hl : l ∈ leaves) : l.merkleProof.length < 64 :=
  (v.inTree l hl).height_lt v.bound

theorem InForest.spansRows (v : InForest n leaves) (hne : treeLeaves leaves k ≠ []) :
    SpansRows k ((n / 2^k - 1) * 2^k) (n / 2^k * 2^k) := by
  obtain ⟨l,hl⟩ := List.exists_mem_of_ne_nil _ hne
  exact spansRows_tree v.bound (v.inTree_treeLeaves hl).1

theorem InForest.forEachTree_eq {σ : Type} (v : InForest n leaves) (fn : ℕ → ℕ → List ElementLeaf → σ → Outcome σ)
    (st : σ) : forEachTree leaves fn st = (List.range 64).foldlM (fun st k =>
      if treeLeaves leaves k = [] then .ok st
      else fn ((n / 2^k - 1) * 2^k) (n / 2^k * 2^k) (treeLeaves leaves k) st) st := by
  have hno : ¬ ∃ l ∈ leaves, 64 ≤ l.merkleProof.length := by
    rintro ⟨l,hl,hle⟩
    have := v.height_lt hl
    omega
  rw [forEachTree,crashIf,if_neg hno,ok_bind]
  congr 1
  funext st k
  cases hgroup : treeLeaves leaves k with
  | nil => rfl
  | cons l ls =>
    have hin := v.inTree_treeLeaves (hgroup ▸ List.mem_cons_self : l ∈ treeLeaves leaves k)
    obtain ⟨hodd,hcol⟩ := hin
    have hpos : 0 < n / 2^k := Nat.pos_of_ne_zero fun hzero => by simp [hzero] at hodd
    have hstop : n / 2^k * 2^k < 2^64 := (Nat.div_mul_le_self n (2^k)).trans_lt v.bound
    -- the column is even, so clearing one bit more changes nothing
    have hstart : clearBits l.leafIndex (k+1) = (n / 2^k - 1) * 2^k := by
      rw [clearBits,div_two_pow_succ,pow_succ,← Nat.mul_assoc,Nat.mul_right_comm]
      congr 1
      omega
    have hwidth : (n / 2^k - 1) * 2^k + 2^k = n / 2^k * 2^k := by
      rw [← Nat.succ_mul,Nat.succ_eq_add_one,Nat.sub_add_cancel hpos]
    rw [if_neg (List.cons_ne_nil l ls)]
    simp only [hstart,hwidth,Nat.mod_eq_of_lt hstop]

/-- Leaves of a forest whose proofs fit together in each tree. -/
structure Consistent (c : Crypto) (n : ℕ) (leaves : List ElementLeaf) : Prop extends InForest n leaves where
  fit : ∀ k, ∃ root, ProofsFit c k ((n / 2^k - 1) * 2^k) (n / 2^k * 2^k) (treeLeaves leaves k) root

theorem Consistent.mono (v : Consistent c n leaves)
    (hsame : ∀ l' ∈ leaves', ∃ l ∈ leaves, l'.leafIndex = l.leafIndex ∧ l'.hash c = l.hash c ∧
      l'.merkleProof = l.merkleProof) : Consistent c n leaves' where
  bound := v.bound
  inTree l' hl' := by
    obtain ⟨l,hl,hindex,-,hproof⟩ := hsame l' hl'
    rw [hindex,hproof]
    exact v.inTree l hl
  fit k := by
    obtain ⟨root,hfit⟩ := v.fit k
    refine ⟨root,hfit.mono fun l' hl' => ?_⟩
    obtain ⟨hmem,hlen⟩ := mem_treeLeaves.mp hl'
    obtain ⟨l,hl,hindex,hhash,hproof⟩ := hsame l' hmem
    refine ⟨l,mem_treeLeaves.mpr ⟨hl,by rw [← hproof,hlen]⟩,hindex,hhash,fun r _ => ?_⟩
    rw [hproof]

/-- The hashes of the multiproof, tree by tree. -/
structure TreeHashes (c : Crypto) (n : ℕ) (leaves : List ElementLeaf) (hashes : ℕ → List Hash256) : Prop where
  none : ∀ k, treeLeaves leaves k = [] → hashes k = []
  compute : ∀ k, treeLeaves leaves k ≠ [] →
    computeVisit 65 ((n / 2^k - 1) * 2^k) (n / 2^k * 2^k) (treeLeaves leaves k) = .ok (hashes k)
  recovers : ∀ k, treeLeaves leaves k ≠ [] →
    ∃ root, Recovers c 65 k ((n / 2^k - 1) * 2^k) (n / 2^k * 2^k) (treeLeaves leaves k) root (hashes k)

theorem Consistent.treeHashes (v : Consistent c n leaves) : ∃ hashes, TreeHashes c n leaves hashes := by
  have heach : ∀ k, ∃ hashes : List Hash256, (treeLeaves leaves k = [] → hashes = []) ∧ (treeLeaves leaves k ≠ [] →
      computeVisit 65 ((n / 2^k - 1) * 2^k) (n / 2^k * 2^k) (treeLeaves leaves k) = .ok hashes ∧
      ∃ root, Recovers c 65 k ((n / 2^k - 1) * 2^k) (n / 2^k * 2^k) (treeLeaves leaves k) root hashes) := by
    intro k
    by_cases hne : treeLeaves leaves k = []
    · exact ⟨[],fun _ => rfl,fun h => absurd hne h⟩
    · obtain ⟨root,hfit⟩ := v.fit k
      have hspans := v.spansRows hne
      have hk : k < 65 := by
        obtain ⟨_,_,-,-,haligned⟩ := hspans
        exact haligned.height.trans (by decide)
      obtain ⟨hashes,hcompute,hrecovers⟩ := hfit.recovers hk hspans (sorted_treeLeaves leaves k) hne
      exact ⟨hashes,fun h => absurd h hne,fun _ => ⟨hcompute,root,hrecovers⟩⟩
  choose hashes hnone hsome using heach
  exact ⟨hashes,hnone,fun k hne => (hsome k hne).1,fun k hne => (hsome k hne).2⟩

variable {hashes : ℕ → List Hash256}

theorem TreeHashes.compute_eq (t : TreeHashes c n leaves hashes) (v : InForest n leaves) :
    forEachTree leaves (fun i j leaves proof => do
      let hashes ← computeVisit 65 i j leaves
      return proof ++ hashes) [] = .ok ((List.range 64).flatMap hashes) := by
  rw [v.forEachTree_eq]
  obtain ⟨proof,hrun,rfl⟩ := foldlM_induct
    (P := fun pre (proof : List Hash256) => proof = pre.flatMap hashes) (l := List.range 64)
    (f := fun proof k => if treeLeaves leaves k = [] then .ok proof else do
      let hashes ← computeVisit 65 ((n / 2^k - 1) * 2^k) (n / 2^k * 2^k) (treeLeaves leaves k)
      return proof ++ hashes) (fun pre k post proof _ hpre => by
      refine ⟨proof ++ hashes k,?_,by rw [hpre,List.flatMap_append,List.flatMap_singleton]⟩
      by_cases hne : treeLeaves leaves k = []
      · rw [if_pos hne,t.none k hne,List.append_nil]
      · rw [if_neg hne,t.compute k hne]
        rfl) rfl
  exact hrun

theorem treeLeaves_upTo (leaves : List ElementLeaf) (k : ℕ) :
    treeLeaves (leaves.map (ElementLeaf.upTo 0)) k = (treeLeaves leaves k).map (ElementLeaf.upTo 0) :=
  treeLeaves_map (ElementLeaf.upTo_leafIndex 0) (ElementLeaf.length_upTo 0) leaves k

theorem InForest.upTo (v : InForest n leaves) : InForest n (leaves.map (ElementLeaf.upTo 0)) where
  bound := v.bound
  inTree := List.forall_mem_map.mpr fun l hl => by
    rw [ElementLeaf.length_upTo]
    exact v.inTree l hl

theorem TreeHashes.size_eq (t : TreeHashes c n leaves hashes) (v : InForest n leaves) :
    forEachTree (leaves.map (ElementLeaf.upTo 0)) (fun i j leaves size => do
      let m ← proofSize 65 i j leaves
      return size + m) 0 = .ok ((List.range 64).flatMap hashes).length := by
  rw [v.upTo.forEachTree_eq]
  obtain ⟨size,hrun,rfl⟩ := foldlM_induct
    (P := fun pre size => size = (pre.flatMap hashes).length) (l := List.range 64)
    (f := fun size k => if treeLeaves (leaves.map (ElementLeaf.upTo 0)) k = [] then .ok size else do
      let m ← proofSize 65 ((n / 2^k - 1) * 2^k) (n / 2^k * 2^k) (treeLeaves (leaves.map (ElementLeaf.upTo 0)) k)
      return size + m) (fun pre k post size _ hpre => by
      refine ⟨size + (hashes k).length,?_,by rw [hpre,List.flatMap_append,List.flatMap_singleton,List.length_append]⟩
      rw [treeLeaves_upTo]
      by_cases hne : treeLeaves leaves k = []
      · rw [if_pos (List.map_eq_nil_iff.mpr hne),t.none k hne,List.length_nil,Nat.add_zero]
      · obtain ⟨root,hrecovers⟩ := t.recovers k hne
        rw [if_neg (mt List.map_eq_nil_iff.mp hne),hrecovers.size]
        rfl) rfl
  exact hrun

/-- The expansion consumes the hashes and completes the proof of every leaf. -/
theorem TreeHashes.expand_eq (t : TreeHashes c n leaves hashes) (v : InForest n leaves) :
    ∃ written, forEachTree (leaves.map (ElementLeaf.upTo 0)) (fun i j leaves (st : List Hash256 × List ElementLeaf) => do
        let (_, leaves, proof) ← expandVisit c 65 i j leaves st.1
        return (proof, st.2 ++ leaves)) ((List.range 64).flatMap hashes, []) = .ok ([], written) ∧
      ∀ l, l ∈ written ↔ l ∈ leaves := by
  rw [v.upTo.forEachTree_eq]
  obtain ⟨⟨proof,written⟩,hrun,hproof,hwritten⟩ := foldlM_induct
    (P := fun pre (st : List Hash256 × List ElementLeaf) =>
      pre.flatMap hashes ++ st.1 = (List.range 64).flatMap hashes ∧ st.2 = pre.flatMap (treeLeaves leaves))
    (l := List.range 64)
    (f := fun (st : List Hash256 × List ElementLeaf) k =>
      if treeLeaves (leaves.map (ElementLeaf.upTo 0)) k = [] then .ok st else do
      let (_, leaves, proof) ← expandVisit c 65 ((n / 2^k - 1) * 2^k) (n / 2^k * 2^k)
        (treeLeaves (leaves.map (ElementLeaf.upTo 0)) k) st.1
      return (proof, st.2 ++ leaves)) (s := ((List.range 64).flatMap hashes, []))
    (fun pre k post st hrange hpre => by
      obtain ⟨proof,written⟩ := st
      obtain ⟨hproof,hwritten⟩ := hpre
      dsimp only at hproof hwritten
      have hrest : proof = hashes k ++ post.flatMap hashes := by
        rwa [hrange,List.flatMap_append,List.append_cancel_left_eq,List.flatMap_cons] at hproof
      have hdone : (treeLeaves leaves k).map (ElementLeaf.upTo k) = treeLeaves leaves k := by
        refine (List.map_congr_left fun l hl => ?_).trans (List.map_id _)
        obtain ⟨-,rfl⟩ := mem_treeLeaves.mp hl
        exact l.upTo_length
      refine ⟨(post.flatMap hashes, written ++ treeLeaves leaves k),?_,?_,?_⟩
      · rw [treeLeaves_upTo]
        by_cases hne : treeLeaves leaves k = []
        · rw [if_pos (List.map_eq_nil_iff.mpr hne),hrest,t.none k hne,hne,List.nil_append,List.append_nil]
        · obtain ⟨root,hrecovers⟩ := t.recovers k hne
          simp only [if_neg (mt List.map_eq_nil_iff.mp hne),hrest,hrecovers.expand,hdone,ok_bind]
          rfl
      · rw [hrange,List.flatMap_append,List.flatMap_append,List.flatMap_singleton,List.flatMap_cons,List.append_assoc]
      · rw [hwritten,List.flatMap_append,List.flatMap_singleton])
    ⟨List.nil_append _,rfl⟩
  have hdone : proof = [] := List.append_right_eq_self.mp hproof
  subst hdone
  refine ⟨written,hrun,fun l => ?_⟩
  dsimp only at hwritten
  rw [hwritten]
  simp only [List.mem_flatMap,List.mem_range,mem_treeLeaves]
  constructor
  · rintro ⟨k,-,hl,-⟩
    exact hl
  · intro hl
    exact ⟨l.merkleProof.length,v.height_lt hl,hl,rfl⟩

end Forest

section InferredLeaves

variable {leaves : List ElementLeaf}

theorem testBit_foldl_or (g : ElementLeaf → ℕ) (leaves : List ElementLeaf) (a j : ℕ) :
    (leaves.foldl (fun m l => m ||| g l) a).testBit j = (a.testBit j || leaves.any fun l => (g l).testBit j) := by
  induction leaves generalizing a with
  | nil => simp
  | cons l ls ih => rw [List.foldl_cons,ih,Nat.testBit_or,List.any_cons,Bool.or_assoc]

theorem InTree.shown (h : InTree n k i) (hk : k < 64) (j : ℕ) :
    (clearBits i k ||| shl1 k).testBit j = (decide (k ≤ j) && n.testBit j) := by
  have hsum : clearBits i k ||| shl1 k = n / 2^k * 2^k := by
    have hshift : i / 2^k * 2^k = 2^(k+1) * (i / 2^k / 2) := by
      have heven : 2 * (i / 2^k / 2) = i / 2^k := by
        have := h.1
        have := h.2
        omega
      rw [pow_succ,Nat.mul_assoc,heven,Nat.mul_comm]
    rw [clearBits,shl1,if_pos hk,hshift,← Nat.two_pow_add_eq_or_of_lt (Nat.pow_lt_pow_right (by omega) (by omega)),
      ← hshift,← h.2,Nat.add_mul,Nat.one_mul]
  rw [hsum,Nat.testBit_mul_two_pow]
  by_cases hj : k ≤ j
  · rw [Nat.testBit_div_two_pow,Nat.sub_add_cancel hj]
  · simp [hj]

theorem InForest.testBit_inferLeaves (v : InForest n leaves) (j : ℕ) :
    (inferLeaves leaves).testBit j = true ↔ (∃ l ∈ leaves, l.merkleProof.length ≤ j) ∧ n.testBit j = true := by
  rw [inferLeaves,testBit_foldl_or,Nat.zero_testBit,Bool.false_or,List.any_eq_true]
  constructor
  · rintro ⟨l,hl,hbit⟩
    rw [InTree.shown (v.inTree l hl) (v.height_lt hl),Bool.and_eq_true,decide_eq_true_iff] at hbit
    exact ⟨⟨l,hl,hbit.1⟩,hbit.2⟩
  · rintro ⟨⟨l,hl,hle⟩,hbit⟩
    refine ⟨l,hl,?_⟩
    rw [InTree.shown (v.inTree l hl) (v.height_lt hl),hbit,Bool.and_true,decide_eq_true_iff]
    exact hle

theorem InForest.inferLeaves_lt (v : InForest n leaves) : inferLeaves leaves < 2^64 := by
  refine Nat.lt_pow_two_of_testBit _ fun j hj => ?_
  rw [← Bool.not_eq_true]
  intro hbit
  have hhigh := Nat.testBit_lt_two_pow (v.bound.trans_le (Nat.pow_le_pow_right (by omega) hj))
  rw [((v.testBit_inferLeaves j).mp hbit).2] at hhigh
  cases hhigh

theorem InForest.inTree_inferLeaves (v : InForest n leaves) (hl : l ∈ leaves) :
    InTree (inferLeaves leaves) l.merkleProof.length l.leafIndex := by
  have hsame : inferLeaves leaves / 2^l.merkleProof.length = n / 2^l.merkleProof.length := by
    apply Nat.eq_of_testBit_eq
    intro j
    rw [Nat.testBit_div_two_pow,Nat.testBit_div_two_pow,Bool.eq_iff_iff,v.testBit_inferLeaves]
    exact ⟨fun h => h.2,fun h => ⟨⟨l,hl,by omega⟩,h⟩⟩
  obtain ⟨hodd,hcol⟩ := v.inTree l hl
  exact ⟨by rw [hsame,hodd],by rw [hsame,hcol]⟩

end InferredLeaves

section RoundTrip

variable {c : Crypto}

theorem mem_forEachElementLeaf :
    l ∈ forEachElementLeaf c txns ↔ ∃ p, ((elementPlaces c).get txns)[l.ref]? = some p ∧ l = ⟨l.ref, p.2, p.1, false⟩ ∧
      p.2.leafIndex ≠ unassignedLeafIndex := by
  simp only [forEachElementLeaf,List.mem_filter,List.mem_mapIdx,decide_eq_true_iff]
  constructor
  · rintro ⟨⟨i,hi,rfl⟩,hassigned⟩
    exact ⟨_,List.getElem?_eq_getElem hi,rfl,hassigned⟩
  · rintro ⟨p,hp,hl,hassigned⟩
    obtain ⟨hi,rfl⟩ := List.getElem?_eq_some_iff.mp hp
    exact ⟨⟨l.ref,hi,hl.symm⟩,by rw [hl]; exact hassigned⟩

theorem forEachElementLeaf_mapElements {g : StateElement → StateElement} (hindex : ∀ se, (g se).leafIndex = se.leafIndex)
    (txns : List V2Transaction) :
    forEachElementLeaf c (mapElements c g txns) =
      (forEachElementLeaf c txns).map fun l => { l with stateElement := g l.stateElement } := by
  set g' : StateElement → StateElement := fun se => if se.leafIndex = unassignedLeafIndex then se else g se with hg'
  set G : ElementLeaf → ElementLeaf := fun l => { l with stateElement := g' l.stateElement } with hG
  have hindex' : ∀ se, (g' se).leafIndex = se.leafIndex := fun se => by
    simp only [hg']
    split_ifs with h
    · rfl
    · exact hindex se
  have hwrite : ((elementPlaces c).get (mapElements c g txns)).mapIdx
      (fun i p => (⟨i,p.2,p.1,false⟩ : ElementLeaf)) =
      (((elementPlaces c).get txns).mapIdx fun i p => (⟨i,p.2,p.1,false⟩ : ElementLeaf)).map G := by
    rw [mapElements,(elementPlaces c).get_update,Places.rewrite]
    apply List.ext_getElem?
    intro i
    simp only [List.getElem?_mapIdx,List.getElem?_map,Option.map_map]
    rfl
  rw [forEachElementLeaf,hwrite,List.filter_map,forEachElementLeaf]
  have hfilter : ((fun l : ElementLeaf => decide (l.stateElement.leafIndex ≠ unassignedLeafIndex)) ∘ G) =
      fun l => decide (l.stateElement.leafIndex ≠ unassignedLeafIndex) := by
    funext l
    simp only [Function.comp_apply,hG,hindex']
  rw [hfilter]
  refine List.map_congr_left fun l hl => ?_
  have hassigned : l.stateElement.leafIndex ≠ unassignedLeafIndex := by simpa using List.of_mem_filter hl
  simp only [hG,hg',if_neg hassigned]

theorem leaves_prooflessTxns (txns : List V2Transaction) :
    forEachElementLeaf c (prooflessTxns c txns) = (forEachElementLeaf c txns).map fun l => l.withProof [] := by
  apply forEachElementLeaf_mapElements
  intro se
  rfl

theorem leaves_sizeProofs (numLeaves : UInt64) (txns : List V2Transaction) :
    forEachElementLeaf c (sizeProofs c numLeaves txns) = (forEachElementLeaf c txns).map fun l =>
      l.withProof (List.replicate (mergeHeight l.leafIndex numLeaves.toNat - 1) default) := by
  apply forEachElementLeaf_mapElements
  intro se
  rfl

theorem InForest.sizeProofs_leaves (v : InForest n (forEachElementLeaf c txns)) :
    forEachElementLeaf c (sizeProofs c (UInt64.ofNat (inferLeaves (forEachElementLeaf c txns))) (prooflessTxns c txns)) =
      (forEachElementLeaf c txns).map (ElementLeaf.upTo 0) := by
  rw [leaves_sizeProofs,leaves_prooflessTxns,List.map_map,toNat_ofNat_of_lt v.inferLeaves_lt]
  refine List.map_congr_left fun l hl => ?_
  have hheight := (v.inTree_inferLeaves hl).mergeHeight
  rw [mergeHeight_comm] at hheight
  rw [Function.comp_apply,ElementLeaf.withProof_leafIndex,hheight]
  rfl

variable {written : List ElementLeaf} {se : StateElement}

theorem readBack_of_forall {se' : StateElement}
    (hex : ∃ l ∈ written, l.ref = i) (hall : ∀ l ∈ written, l.ref = i → l.stateElement = se') :
    BlockDiffs.readBack written i se = se' := by
  cases hfind : written.find? (·.ref = i) with
  | none =>
    obtain ⟨l,hl,href⟩ := hex
    have := List.find?_eq_none.mp hfind l hl
    simp [href] at this
  | some l =>
    have href : l.ref = i := by simpa using List.find?_some hfind
    rw [BlockDiffs.readBack,hfind]
    exact hall l (List.mem_of_find?_eq_some hfind) href

theorem readBack_of_not_mem (hno : ∀ l ∈ written, l.ref ≠ i) :
    BlockDiffs.readBack written i se = se := by
  have hfind : written.find? (·.ref = i) = none := List.find?_eq_none.mpr (by simpa using hno)
  rw [BlockDiffs.readBack,hfind]
  rfl

theorem TreeHashes.expand_restores {hashes : ℕ → List Hash256} (t : TreeHashes c n (forEachElementLeaf c txns) hashes)
    (v : InForest n (forEachElementLeaf c txns)) :
    expandMultiproof c
      (sizeProofs c (UInt64.ofNat (inferLeaves (forEachElementLeaf c txns))) (prooflessTxns c txns))
      ((List.range 64).flatMap hashes) = .ok txns := by
  obtain ⟨written,hrun,hwritten⟩ := t.expand_eq v
  have hfinal : (elementPlaces c).update (BlockDiffs.readBack written) 0
      (sizeProofs c (UInt64.ofNat (inferLeaves (forEachElementLeaf c txns))) (prooflessTxns c txns)) = txns := by
    rw [sizeProofs,prooflessTxns,mapElements,mapElements,(elementPlaces c).update_update,
      (elementPlaces c).update_update]
    apply (elementPlaces c).update_kept
    intro i p hp
    rw [Nat.zero_add]
    by_cases hassigned : p.2.leafIndex = unassignedLeafIndex
    · -- nothing was written for an element that is not in the accumulator
      simp only [if_pos hassigned]
      apply readBack_of_not_mem
      rintro l hl rfl
      obtain ⟨q,hq,-,hne⟩ := mem_forEachElementLeaf.mp ((hwritten l).mp hl)
      rw [hq] at hp
      obtain rfl := Option.some.inj hp
      exact hne hassigned
    · simp only [if_neg hassigned]
      have hleaf : (⟨i,p.2,p.1,false⟩ : ElementLeaf) ∈ forEachElementLeaf c txns :=
        mem_forEachElementLeaf.mpr ⟨p,hp,rfl,hassigned⟩
      apply readBack_of_forall
      · exact ⟨_,(hwritten _).mpr hleaf,rfl⟩
      · rintro l hl rfl
        obtain ⟨q,hq,hl,-⟩ := mem_forEachElementLeaf.mp ((hwritten l).mp hl)
        rw [hq] at hp
        obtain rfl := Option.some.inj hp
        rw [hl]
  rw [expandMultiproof,v.sizeProofs_leaves,hrun,ok_bind]
  exact congrArg Except.ok hfinal

/-- Leaves of a forest of `n` leaf hashes `f`, with proofs as long as their trees are high. -/
structure ForestLeaves (c : Crypto) (f : ℕ → Hash256) (n : ℕ) (leaves : List ElementLeaf) : Prop where
  small : n < 2^63
  inTree : ∀ l ∈ leaves, InTree n l.merkleProof.length l.leafIndex
  hashed : ∀ l ∈ leaves, l.hash c = f l.leafIndex

section Nodes

variable {f : ℕ → Hash256} {leaves : List ElementLeaf}

/-- Proofs that follow the nodes of one tree fit together. -/
theorem proofsFit_nodes {col : ℕ} (hcap : (col+1) * 2^h ≤ 2^63) (hcol : ∀ l ∈ leaves, l.leafIndex / 2^h = col)
    (hhash : ∀ l ∈ leaves, l.hash c = f l.leafIndex) (hfollows : ∀ l ∈ leaves, FollowsBelow c f h l) :
    ProofsFit c h (col * 2^h) ((col+1) * 2^h) leaves (nodeAt c.sumPair f h col) := by
  induction h generalizing col leaves with
  | zero =>
    intro l hl
    have hindex := hcol l hl
    rw [pow_zero,Nat.div_one] at hindex
    rw [hhash l hl,hindex,nodeAt]
  | succ h ih =>
    have hside := fun l hl => half_iff_of_col (hcol l hl)
    have hstart : col * 2^(h+1) = 2*col * 2^h := by ring
    have hstop : (col+1) * 2^(h+1) = (2*col+1+1) * 2^h := by ring
    have hmid : (2*col+1) * 2^h ≤ (2*col+1+1) * 2^h := Nat.mul_le_mul_right _ (by omega)
    have hbelow : ∀ l ∈ leaves, FollowsBelow c f h l := fun l hl => (hfollows l hl).mono (Nat.le_succ h)
    unfold ProofsFit
    rw [recompute_mid hcap,hstart,hstop]
    refine ⟨nodeAt c.sumPair f h (2*col),nodeAt c.sumPair f h (2*col+1),fun _ => rfl,?_,?_,fun l hl => ?_⟩
    · have hmem := fun l (hl : l ∈ leaves.filter (·.leafIndex < (2*col+1) * 2^h)) => List.mem_filter.mp hl
      exact ih (by omega) (fun l hl => (hside l (hmem l hl).1).1.mp (of_decide_eq_true (hmem l hl).2))
        (fun l hl => hhash l (hmem l hl).1) fun l hl => hbelow l (hmem l hl).1
    · have hmem := fun l (hl : l ∈ leaves.filter ((2*col+1) * 2^h ≤ ·.leafIndex)) => List.mem_filter.mp hl
      exact ih (by omega) (fun l hl => (hside l (hmem l hl).1).2.mp (of_decide_eq_true (hmem l hl).2))
        (fun l hl => hhash l (hmem l hl).1) fun l hl => hbelow l (hmem l hl).1
    · rw [(hfollows l hl).getElem? (Nat.lt_succ_self h)]
      by_cases hlt : l.leafIndex < (2*col+1) * 2^h
      · rw [if_pos hlt,(hside l hl).1.mp hlt,sib_left]
      · rw [if_neg hlt,(hside l hl).2.mp (not_lt.mp hlt),sib_right]

theorem ForestLeaves.consistent (v : ForestLeaves c f n leaves)
    (hpath : ∀ l ∈ leaves, l.merkleProof = siblings c.sumPair f l.leafIndex 0 l.merkleProof.length) :
    Consistent c n leaves where
  bound := v.small.trans (by decide)
  inTree := v.inTree
  fit k := by
    refine ⟨nodeAt c.sumPair f k (n / 2^k - 1),?_⟩
    by_cases hne : treeLeaves leaves k = []
    · rw [hne]
      exact proofsFit_nil _ _ _ _
    · have hin : ∀ l ∈ treeLeaves leaves k, InTree n k l.leafIndex := fun l hl => by
        obtain ⟨hmem,rfl⟩ := mem_treeLeaves.mp hl
        exact v.inTree l hmem
      obtain ⟨l,hl⟩ := List.exists_mem_of_ne_nil _ hne
      have hstop := (hin l hl).col_succ
      have hcap : (n / 2^k - 1 + 1) * 2^k ≤ 2^63 := by
        rw [hstop]
        exact (Nat.div_mul_le_self n (2^k)).trans v.small.le
      have hfit := proofsFit_nodes hcap (fun l hl => (hin l hl).col) (fun l hl => v.hashed l (mem_treeLeaves.mp hl).1)
        fun l hl => by
          obtain ⟨hmem,rfl⟩ := mem_treeLeaves.mp hl
          rw [FollowsBelow,List.take_length]
          exact hpath l hmem
      rwa [hstop] at hfit

end Nodes

/-- The forest that a collision-free accumulator stands for, and the elements it accepts. -/
theorem forestLeaves_of_containsLeaf {acc : ElementAccumulator} {R : List LeafRecord}
    (hrep : Represents c acc (leafHashes c R)) (hsmall : R.length < 2^63)
    (hinj : Set.InjOn c.sum256
      {m | m ∈ forestMessages c R ++ (forEachElementLeaf c txns).flatMap (proofMessages c)})
    (hvalid : ∀ l ∈ forEachElementLeaf c txns, acc.containsLeaf c l = true) :
    ForestLeaves c (leafFn (leafHashes c R)) R.length (forEachElementLeaf c txns) ∧
      ∀ l ∈ forEachElementLeaf c txns,
        l.merkleProof = siblings c.sumPair (leafFn (leafHashes c R)) l.leafIndex 0 l.merkleProof.length := by
  have hstored : ∀ l ∈ forEachElementLeaf c txns,
      R[l.leafIndex]? = some l.record ∧ ValidProof c (leafHashes c R) l.stateElement := fun l hl =>
    mem_of_containsLeaf hrep hinj (fun m hm => List.mem_append_left _ hm)
      (fun m hm => List.mem_append_right _ (List.mem_flatMap.mpr ⟨l,hl,hm⟩)) (hvalid l hl)
  have hpath : ∀ l ∈ forEachElementLeaf c txns, InTree R.length l.merkleProof.length l.leafIndex ∧
      l.merkleProof = siblings c.sumPair (leafFn (leafHashes c R)) l.leafIndex 0 l.merkleProof.length := by
    intro l hl
    obtain ⟨k,hin,hproof⟩ := (hstored l hl).2
    rw [length_leafHashes] at hin
    have hlen : l.merkleProof.length = k := by
      rw [ElementLeaf.merkleProof,hproof,length_siblings]
    exact ⟨by rw [hlen]; exact hin,by rw [hlen]; exact hproof⟩
  refine ⟨⟨hsmall,fun l hl => (hpath l hl).1,fun l hl => ?_⟩,fun l hl => (hpath l hl).2⟩
  rw [leafFn_leafHashes (hstored l hl).1,LeafRecord.preimage,ElementLeaf.hash,ElementLeaf.leafIndex,UInt64.ofNat_toNat]
  rfl

theorem run_readHashes (hashes : List Hash256) (r : Bytes) (hlen : (hashes.flatMap Subtype.val).length < 2^64) :
    (readCount (readFixed 32) hashes.length).run (hashes.flatMap Subtype.val ++ r) = .ok (hashes, r) := by
  have hreads : Reads (fun _ => True) (fun b : Hash256 => b.val) (readFixed 32) := fun b r _ _ => run_readFixed b r
  exact hreads.readCount (fun _ _ => trivial) hlen r

theorem onWire_update (hwire : ∀ txn ∈ txns, txn.OnWire) (g : ℕ → StateElement → StateElement) (n : ℕ) :
    ∀ txn ∈ (elementPlaces c).update g n txns, txn.OnWire := by
  intro txn htxn
  obtain ⟨txn₀,htxn₀,s,rfl⟩ := Places.mem_updateList htxn
  obtain ⟨hsci,hsfi⟩ := hwire txn₀ htxn₀
  constructor
  · intro sci hmem
    obtain ⟨sci₀,hsci₀,t,rfl⟩ := Places.mem_updateList hmem
    exact hsci sci₀ hsci₀
  · intro sfi hmem
    obtain ⟨sfi₀,hsfi₀,t,rfl⟩ := Places.mem_updateList hmem
    exact hsfi sfi₀ hsfi₀

theorem Consistent.run_multiproof (v : Consistent c n (forEachElementLeaf c txns)) (hwire : ∀ txn ∈ txns, txn.OnWire)
    (hfits : ∀ b, encodeMultiproof c txns = .ok b → b.length < 2^64) :
    ∃ (hashes : List Hash256) (b : Bytes), computeMultiproof c txns = .ok hashes ∧ encodeMultiproof c txns = .ok b ∧
      multiproofSize c (sizeProofs c (UInt64.ofNat (inferLeaves (forEachElementLeaf c txns))) (prooflessTxns c txns)) =
        .ok hashes.length ∧
      ∀ r, (decodeMultiproof c).run (b ++ r) = .ok (txns, r) := by
  set numLeaves := UInt64.ofNat (inferLeaves (forEachElementLeaf c txns)) with hnum
  obtain ⟨treeHashes,t⟩ := v.treeHashes
  set hashes := (List.range 64).flatMap treeHashes with hhashes
  have hcompute : computeMultiproof c txns = .ok hashes := t.compute_eq v.toInForest
  have hsize : multiproofSize c (sizeProofs c numLeaves (prooflessTxns c txns)) = .ok hashes.length := by
    rw [multiproofSize,v.sizeProofs_leaves]
    exact t.size_eq v.toInForest
  have hexpand : expandMultiproof c (sizeProofs c numLeaves (prooflessTxns c txns)) hashes = .ok txns :=
    t.expand_restores v.toInForest
  have hencode : encodeMultiproof c txns = .ok (encodeList V2Transaction.encode (prooflessTxns c txns) ++
      (encodeUint64 numLeaves ++ hashes.flatMap Subtype.val)) := by
    rw [encodeMultiproof,hcompute,ok_bind]
    rfl
  refine ⟨hashes,_,hcompute,hencode,hsize,fun r => ?_⟩
  have hlen := hfits _ hencode
  rw [List.length_append,List.length_append] at hlen
  have htxns := V2Transaction.reads_v2Transaction.list (fun txn => by simp [V2Transaction.encode]) (prooflessTxns c txns)
    (encodeUint64 numLeaves ++ (hashes.flatMap Subtype.val ++ r)) (onWire_update hwire _ 0) (by omega)
  have hread := run_readHashes hashes r (by omega)
  have hindex : ¬ ∃ l ∈ forEachElementLeaf c (prooflessTxns c txns), numLeaves ≤ l.stateElement.leafIndex := by
    rw [leaves_prooflessTxns]
    rintro ⟨l',hl',hle⟩
    obtain ⟨l,hl,rfl⟩ := List.mem_map.mp hl'
    have hlt := (v.inTree_inferLeaves hl).lt
    rw [UInt64.le_iff_toNat_le,hnum,toNat_ofNat_of_lt v.inferLeaves_lt] at hle
    exact absurd hle (not_le.mpr hlt)
  simp only [decodeMultiproof,List.append_assoc,run_bind,htxns,ok_bind,run_readUint64,hindex,if_false,
    hsize,run_call,hread,hexpand]

theorem consistent_nil : Consistent c 0 [] where
  bound := by decide
  inTree _ hl := nomatch hl
  fit k := ⟨default,proofsFit_nil _ _ _ _⟩

/-- What the encoder writes of elements that the accumulator accepts is decoded to the same
transactions with the same proofs. -/
theorem multiproof_roundTrip (c : Crypto) (acc : ElementAccumulator) (R : List LeafRecord) (txns : List V2Transaction)
    (r : Bytes) (hrep : Represents c acc (leafHashes c R)) (hsmall : R.length < 2^63)
    (hinj : Set.InjOn c.sum256 {m | m ∈ forestMessages c R ++ (forEachElementLeaf c txns).flatMap (proofMessages c)})
    (hvalid : ∀ l ∈ forEachElementLeaf c txns, acc.containsLeaf c l = true)
    (hwire : ∀ txn ∈ txns, txn.OnWire)
    (hfits : ∀ b, encodeMultiproof c txns = .ok b → b.length < 2^64) :
    ∃ (hashes : List Hash256) (b : Bytes), computeMultiproof c txns = .ok hashes ∧ encodeMultiproof c txns = .ok b ∧
      multiproofSize c (sizeProofs c (UInt64.ofNat (inferLeaves (forEachElementLeaf c txns))) (prooflessTxns c txns)) =
        .ok hashes.length ∧
      (decodeMultiproof c).run (b ++ r) = .ok (txns, r) := by
  obtain ⟨v,hpath⟩ := forestLeaves_of_containsLeaf hrep hsmall hinj hvalid
  obtain ⟨hashes,b,hcompute,hencode,hsize,hread⟩ := (v.consistent hpath).run_multiproof hwire hfits
  exact ⟨hashes,b,hcompute,hencode,hsize,hread r⟩

def sampleElement (leafIndex : UInt64) (merkleProof : List Hash256) : SiacoinElement :=
  ⟨default, ⟨leafIndex, merkleProof⟩, ⟨⟨1, 0⟩, default⟩, 0⟩

def sampleRecords : List LeafRecord :=
  let stored : LeafRecord := ⟨sampleCrypto.sum256 (sampleElement 0 []).leafPreimage, false⟩
  [stored, ⟨default, true⟩, stored]

def sampleSpends : List V2Transaction :=
  let h := leafFn (leafHashes sampleCrypto sampleRecords)
  let first : V2SiacoinInput := ⟨sampleElement 0 [h 1], ⟨.above 7, [], []⟩⟩
  [{ siacoinInputs := [first] }, { siacoinInputs := [⟨sampleElement 2 [], ⟨.threshold 0 [.above 7], [], []⟩⟩, first] }]

theorem multiproof_roundTrip_sample :
    ∃ b, encodeMultiproof sampleCrypto sampleSpends = .ok b ∧
      (decodeMultiproof sampleCrypto).run (b ++ [7]) = .ok (sampleSpends, [7]) := by
  let h := leafFn (leafHashes sampleCrypto sampleRecords)
  let acc : ElementAccumulator := ⟨fun k => if k = 0 then h 2 else sampleCrypto.sumPair (h 0) (h 1),3⟩
  have hrep : Represents sampleCrypto acc (leafHashes sampleCrypto sampleRecords) := by
    refine ⟨by decide,fun k hk => ?_⟩
    match k, hk with
    | 0, _ => rfl
    | 1, _ => rfl
    | k+2, hk =>
      have hzero : (leafHashes sampleCrypto sampleRecords).length / 2^(k+2) = 0 := by
        refine Nat.div_eq_of_lt ?_
        have : 2^2 ≤ 2^(k+2) := Nat.pow_le_pow_right (by omega) (by omega)
        rw [length_leafHashes]
        exact lt_of_lt_of_le (by decide) this
      rw [hzero] at hk
      cases hk
  have hwire : ∀ txn ∈ sampleSpends, txn.OnWire := by decide +kernel
  have hvalid : ∀ l ∈ forEachElementLeaf sampleCrypto sampleSpends, acc.containsLeaf sampleCrypto l = true := by
    decide +kernel
  have hshort : (encodeMultiproof sampleCrypto sampleSpends).holds (fun b => b.length < 2^64) = true := by
    decide +kernel
  have hfits : ∀ b, encodeMultiproof sampleCrypto sampleSpends = .ok b → b.length < 2^64 := fun b hb => by
    rw [hb] at hshort
    exact of_decide_eq_true hshort
  obtain ⟨_,b,-,hencode,-,hdecode⟩ := multiproof_roundTrip sampleCrypto acc sampleRecords sampleSpends [7] hrep
    (by decide) (injOn_of_nodup (by decide +kernel)) hvalid hwire hfits
  exact ⟨b,hencode,hdecode⟩

def sampleUnrepresentable : List V2Transaction :=
  [{ siacoinInputs := [⟨sampleElement unassignedLeafIndex [], ⟨.after ⟨Time.unixToInternal, 1⟩, [], []⟩⟩] }]

def firstNanoseconds (txns : List V2Transaction) : Option Int64 := do
  let txn ← txns.head?
  let sci ← txn.siacoinInputs.head?
  match sci.satisfiedPolicy.policy with
  | .after t => return t.nsec
  | _ => none

/-- The wire has whole seconds only: the policy comes back earlier than it was. -/
theorem multiproof_not_roundTrip :
    forEachElementLeaf sampleCrypto sampleUnrepresentable = [] ∧
      ∃ b out, encodeMultiproof sampleCrypto sampleUnrepresentable = .ok b ∧
        (decodeMultiproof sampleCrypto).run b = .ok (out, []) ∧ out ≠ sampleUnrepresentable := by
  refine ⟨by decide +kernel,?_⟩
  obtain ⟨b,hencode,hdecode⟩ := exists_of_holds
    (x := encodeMultiproof sampleCrypto sampleUnrepresentable)
    (p := fun b => ((decodeMultiproof sampleCrypto).run b).holds fun out =>
      decide (out.2 = []) && decide (firstNanoseconds out.1 = some 0)) (by decide +kernel)
  obtain ⟨⟨out,rest⟩,hout,hcheck⟩ := exists_of_holds hdecode
  rw [Bool.and_eq_true,decide_eq_true_iff,decide_eq_true_iff] at hcheck
  obtain ⟨hrest,hzero⟩ := hcheck
  dsimp only at hrest hzero
  subst hrest
  refine ⟨b,out,hencode,hout,?_⟩
  rintro rfl
  exact absurd hzero (by decide)

end RoundTrip

end QdayNode
